import Colza.OpenIterations
import Colza.ProviderRuns
import Mathlib.Algebra.BigOperators.Group.List.Basic

/-!
# Blocks from the memory of a sender to the datasets of a pipeline

What `PipelineHandle::stage` exposes for a block, and the example backend `DummyPipeline`
that pulls blocks and keeps them by iteration, dataset name and block id.
-/
namespace StagedBlocks

open Interfaces ProviderHandlers ProviderRuns GuardedRuns

/-! ## The size of a block -/

def ComputeDataSize (dimensions : List UInt64) (type : DataType) : UInt64 :=
  let s := dimensions.foldl (· * ·) 1
  match type with
  | .int8 | .uint8 => s
  | .int16 | .uint16 => 2 * s
  | .float32 | .int32 | .uint32 => 4 * s
  | .int64 | .uint64 | .float64 => 8 * s

/-- The bytes of one element. -/
def elementSize : DataType → ℕ
  | .int8 | .uint8 => 1
  | .int16 | .uint16 => 2
  | .float32 | .int32 | .uint32 => 4
  | .int64 | .uint64 | .float64 => 8

/-- The bytes of a block, with no bound on them. -/
def blockSize (dimensions : List UInt64) (type : DataType) : ℕ :=
  (dimensions.map UInt64.toNat).prod * elementSize type

/-- `segment[0]` in `PipelineHandle::stage`: where it starts and how long it is. -/
def segment (data : ℕ) (dimensions : List UInt64) (type : DataType) : ℕ × UInt64 :=
  (data, ComputeDataSize dimensions type)

theorem foldl_mul_toNat (dimensions : List UInt64) (s : UInt64) :
    (dimensions.foldl (· * ·) s).toNat =
      s.toNat * (dimensions.map UInt64.toNat).prod % 2 ^ 64 := by
  induction dimensions generalizing s with
  | nil =>
    rw [List.map_nil, List.prod_nil, Nat.mul_one]
    exact (Nat.mod_eq_of_lt s.toNat_lt).symm
  | cons d dimensions ih =>
    rw [List.foldl_cons, ih, UInt64.toNat_mul, List.map_cons, List.prod_cons, ← Nat.mul_assoc]
    exact Nat.mod_mul_mod _ _ _

theorem computeDataSize_eq (dimensions : List UInt64) (type : DataType) :
    ComputeDataSize dimensions type =
      UInt64.ofNat (elementSize type) * dimensions.foldl (· * ·) 1 := by
  cases type <;> first | rfl | exact (UInt64.one_mul _).symm

/-- Every product wraps around at 2^64. -/
theorem computeDataSize_toNat (dimensions : List UInt64) (type : DataType) :
    (ComputeDataSize dimensions type).toNat = blockSize dimensions type % 2 ^ 64 := by
  have hsize : (UInt64.ofNat (elementSize type)).toNat = elementSize type := by
    cases type <;> rfl
  rw [computeDataSize_eq, UInt64.toNat_mul, foldl_mul_toNat, hsize]
  unfold blockSize
  rw [Nat.mul_mod_mod, Nat.mul_comm]
  congr 2
  exact Nat.one_mul _

/-- The exposed segment has the size of the block exactly when 64 bits hold that size. -/
theorem segment_exact_iff (data : ℕ) (dimensions : List UInt64) (type : DataType) :
    (segment data dimensions type).2.toNat = blockSize dimensions type ↔
      blockSize dimensions type < 2 ^ 64 := by
  change (ComputeDataSize dimensions type).toNat = _ ↔ _
  rw [computeDataSize_toNat]
  exact Nat.mod_eq_iff_lt (by decide)

/-- A block of 2^32 by 2^32 bytes is exposed as an empty segment. -/
theorem segment_wraps :
    ¬ ∀ (data : ℕ) (dimensions : List UInt64) (type : DataType),
      (segment data dimensions type).2.toNat = blockSize dimensions type := by
  intro h
  have hs := h 0 [4294967296, 4294967296] .int8
  revert hs
  decide

/-! ## The datasets of `DummyPipeline` -/

structure DataBlock where
  data : List UInt8
  dimensions : List UInt64
  offsets : List Int64
  type : DataType
  deriving DecidableEq, Repr

/-- `m_datasets`: iteration, dataset name, block id. -/
abbrev Datasets :=
  Finmap fun _ : UInt64 => Finmap fun _ : String => Finmap fun _ : UInt64 => DataBlock

def Datasets.find (m : Datasets) (iteration : UInt64) (datasetName : String) (blockId : UInt64) :
    Option DataBlock :=
  match m.lookup iteration with
  | none => none
  | some datasets =>
    match datasets.lookup datasetName with
    | none => none
    | some blocks => blocks.lookup blockId

/-- The assignment to `m_datasets[iteration][dataset_name][block_id]`. -/
def Datasets.assign (m : Datasets) (iteration : UInt64) (datasetName : String) (blockId : UInt64)
    (block : DataBlock) : Datasets :=
  let datasets := (m.lookup iteration).getD ∅
  let blocks := (datasets.lookup datasetName).getD ∅
  m.insert iteration (datasets.insert datasetName (blocks.insert blockId block))

section Datasets

variable (m : Datasets) (i : UInt64) (d : String) (b : UInt64)

@[simp] theorem find_empty : Datasets.find ∅ i d b = none := rfl

theorem find_assign_self (block : DataBlock) : (m.assign i d b block).find i d b = some block := by
  simp [Datasets.find, Datasets.assign]

theorem find_assign_of_ne (block : DataBlock) {i' : UInt64} {d' : String} {b' : UInt64}
    (h : (i', d', b') ≠ (i, d, b)) : (m.assign i d b block).find i' d' b' = m.find i' d' b' := by
  unfold Datasets.find Datasets.assign
  by_cases hi : i' = i
  · subst hi
    rw [Finmap.lookup_insert]
    by_cases hd : d' = d
    · subst hd
      have hb : b' ≠ b := by
        rintro rfl
        exact h rfl
      cases hm : m.lookup i' with
      | none => simp [Finmap.lookup_insert_of_ne _ hb]
      | some datasets =>
        cases hd : datasets.lookup d' <;> simp [hd, Finmap.lookup_insert_of_ne _ hb]
    · cases hm : m.lookup i' <;> simp [Finmap.lookup_insert_of_ne _ hd]
  · rw [Finmap.lookup_insert_of_ne _ hi]

theorem find_erase_self : Datasets.find (m.erase i) i d b = none := by
  unfold Datasets.find
  rw [Finmap.lookup_erase]

theorem find_erase_of_ne {j : UInt64} (h : j ≠ i) :
    Datasets.find (m.erase i) j d b = m.find j d b := by
  unfold Datasets.find
  rw [Finmap.lookup_erase_ne h]

end Datasets

/-- The first critical section of `stage`: there is such a block. -/
def alreadyExists (m : Datasets) (iteration : UInt64) (args : StageArgs) : Bool :=
  (m.find iteration args.datasetName args.blockId).isSome

def blockAlreadyExists : RequestResult Int32 where
  success := false
  error := "Block already exists for provided iteration, name, and id"
  value := some 0

/-- The block that is filled with the bytes the transfer brings. -/
def newBlock (args : StageArgs) (data : List UInt8) : DataBlock :=
  ⟨data, args.dimensions, args.offsets, args.type⟩

def transferFailed (what : String) : RequestResult Int32 :=
  { success := false, error := what, value := some 0 }

/-- `pull` is the transfer from the sender, which may throw. -/
def DummyPipeline.stage (pull : StageArgs → Except String (List UInt8)) (m : Datasets)
    (iteration : UInt64) (args : StageArgs) : RequestResult Int32 × Datasets :=
  if alreadyExists m iteration args then (blockAlreadyExists, m)
  else match pull args with
  | .error what => (transferFailed what, m)
  | .ok data =>
    ({ value := some 0 },
      m.assign iteration args.datasetName args.blockId (newBlock args data))

/-- The class `DummyPipeline`. Only `stage` and `cleanup` touch the datasets. -/
def DummyPipeline (pull : StageArgs → Except String (List UInt8)) : Backend Datasets where
  updateMonaAddresses m _ := m
  start m _ := ({ value := some 0 }, m)
  abort m _ := m
  stage m iteration args := DummyPipeline.stage pull m iteration args
  execute m _ := ({ value := some 0 }, m)
  cleanup m iteration := ({ value := some 0 }, m.erase iteration)
  destroy m := ({ value := some 1 }, m)

/-! ## Requests one at a time on pipelines of this class -/

def dummyEnvironment (pull : StageArgs → Except String (List UInt8)) : Environment Datasets where
  backend := DummyPipeline pull
  parse := fun _ => .ok .null
  dlopen := fun _ => none
  createFn := fun _ => some fun _ => .backend ∅

/-- The requests that open, fill, run and close an iteration. -/
inductive IterationRequest where
  | start (groupHash : UInt64) (pipelineName : String) (iteration : UInt64)
  | stage (pipelineName : String) (iteration : UInt64) (args : StageArgs)
  | execute (pipelineName : String) (iteration : UInt64) (autoCleanup : Bool)
  | cleanup (pipelineName : String) (iteration : UInt64)
  | abort (pipelineName : String) (iteration : UInt64)

def IterationRequest.request : IterationRequest → Request
  | .start groupHash name i => .start groupHash name i
  | .stage name i args => .stage name i args
  | .execute name i autoCleanup => .execute name i autoCleanup
  | .cleanup name i => .cleanup name i
  | .abort name i => .abort name i

/-- A request, with what the transfers do while it is handled. -/
abbrev Served := (StageArgs → Except String (List UInt8)) × IterationRequest

/-- The provider, and for each pipeline the blocks that have been staged since it was last
started. -/
structure Tracked where
  provider : Provider Datasets
  staged : String → Finset (String × UInt64)

/-- The staged blocks after a request that has succeeded. -/
def restaged (staged : String → Finset (String × UInt64)) :
    IterationRequest → String → Finset (String × UInt64)
  | .start _ name _ => Function.update staged name ∅
  | .stage name _ args =>
    Function.update staged name (insert (args.datasetName, args.blockId) (staged name))
  | _ => staged

def Tracked.serve (t : Tracked) (e : Served) : Tracked :=
  let o := process (dummyEnvironment e.1) t.provider e.2.request
  ⟨o.provider, if o.succeeded then restaged t.staged e.2 else t.staged⟩

/-- The datasets of a pipeline hold blocks of its active iteration only. -/
def OnlyActiveBlocks (t : Tracked) : Prop :=
  ∀ name st i d b, t.provider.pipelines.lookup name = some st →
    (st.pipeline.state.find i d b).isSome → st.active = true ∧ st.iteration = i

/-- A block that has not been staged since the start is staged if its transfer succeeds. -/
def Stageable (t : Tracked) : Prop :=
  ∀ name st pull args data, t.provider.pipelines.lookup name = some st → st.active = true →
    (args.datasetName, args.blockId) ∉ t.staged name → pull args = .ok data →
    (stage (dummyEnvironment pull) t.provider name st.iteration args).succeeded

/-- An iteration is aborted before anything is staged in it. -/
def AbortsEmpty (t : Tracked) : Served → Prop
  | (_, .abort name i) => ∀ st, t.provider.pipelines.lookup name = some st → st.active = true →
    st.iteration = i → ∀ j d b, st.pipeline.state.find j d b = none
  | _ => True

/-- Every block that a pipeline keeps has been staged since its start. -/
def TidyAt (st : PipelineState Datasets) (staged : Finset (String × UInt64)) : Prop :=
  ∀ i d b, (st.pipeline.state.find i d b).isSome →
    st.active = true ∧ st.iteration = i ∧ (d, b) ∈ staged

def Tidy (t : Tracked) : Prop :=
  ∀ name st, t.provider.pipelines.lookup name = some st → TidyAt st (t.staged name)

section Tidiness

variable {t : Tracked} {s : Provider Datasets} {name : String} {i : UInt64}
  {pull : StageArgs → Except String (List UInt8)}

theorem stage_succeeded_iff {st : PipelineState Datasets} {args : StageArgs} {data : List UInt8}
    (hl : s.pipelines.lookup name = some st) (ha : st.active = true)
    (hpull : pull args = .ok data) :
    (stage (dummyEnvironment pull) s name st.iteration args).succeeded ↔
      alreadyExists st.pipeline.state st.iteration args = false := by
  have hstage : stage (dummyEnvironment pull) s name st.iteration args =
      let (result, b) := DummyPipeline.stage pull st.pipeline.state st.iteration args
      ⟨s.setState name (st.setBackend b), some result,
        [(st.pipeline.id, .stage st.iteration args result.success)]⟩ := by
    unfold stage
    rw [OpenIterations.onActive_active hl ha rfl]
    rfl
  rw [hstage]
  unfold DummyPipeline.stage
  cases alreadyExists st.pipeline.state st.iteration args with
  | true =>
    refine iff_of_false ?_ Bool.noConfusion
    rintro ⟨r, hr, hs⟩
    cases hr
    cases hs
  | false =>
    rw [hpull]
    exact iff_of_true ⟨_, rfl, rfl⟩ rfl

theorem tidy_iff (t : Tracked) : Tidy t ↔ OnlyActiveBlocks t ∧ Stageable t := by
  constructor
  · intro h
    refine ⟨fun name st i d b hl hb => ?_, fun name st pull args data hl ha hk hpull => ?_⟩
    · obtain ⟨ha, hi, -⟩ := h name st hl i d b hb
      exact ⟨ha, hi⟩
    · rw [stage_succeeded_iff hl ha hpull]
      by_contra hexists
      rw [Bool.not_eq_false] at hexists
      exact hk (h name st hl _ _ _ hexists).2.2
  · rintro ⟨honly, hstage⟩ name st hl i d b hb
    obtain ⟨ha, rfl⟩ := honly name st i d b hl hb
    refine ⟨ha, rfl, ?_⟩
    by_contra hk
    have hs := hstage name st (fun _ => .ok []) ⟨"", d, b, [], [], .int8, ⟨[]⟩⟩ [] hl ha hk rfl
    rw [stage_succeeded_iff hl ha rfl] at hs
    change (st.pipeline.state.find st.iteration d b).isSome = false at hs
    rw [hb] at hs
    cases hs

theorem tidy_insert (h : Tidy t) {st : PipelineState Datasets} {keys : Finset (String × UInt64)}
    (hp : s.pipelines = t.provider.pipelines.insert name st) :
    Tidy ⟨s, Function.update t.staged name keys⟩ ↔ TidyAt st keys := by
  constructor
  · intro ht
    have hat := ht name st (by rw [hp, Finmap.lookup_insert])
    simpa using hat
  · intro hat other st' hl
    change s.pipelines.lookup other = some st' at hl
    rw [hp] at hl
    change TidyAt st' (Function.update t.staged name keys other)
    by_cases hne : other = name
    · subst hne
      rw [Finmap.lookup_insert] at hl
      rw [Function.update_self, ← Option.some.inj hl]
      exact hat
    · rw [Finmap.lookup_insert_of_ne _ hne] at hl
      rw [Function.update_of_ne hne]
      exact h other st' hl

theorem tidy_insert_same (h : Tidy t) {st : PipelineState Datasets}
    (hp : s.pipelines = t.provider.pipelines.insert name st) :
    Tidy ⟨s, t.staged⟩ ↔ TidyAt st (t.staged name) := by
  rw [← tidy_insert h hp, Function.update_eq_self]

/-- What each handler does with a pipeline of this class. -/
theorem start_dummy (pull : StageArgs → Except String (List UInt8)) (s : Provider Datasets)
    (groupHash : UInt64) (name : String) (i : UInt64) :
    (∃ r, start (dummyEnvironment pull) s groupHash name i = respond s r ∧ r.success = false) ∨
    ∃ st cs, s.pipelines.lookup name = some st ∧ st.active = false ∧
      start (dummyEnvironment pull) s groupHash name i =
        ⟨s.activate name st i, some { value := some 0 }, cs⟩ := by
  unfold start
  split
  · exact Or.inl ⟨_, rfl, rfl⟩
  · split
    · exact Or.inl ⟨_, rfl, rfl⟩
    · next st hl =>
      split
      · exact Or.inl ⟨_, rfl, rfl⟩
      · next ha =>
        split
        · exact Or.inl ⟨_, rfl, rfl⟩
        · exact Or.inr ⟨st, _, hl, by simpa using ha, rfl⟩

theorem tidyAt_started {st : PipelineState Datasets} {keys : Finset (String × UInt64)}
    (h : TidyAt st keys) (ha : st.active = false) (i : UInt64) :
    TidyAt { st with iteration := i, active := true } ∅ := by
  intro j d b hb
  exact Bool.noConfusion ((h j d b hb).1.symm.trans ha)

theorem tidyAt_assign {st : PipelineState Datasets} {keys : Finset (String × UInt64)}
    (h : TidyAt st keys) (ha : st.active = true) (d : String) (b : UInt64) (block : DataBlock) :
    TidyAt (st.setBackend (st.pipeline.state.assign st.iteration d b block)) (insert (d, b) keys) := by
  intro i d' b' hb
  change (Datasets.find (Datasets.assign _ _ _ _ _) i d' b').isSome at hb
  by_cases hk : (i, d', b') = (st.iteration, d, b)
  · cases hk
    exact ⟨ha, rfl, Finset.mem_insert_self ..⟩
  · rw [find_assign_of_ne _ _ _ _ _ hk] at hb
    obtain ⟨-, hi, hm⟩ := h i d' b' hb
    exact ⟨ha, hi, Finset.mem_insert_of_mem hm⟩

/-- After a cleanup nothing is left. -/
theorem tidyAt_erase {st : PipelineState Datasets} {keys : Finset (String × UInt64)}
    (h : TidyAt st keys) (keys' : Finset (String × UInt64)) :
    TidyAt { st.setBackend (st.pipeline.state.erase st.iteration) with active := false } keys' := by
  intro i d b hb
  change (Datasets.find (Finmap.erase _ _) i d b).isSome at hb
  by_cases hi : i = st.iteration
  · subst hi
    rw [find_erase_self] at hb
    cases hb
  · rw [find_erase_of_ne _ _ _ _ hi] at hb
    exact (hi (h i d b hb).2.1.symm).elim

theorem tidyAt_aborted_iff (st : PipelineState Datasets) (keys : Finset (String × UInt64)) :
    TidyAt { st with iteration := st.iteration - 1, active := false } keys ↔
      ∀ j d b, st.pipeline.state.find j d b = none := by
  constructor
  · intro h j d b
    by_contra hb
    exact Bool.false_ne_true (h j d b (Option.isSome_iff_ne_none.mpr hb)).1
  · intro h j d b hb
    change (st.pipeline.state.find j d b).isSome at hb
    rw [h j d b] at hb
    cases hb

theorem serve_eq {e : Served} {r : RequestResult Int32} {cs : List (BackendId × BackendCall)}
    (h : process (dummyEnvironment e.1) t.provider e.2.request = ⟨s, some r, cs⟩) :
    t.serve e = ⟨s, if r.success then restaged t.staged e.2 else t.staged⟩ := by
  have hr : (Outcome.mk s (some r) cs).succeeded ↔ r.success = true := by
    simp [Outcome.succeeded]
  unfold Tracked.serve
  simp only [h, hr]

/-- A refused request changes nothing. -/
theorem serve_refused {e : Served} {r : RequestResult Int32}
    (h : process (dummyEnvironment e.1) t.provider e.2.request = respond t.provider r)
    (hr : r.success = false) : t.serve e = t := by
  rw [serve_eq h, hr]
  rfl

theorem serve_onActive (e : Served) {body : PipelineState Datasets → Outcome Datasets}
    (h : process (dummyEnvironment e.1) t.provider e.2.request =
      onActive t.provider name i body) :
    t.serve e = t ∧ (∀ st, t.provider.pipelines.lookup name = some st → st.active = true →
      st.iteration ≠ i) ∨
    ∃ st, t.provider.pipelines.lookup name = some st ∧ st.active = true ∧ st.iteration = i ∧
      process (dummyEnvironment e.1) t.provider e.2.request = body st := by
  by_cases hst : ∃ st, t.provider.pipelines.lookup name = some st ∧ st.active = true ∧
      st.iteration = i
  · obtain ⟨st, hl, ha, hi⟩ := hst
    exact Or.inr ⟨st, hl, ha, hi, h.trans (OpenIterations.onActive_active hl ha hi body)⟩
  · rcases onActive_cases t.provider name i body with ⟨r, he, hr⟩ | ⟨st, hl, ha, hi, -⟩
    · exact Or.inl ⟨serve_refused (h.trans he) hr, fun st hl ha hi => hst ⟨st, hl, ha, hi⟩⟩
    · exact (hst ⟨st, hl, ha, hi⟩).elim

theorem tidy_serve_start (h : Tidy t) (groupHash : UInt64) (name : String) (i : UInt64) :
    Tidy (t.serve (pull, .start groupHash name i)) := by
  rcases start_dummy pull t.provider groupHash name i with ⟨r, he, hr⟩ | ⟨st, cs, hl, ha, he⟩
  · rwa [serve_refused (e := (pull, .start groupHash name i)) he hr]
  · rw [serve_eq (e := (pull, .start groupHash name i)) he]
    exact (tidy_insert h rfl).mpr (tidyAt_started (h name st hl) ha i)

theorem tidy_serve_stage (h : Tidy t) (name : String) (i : UInt64) (args : StageArgs) :
    Tidy (t.serve (pull, .stage name i args)) := by
  rcases serve_onActive (pull, .stage name i args) rfl with ⟨ht, -⟩ | ⟨st, hl, ha, rfl, he⟩
  · rwa [ht]
  · rw [serve_eq he]
    change Tidy ⟨t.provider.setState name (st.setBackend
      (DummyPipeline.stage pull st.pipeline.state st.iteration args).2),
      if (DummyPipeline.stage pull st.pipeline.state st.iteration args).1.success then _ else _⟩
    unfold DummyPipeline.stage
    split
    · exact (tidy_insert_same h rfl).mpr (h name st hl)
    · cases pull args with
      | error what => exact (tidy_insert_same h rfl).mpr (h name st hl)
      | ok data => exact (tidy_insert h rfl).mpr (tidyAt_assign (h name st hl) ha _ _ _)

theorem tidy_serve_execute (h : Tidy t) (name : String) (i : UInt64) (autoCleanup : Bool) :
    Tidy (t.serve (pull, .execute name i autoCleanup)) := by
  rcases serve_onActive (pull, .execute name i autoCleanup) rfl with ⟨ht, -⟩ | ⟨st, hl, ha, rfl, he⟩
  · rwa [ht]
  · cases autoCleanup with
    | false =>
      rw [serve_eq he]
      exact (tidy_insert_same h rfl).mpr (h name st hl)
    | true =>
      rw [serve_eq he]
      exact (tidy_insert_same h rfl).mpr (tidyAt_erase (h name st hl) _)

theorem tidy_serve_cleanup (h : Tidy t) (name : String) (i : UInt64) :
    Tidy (t.serve (pull, .cleanup name i)) := by
  rcases serve_onActive (pull, .cleanup name i) rfl with ⟨ht, -⟩ | ⟨st, hl, ha, rfl, he⟩
  · rwa [ht]
  · rw [serve_eq he]
    exact (tidy_insert_same h rfl).mpr (tidyAt_erase (h name st hl) _)

/-- Only `abort` leaves blocks behind. -/
theorem tidy_serve_abort_iff (h : Tidy t) (name : String) (i : UInt64) :
    Tidy (t.serve (pull, .abort name i)) ↔ AbortsEmpty t (pull, .abort name i) := by
  rcases serve_onActive (pull, .abort name i) rfl with ⟨ht, hn⟩ | ⟨st, hl, ha, rfl, he⟩
  · rw [ht]
    exact iff_of_true h fun st hl ha hi => (hn st hl ha hi).elim
  · rw [serve_eq he]
    have hins := tidy_insert_same (s := t.provider.deactivate name
      { st with iteration := st.iteration - 1 }) h rfl
    refine hins.trans ((tidyAt_aborted_iff st _).trans ?_)
    constructor
    · intro hempty st' hl' _ _
      obtain rfl := Option.some.inj (hl.symm.trans hl')
      exact hempty
    · exact fun hg => hg st hl ha rfl

theorem tidy_serve_iff (h : Tidy t) (e : Served) : Tidy (t.serve e) ↔ AbortsEmpty t e := by
  obtain ⟨pull, r⟩ := e
  cases r with
  | start groupHash name i => exact iff_of_true (tidy_serve_start h groupHash name i) trivial
  | stage name i args => exact iff_of_true (tidy_serve_stage h name i args) trivial
  | execute name i autoCleanup =>
    exact iff_of_true (tidy_serve_execute h name i autoCleanup) trivial
  | cleanup name i => exact iff_of_true (tidy_serve_cleanup h name i) trivial
  | abort name i => exact tidy_serve_abort_iff h name i

end Tidiness

/-- Pipelines that start without blocks: blocks of the active iteration only, each key free
once in every iteration, exactly when no iteration is aborted after something was staged. -/
theorem blocks_of_active_iteration_iff {s : Provider Datasets}
    (hnew : ∀ name st, s.pipelines.lookup name = some st → st.pipeline.state = ∅)
    (events : List Served) :
    let t : Tracked := ⟨s, fun _ => ∅⟩
    Always (fun t => OnlyActiveBlocks t ∧ Stageable t) t (path Tracked.serve t events) ↔
      Guarded AbortsEmpty t (path Tracked.serve t events) := by
  intro t
  have ht : Tidy t := by
    intro name st hl i d b hb
    rw [hnew name st hl, find_empty] at hb
    cases hb
  refine always_iff_guarded ?_ (path_run Tracked.serve t events) ((tidy_iff t).mp ht)
  rintro t e u htidy rfl
  rw [← tidy_iff] at htidy ⊢
  exact tidy_serve_iff htidy e

/-- A provider with one new pipeline of this class. -/
def newPipeline : Provider Datasets :=
  (initial "" 0 []).register "p" ∅

/-- The block with this id in dataset `d`. -/
def blockArgs (blockId : UInt64) : StageArgs := ⟨"", "d", blockId, [], [], .int8, ⟨[]⟩⟩

def pullEmpty (_ : StageArgs) : Except String (List UInt8) := .ok []

theorem newPipeline_empty : ∀ name st, newPipeline.pipelines.lookup name = some st →
    st.pipeline.state = ∅ := by
  intro name st hl
  by_cases hn : name = "p"
  · subst hn
    rw [show newPipeline.pipelines.lookup "p" = some ⟨⟨0, ∅⟩, false, 0⟩ from
      Finmap.lookup_insert _] at hl
    rw [← Option.some.inj hl]
  · have hl' : newPipeline.pipelines.lookup name = none := Finmap.lookup_insert_of_ne _ hn
    rw [hl] at hl'
    cases hl'

/-- One iteration is cleaned up, and the next one is aborted before anything is staged. -/
theorem blocks_after_cleanup_and_abort :
    let t : Tracked := ⟨newPipeline, fun _ => ∅⟩
    Always (fun t => OnlyActiveBlocks t ∧ Stageable t) t (path Tracked.serve t
      [(pullEmpty, .start 0 "p" 1), (pullEmpty, .stage "p" 1 (blockArgs 0)),
        (pullEmpty, .cleanup "p" 1), (pullEmpty, .start 0 "p" 2), (pullEmpty, .abort "p" 2)]) := by
  intro t
  refine (blocks_of_active_iteration_iff newPipeline_empty _).mpr
    ⟨trivial, trivial, trivial, trivial, ?_, trivial⟩
  intro st hl _ _ j d b
  have hst : st.pipeline.state = ∅ := by
    revert st
    decide
  rw [hst, find_empty]

/-- After an abort the same iteration starts again, and its first block is refused. -/
theorem blocks_left_by_abort :
    ¬ ∀ (s : Provider Datasets),
      (∀ name st, s.pipelines.lookup name = some st → st.pipeline.state = ∅) →
      ∀ events : List Served,
        Always (fun t => OnlyActiveBlocks t ∧ Stageable t) ⟨s, fun _ => ∅⟩
          (path Tracked.serve ⟨s, fun _ => ∅⟩ events) := by
  intro h
  have hl := (h newPipeline newPipeline_empty [(pullEmpty, .start 0 "p" 1),
    (pullEmpty, .stage "p" 1 (blockArgs 0)), (pullEmpty, .abort "p" 1),
    (pullEmpty, .start 0 "p" 1)]).last.2
  have hs := hl "p" ⟨⟨0, Datasets.assign ∅ 1 "d" 0 (newBlock (blockArgs 0) [])⟩, true, 1⟩ pullEmpty
    (blockArgs 0) [] (by decide) rfl (by decide) rfl
  revert hs
  decide

end StagedBlocks
