import Colza.OpenIterations
import Colza.StagedBlocks

/-!
# What one server of a staging area keeps

The handlers of a provider whose pipeline is a `DummyPipeline`, in terms of the flags of the
pipeline and of the blocks of its iteration.
-/
namespace StagingServers

open Interfaces ProviderHandlers StagedBlocks

/-- The blocks of an iteration, by dataset name and block id. -/
abbrev Blocks := String × UInt64 → Option DataBlock

def noBlocks : Blocks := fun _ => none

/-- The flags of the pipeline, and the blocks it keeps: none of another iteration. -/
def Keeps (s : Provider Datasets) (name : String) (active : Bool) (iteration : UInt64)
    (blocks : Blocks) : Prop :=
  ∃ st, s.pipelines.lookup name = some st ∧ st.active = active ∧ st.iteration = iteration ∧
    ∀ j d b, st.pipeline.state.find j d b = if j = iteration then blocks (d, b) else none

/-- The answer to a request, and what the server keeps after it. -/
structure Leads (o : Outcome Datasets) (s : Provider Datasets) (name : String) (success : Bool)
    (active : Bool) (iteration : UInt64) (blocks : Blocks) : Prop where
  reply : ∃ r, o.reply = some r ∧ r.success = success
  groupHash : o.provider.groupHash = s.groupHash
  keeps : Keeps o.provider name active iteration blocks

variable {s t : Provider Datasets} {name : String} {active : Bool} {i j : UInt64} {blocks : Blocks}
  {pull : StageArgs → Except String (List UInt8)} {args : StageArgs}

theorem Keeps.congr (h : Keeps s name active j blocks) (hp : t.pipelines = s.pipelines) :
    Keeps t name active j blocks := by
  obtain ⟨st, hl, hst⟩ := h
  exact ⟨st, hp ▸ hl, hst⟩

/-- Where no block is kept the iteration does not matter. -/
theorem find_noBlocks {m : Datasets}
    (h : ∀ k d b, m.find k d b = if k = j then noBlocks (d, b) else none) (k : UInt64) (d : String)
    (b : UInt64) : m.find k d b = if k = i then noBlocks (d, b) else none := by
  rw [h]
  simp [noBlocks]

/-- A pipeline is written under its name. -/
theorem lookup_set (st : PipelineState Datasets) :
    (s.setState name st).pipelines.lookup name = some st := Finmap.lookup_insert _

/-! ## Start and abort -/

theorem start_accepts (h : Keeps s name false j noBlocks) (hj : j = 0 ∨ j < i) :
    Leads (start (dummyEnvironment pull) s s.groupHash name i) s name true true i noBlocks := by
  obtain ⟨st, hl, ha, rfl, hb⟩ := h
  have hacc : StartAccepted (dummyEnvironment pull) s s.groupHash name i :=
    ⟨rfl, st, hl, ha, hj, rfl⟩
  have hn : ¬ (st.iteration ≠ 0 ∧ st.iteration ≥ i) := by
    rintro ⟨h0, hle⟩
    exact UInt64.not_le.mpr (hj.resolve_left h0) hle
  have he : start (dummyEnvironment pull) s s.groupHash name i =
      ⟨s.activate name st i, some { value := some 0 }, [(st.pipeline.id, .start i true)]⟩ := by
    unfold start
    simp only [hl, ha, hn, ne_eq, not_true_eq_false, if_false, Bool.false_eq_true]
    rfl
  rw [he]
  exact ⟨⟨_, rfl, rfl⟩, rfl, ⟨_, lookup_set _, rfl, rfl, find_noBlocks hb⟩⟩

/-- A server with the right hash refuses a start for another reason. -/
theorem start_refuses (pull : StageArgs → Except String (List UInt8))
    (h : Keeps s name active j blocks)
    (hn : active = true ∨ j ≠ 0 ∧ i ≤ j) :
    ∃ r, start (dummyEnvironment pull) s s.groupHash name i = respond s r ∧ r.success = false ∧
      r.value ≠ some ErrorCode.invalidGroupHash.value := by
  obtain ⟨st, hl, rfl, rfl, -⟩ := h
  unfold start
  simp only [hl, ne_eq, not_true_eq_false, if_false]
  by_cases ha : st.active = true
  · rw [if_pos ha]
    exact ⟨_, rfl, rfl, by decide⟩
  · obtain ⟨h0, hle⟩ := hn.resolve_left ha
    rw [if_neg ha, if_pos ⟨h0, hle⟩]
    exact ⟨_, rfl, rfl, by decide⟩

/-- A server with another hash refuses because of it. -/
theorem start_hashRefused {g : UInt64} (hg : g ≠ s.groupHash) :
    start (dummyEnvironment pull) s g name i =
      respond s (.failure .invalidGroupHash "Inconsistent group view") := if_pos hg

theorem abort_closes (pull : StageArgs → Except String (List UInt8))
    (h : Keeps s name true i noBlocks) :
    Leads (abort (dummyEnvironment pull) s name i) s name true false (i - 1) noBlocks := by
  obtain ⟨st, hl, ha, rfl, hb⟩ := h
  unfold abort
  rw [OpenIterations.onActive_active hl ha rfl]
  exact ⟨⟨_, rfl, rfl⟩, rfl, ⟨_, lookup_set _, rfl, rfl, find_noBlocks hb⟩⟩

/-! ## Stage, execute and cleanup -/

/-- Outside the open iteration these requests are refused. -/
theorem onActive_refuses (h : Keeps s name active j blocks) (hn : ¬ (active = true ∧ j = i))
    (body : PipelineState Datasets → Outcome Datasets) :
    ∃ r, onActive s name i body = respond s r ∧ r.success = false := by
  obtain ⟨st, hl, rfl, rfl, -⟩ := h
  unfold onActive
  simp only [hl]
  by_cases ha : st.active = true
  · have hi : st.iteration ≠ i := fun hi => hn ⟨ha, hi⟩
    rw [if_neg (by simp [ha]), if_pos hi]
    exact ⟨_, rfl, rfl⟩
  · rw [if_pos (by simpa using ha)]
    exact ⟨_, rfl, rfl⟩

/-- A block is staged once, if its transfer succeeds. -/
theorem stage_fails (h : Keeps s name true i blocks)
    (hn : blocks (args.datasetName, args.blockId) ≠ none ∨ ∃ what, pull args = .error what) :
    Leads (stage (dummyEnvironment pull) s name i args) s name false true i blocks := by
  obtain ⟨st, hl, ha, rfl, hb⟩ := h
  have hfails : ∃ r, DummyPipeline.stage pull st.pipeline.state st.iteration args =
      (r, st.pipeline.state) ∧ r.success = false := by
    unfold DummyPipeline.stage
    by_cases hex : alreadyExists st.pipeline.state st.iteration args = true
    · rw [if_pos hex]
      exact ⟨_, rfl, rfl⟩
    · have hnone : blocks (args.datasetName, args.blockId) = none := by
        simpa [alreadyExists, hb] using hex
      obtain ⟨what, hpull⟩ := hn.resolve_left (not_not.mpr hnone)
      rw [if_neg hex, hpull]
      exact ⟨_, rfl, rfl⟩
  obtain ⟨r, hr, hfalse⟩ := hfails
  have he : stage (dummyEnvironment pull) s name st.iteration args =
      ⟨s.setState name (st.setBackend st.pipeline.state), some r,
        [(st.pipeline.id, .stage st.iteration args r.success)]⟩ := by
    unfold stage
    rw [OpenIterations.onActive_active hl ha rfl]
    simp only [dummyEnvironment, DummyPipeline, hr]
  rw [he]
  exact ⟨⟨r, rfl, hfalse⟩, rfl, ⟨_, lookup_set _, ha, rfl, hb⟩⟩

theorem stage_stores {data : List UInt8} (h : Keeps s name true i blocks)
    (hnone : blocks (args.datasetName, args.blockId) = none) (hpull : pull args = .ok data) :
    Leads (stage (dummyEnvironment pull) s name i args) s name true true i
      (Function.update blocks (args.datasetName, args.blockId) (some (newBlock args data))) := by
  obtain ⟨st, hl, ha, rfl, hb⟩ := h
  have hex : alreadyExists st.pipeline.state st.iteration args = false := by
    simp [alreadyExists, hb, hnone]
  have hr : DummyPipeline.stage pull st.pipeline.state st.iteration args =
      ({ value := some 0 }, st.pipeline.state.assign st.iteration args.datasetName args.blockId
        (newBlock args data)) := by
    simp only [DummyPipeline.stage, hex, Bool.false_eq_true, if_false, hpull]
  have he : stage (dummyEnvironment pull) s name st.iteration args =
      ⟨s.setState name (st.setBackend (st.pipeline.state.assign st.iteration args.datasetName
        args.blockId (newBlock args data))), some { value := some 0 },
        [(st.pipeline.id, .stage st.iteration args true)]⟩ := by
    unfold stage
    rw [OpenIterations.onActive_active hl ha rfl]
    simp only [dummyEnvironment, DummyPipeline, hr]
  rw [he]
  refine ⟨⟨_, rfl, rfl⟩, rfl, ⟨_, lookup_set _, ha, rfl, fun k d b => ?_⟩⟩
  change Datasets.find (Datasets.assign _ _ _ _ _) k d b = if k = st.iteration then _ else none
  by_cases hk : (k, d, b) = (st.iteration, args.datasetName, args.blockId)
  · cases hk
    rw [find_assign_self, if_pos rfl, Function.update_self]
  · rw [find_assign_of_ne _ _ _ _ _ hk, hb]
    by_cases hi : k = st.iteration
    · have hkey : (d, b) ≠ (args.datasetName, args.blockId) := by
        rintro hkey
        cases hkey
        exact hk (by rw [hi])
      rw [if_pos hi, if_pos hi, Function.update_of_ne hkey]
    · rw [if_neg hi, if_neg hi]

theorem keeps_erased {st : PipelineState Datasets}
    (hb : ∀ k d b, st.pipeline.state.find k d b =
      if k = st.iteration then blocks (d, b) else none) (k : UInt64) (d : String) (b : UInt64) :
    Datasets.find (st.pipeline.state.erase st.iteration) k d b =
      if k = st.iteration then noBlocks (d, b) else none := by
  by_cases hk : k = st.iteration
  · rw [hk, find_erase_self]
    simp [noBlocks]
  · rw [find_erase_of_ne _ _ _ _ hk, hb, if_neg hk, if_neg hk]

theorem execute_runs (h : Keeps s name true i blocks) :
    Leads (execute (dummyEnvironment pull) s name i false) s name true true i blocks := by
  obtain ⟨st, hl, ha, rfl, hb⟩ := h
  unfold execute
  rw [OpenIterations.onActive_active hl ha rfl]
  exact ⟨⟨_, rfl, rfl⟩, rfl, ⟨_, lookup_set _, ha, rfl, hb⟩⟩

theorem execute_closes (h : Keeps s name true i blocks) :
    Leads (execute (dummyEnvironment pull) s name i true) s name true false i noBlocks := by
  obtain ⟨st, hl, ha, rfl, hb⟩ := h
  unfold execute
  rw [OpenIterations.onActive_active hl ha rfl]
  exact ⟨⟨_, rfl, rfl⟩, rfl, ⟨_, lookup_set _, rfl, rfl, keeps_erased hb⟩⟩

theorem cleanup_closes (h : Keeps s name true i blocks) :
    Leads (cleanup (dummyEnvironment pull) s name i) s name true false i noBlocks := by
  obtain ⟨st, hl, ha, rfl, hb⟩ := h
  unfold cleanup
  rw [OpenIterations.onActive_active hl ha rfl]
  exact ⟨⟨_, rfl, rfl⟩, rfl, ⟨_, lookup_set _, rfl, rfl, keeps_erased hb⟩⟩

end StagingServers
