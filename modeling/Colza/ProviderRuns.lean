import Colza.ProviderHandlers
import Colza.GuardedRuns
import Colza.FiniteCounts

/-!
# Runs of requests processed one at a time

The libraries may behave differently at every request, so an event pairs a request
with the environment it is handled in. Three results about whole runs: when the
counter of active pipelines is exact, what abort leaves of a start, and the order of
the calls on each backend object.
-/
namespace ProviderRuns

open Interfaces ProviderHandlers GuardedRuns FiniteCounts SessionLanguages

variable {β : Type}

abbrev Event (β : Type) := Environment β × Request

def next (s : Provider β) (e : Event β) : Provider β := (process e.1 s e.2).provider

/-! ## The counter of active pipelines -/

def activeCount (s : Provider β) : ℕ := countEntries (fun st => st.active = true) s.pipelines

def Balanced (s : Provider β) : Prop := s.numActivePipelines.toNat = activeCount s

def NoneActive (s : Provider β) : Prop :=
  ∀ name st, s.pipelines.lookup name = some st → st.active = false

/-- The counter is the number of registered active pipelines, and `leave` goes ahead
exactly when there is none. -/
def CounterExact (s : Provider β) : Prop :=
  s.numActivePipelines.toNat = activeCount s ∧ (s.numActivePipelines = 0 ↔ NoneActive s)

theorem activeCount_eq_zero (s : Provider β) : activeCount s = 0 ↔ NoneActive s := by
  unfold activeCount NoneActive
  rw [countEntries_eq_zero]
  simp

theorem counterExact_iff_balanced (s : Provider β) : CounterExact s ↔ Balanced s := by
  refine ⟨fun h => h.1, fun h => ⟨h, ?_⟩⟩
  rw [← activeCount_eq_zero, ← h, ← UInt64.toNat_inj]
  rfl

section Counting

variable {s : Provider β} {name : String} {st st' : PipelineState β}

theorem activeCount_setState (st' : PipelineState β) (hl : s.pipelines.lookup name = some st) :
    activeCount (s.setState name st') + (if st.active = true then 1 else 0) =
      activeCount s + (if st'.active = true then 1 else 0) := by
  have h : activeCount (s.setState name st') + _ = activeCount s + _ :=
    countEntries_insert (fun st => st.active = true) s.pipelines name st'
  simpa [hl] using h

theorem activeCount_setState_same (st' : PipelineState β) (hl : s.pipelines.lookup name = some st)
    (ha : st'.active = st.active) : activeCount (s.setState name st') = activeCount s := by
  have h := activeCount_setState st' hl
  rw [ha] at h
  omega

theorem deactivate_balanced (h : Balanced s) (hl : s.pipelines.lookup name = some st)
    (ha : st.active = true) : Balanced (s.deactivate name st') := by
  have hc := activeCount_setState { st' with active := false } hl
  simp only [ha, if_true, Bool.false_eq_true, if_false] at hc
  have hp : 0 < s.numActivePipelines.toNat := by
    rw [h]
    omega
  unfold Balanced Provider.deactivate
  rw [toNat_sub_one hp, h]
  change _ = activeCount (s.setState name _)
  omega

theorem quiet_balanced {t : Provider β} {cs} (h : Balanced s) (q : Quiet s t cs) :
    Balanced t := by
  cases q with
  | unchanged => exact h
  | @destroyed name st ok hl ha =>
    have hc := countEntries_erase (fun st => st.active = true) s.pipelines name
    have hn : ¬ ∃ w ∈ s.pipelines.lookup name, w.active = true := by simp [hl, ha]
    rw [if_neg hn] at hc
    exact h.trans hc.symm
  | @startFailed name st i b hl ha =>
    exact h.trans (activeCount_setState_same (st.setBackend b) hl rfl).symm
  | @used name st b cs hl ha hc =>
    exact h.trans (activeCount_setState_same (st.setBackend b) hl rfl).symm
  | cleaned b cs hl ha hc => exact deactivate_balanced h hl ha
  | aborted b hl ha => exact deactivate_balanced h hl ha
  | left h0 =>
    change s.numActivePipelines.toNat = countEntries _ ∅
    rw [h0, countEntries_empty]
    rfl

theorem register_balanced (h : Balanced s) (name : String) (b : β) :
    Balanced (s.register name b) ↔ ∀ st, s.pipelines.lookup name = some st → st.active = false := by
  have hc : activeCount (s.register name b) + _ = activeCount s + _ :=
    countEntries_insert (fun st => st.active = true) s.pipelines name
      { pipeline := ⟨s.nextBackend, b⟩ }
  simp only [Bool.false_eq_true, if_false, Nat.add_zero] at hc
  change s.numActivePipelines.toNat = activeCount (s.register name b) ↔ _
  rw [h, ← hc]
  cases hl : s.pipelines.lookup name with
  | none => simp
  | some st => cases ha : st.active <;> simp [ha]

theorem activate_balanced (h : Balanced s) (hl : s.pipelines.lookup name = some st)
    (ha : st.active = false) (b : β) (i : UInt64) :
    Balanced (s.activate name (st.setBackend b) i) ↔ s.numActivePipelines.toNat + 1 < 2 ^ 64 := by
  have hc := activeCount_setState { st.setBackend b with iteration := i, active := true } hl
  simp only [ha, Bool.false_eq_true, if_false, if_true] at hc
  have hlt := s.numActivePipelines.toNat_lt
  change (s.numActivePipelines + 1).toNat = activeCount (s.setState name _) ↔ _
  rw [toNat_add_one]
  unfold Balanced at h
  omega

end Counting

/-- No pipeline is created under the name of a registered active one, and the unsigned
counter has room for the pipeline a start activates. -/
def CounterGuard (s : Provider β) (e : Event β) : Prop :=
  match e.2 with
  | .createPipeline token name type config library =>
    CreateAccepted e.1 s token type config library →
      ∀ st, s.pipelines.lookup name = some st → st.active = false
  | .start groupHash name i =>
    StartAccepted e.1 s groupHash name i → s.numActivePipelines.toNat + 1 < 2 ^ 64
  | _ => True

theorem next_balanced_iff {s : Provider β} (h : Balanced s) (e : Event β) :
    Balanced (next s e) ↔ CounterGuard s e := by
  obtain ⟨env, r⟩ := e
  by_cases hc : ∃ token name type config library,
      r = .createPipeline token name type config library ∧
        CreateAccepted env s token type config library
  · obtain ⟨token, name, type, config, library, rfl, hacc⟩ := hc
    obtain ⟨b, hb⟩ := createPipeline_accepted name hacc
    simp only [next, process, hb, respond, CounterGuard, hacc, forall_const]
    exact register_balanced h name b
  by_cases hs : ∃ groupHash name i, r = .start groupHash name i ∧
      StartAccepted env s groupHash name i
  · obtain ⟨groupHash, name, i, rfl, hacc⟩ := hs
    obtain ⟨st, r, b, hl, ha, -, -, he⟩ := start_accepted hacc
    simp only [next, process, he, CounterGuard, hacc, forall_const]
    exact activate_balanced h hl ha b i
  · have hq := process_quiet env s r
      (fun token name type config library hr h => hc ⟨token, name, type, config, library, hr, h⟩)
      (fun groupHash name i hr h => hs ⟨groupHash, name, i, hr, h⟩)
    refine iff_of_true (quiet_balanced h hq) ?_
    cases r with
    | createPipeline token name type config library =>
      exact fun hacc => (hc ⟨token, name, type, config, library, rfl, hacc⟩).elim
    | start groupHash name i => exact fun hacc => (hs ⟨groupHash, name, i, rfl, hacc⟩).elim
    | _ => trivial

theorem initial_balanced (token : String) (groupHash : UInt64) (addresses : List (UInt64 × NaAddr)) :
    Balanced (initial token groupHash addresses : Provider β) :=
  (countEntries_empty _).symm

/-- The counter is exact in every state of a run exactly when every request of the run
meets the guard. -/
theorem counter_exact_iff_guarded (token : String) (groupHash : UInt64)
    (addresses : List (UInt64 × NaAddr)) (events : List (Event β)) :
    let s := initial token groupHash addresses
    Always CounterExact s (path next s events) ↔ Guarded CounterGuard s (path next s events) := by
  intro s
  refine always_iff_guarded ?_ (path_run next s events)
    ((counterExact_iff_balanced s).mpr (initial_balanced token groupHash addresses))
  rintro s e t hs rfl
  rw [counterExact_iff_balanced] at hs ⊢
  exact next_balanced_iff hs e

/-- Every library call succeeds. -/
def acceptingEnvironment : Environment Unit where
  backend :=
    { updateMonaAddresses := fun b _ => b
      start := fun b _ => ({}, b)
      abort := fun b _ => b
      stage := fun b _ _ => ({}, b)
      execute := fun b _ => ({}, b)
      cleanup := fun b _ => ({}, b)
      destroy := fun b => ({}, b) }
  parse := fun _ => .ok .null
  dlopen := fun _ => none
  createFn := fun _ => some fun _ => .backend ()

/-- A second creation under the name of an active pipeline leaves the counter at 1 with
no active pipeline. -/
theorem counter_inexact_after_recreation :
    ¬ ∀ (token : String) (groupHash : UInt64) (addresses : List (UInt64 × NaAddr))
      (events : List (Event Unit)),
      Always CounterExact (initial token groupHash addresses)
        (path next (initial token groupHash addresses) events) := by
  intro h
  have hl := (h "" 0 [] [(acceptingEnvironment, .createPipeline "" "p" "dummy" "" ""),
    (acceptingEnvironment, .start 0 "p" 1),
    (acceptingEnvironment, .createPipeline "" "p" "dummy" "" "")]).last.1
  revert hl
  decide

/-! ## What abort leaves of a start -/

/-- A client that knows the group may start iteration `i`. -/
def Accepts (env : Environment β) (s : Provider β) (name : String) (i : UInt64) : Prop :=
  (start env s s.groupHash name i).succeeded

instance (env : Environment β) (s : Provider β) (name : String) (i : UInt64) :
    Decidable (Accepts env s name i) :=
  inferInstanceAs (Decidable (Outcome.succeeded _))

section Aborted

variable {env : Environment β} {s : Provider β} {name : String} {st : PipelineState β}
  {i : UInt64}

/-- Where the backend class never refuses, the stored iteration decides. -/
theorem accepts_iff (hok : ∀ b j, (env.backend.start b j).1.success = true)
    (hl : s.pipelines.lookup name = some st) (ha : st.active = false) (j : UInt64) :
    Accepts env s name j ↔ st.iteration.toNat = 0 ∨ st.iteration.toNat < j.toNat := by
  have h0 : st.iteration.toNat = 0 ↔ st.iteration = 0 := by
    rw [← UInt64.toNat_inj]
    rfl
  rw [h0]
  unfold Accepts
  rw [start_succeeded]
  constructor
  · rintro ⟨-, st', hl', -, hi, -⟩
    obtain rfl : st' = st := Option.some.inj (hl'.symm.trans hl)
    exact hi
  · intro hi
    exact ⟨rfl, st, hl, ha, hi, hok _ _⟩

/-- What is registered under a name after a start and an abort of the same iteration. -/
theorem lookup_abort_start {e : Environment β} (hl : s.pipelines.lookup name = some st)
    (hacc : Accepts env s name i) :
    ∃ b, (abort e (start env s s.groupHash name i).provider name i).provider.pipelines.lookup name =
      some ⟨b, false, i - 1⟩ := by
  obtain ⟨st', r, b, hl', -, -, -, he⟩ := start_accepted (start_succeeded.mp hacc)
  obtain rfl : st' = st := Option.some.inj (hl'.symm.trans hl)
  rw [he]
  simp [abort, onActive, Provider.activate, Provider.deactivate, Provider.setState,
    PipelineState.setBackend]

theorem accepts_abort_start {e e' : Environment β}
    (hok : ∀ b j, (env.backend.start b j).1.success = true)
    (hl : s.pipelines.lookup name = some st) (hacc : Accepts e s name i) (j : UInt64) :
    Accepts env (abort e' (start e s s.groupHash name i).provider name i).provider name j ↔
      (i - 1).toNat = 0 ∨ (i - 1).toNat < j.toNat := by
  obtain ⟨b, hb⟩ := lookup_abort_start (e := e') hl hacc
  exact accepts_iff hok hb rfl j

/-- The iteration that was aborted can be started again unless it is 0, where the
subtraction leaves the largest iteration of all. -/
theorem restart_accepted_iff {e e' : Environment β}
    (hok : ∀ b j, (env.backend.start b j).1.success = true)
    (hl : s.pipelines.lookup name = some st) (hacc : Accepts e s name i) :
    Accepts env (abort e' (start e s s.groupHash name i).provider name i).provider name i ↔
      i ≠ 0 := by
  rw [accepts_abort_start hok hl hacc]
  constructor
  · rintro h rfl
    revert h
    decide
  · intro hi
    rw [toNat_pred hi]
    omega

/-- Start followed by abort changes which iterations are accepted unless the iteration
is the successor of the stored one. -/
theorem abort_undoes_start_iff {e e' : Environment β}
    (hok : ∀ b j, (env.backend.start b j).1.success = true)
    (hl : s.pipelines.lookup name = some st) (ha : st.active = false)
    (hacc : Accepts e s name i) :
    (∀ j, Accepts env (abort e' (start e s s.groupHash name i).provider name i).provider name j ↔
      Accepts env s name j) ↔ i.toNat = st.iteration.toNat + 1 := by
  have hi : st.iteration.toNat = 0 ∨ st.iteration.toNat < i.toNat := by
    obtain ⟨-, st', hl', -, hi, -⟩ := start_succeeded.mp hacc
    obtain rfl : st' = st := Option.some.inj (hl'.symm.trans hl)
    exact hi.imp (congrArg UInt64.toNat) (fun h => h)
  simp only [accepts_abort_start hok hl hacc, accepts_iff hok hl ha]
  constructor
  · intro h
    by_cases h0 : i = 0
    · -- nothing is accepted any more, not even iteration 0 on a pipeline never started
      subst h0
      have hst : st.iteration.toNat = 0 := by simpa using hi
      exact absurd ((h 0).mpr (Or.inl hst)) (by decide)
    · have hp := toNat_pred h0
      have hpos : 0 < i.toNat := Nat.pos_of_ne_zero fun h => h0 (UInt64.toNat_inj.mp h)
      have hprev := h (i - 1)
      have hzero := h 0
      rw [hp] at hprev hzero
      simp only [UInt64.toNat_zero] at hzero
      omega
  · intro hsucc j
    have h0 : i ≠ 0 := by
      rintro rfl
      simp at hsucc
    rw [toNat_pred h0, hsucc, Nat.add_sub_cancel]

end Aborted

/-- A provider with one pipeline that has never been started. -/
def freshProvider : Provider Unit :=
  next (initial "" 0 []) (acceptingEnvironment, .createPipeline "" "p" "dummy" "" "")

theorem abort_undoes_first_start :
    let s' := (abort acceptingEnvironment (start acceptingEnvironment freshProvider 0 "p" 1).provider
      "p" 1).provider
    (∀ j, Accepts acceptingEnvironment s' "p" j ↔ Accepts acceptingEnvironment freshProvider "p" j) ↔
      UInt64.toNat 1 = UInt64.toNat 0 + 1 :=
  abort_undoes_start_iff (fun _ _ => rfl)
    (show freshProvider.pipelines.lookup "p" = some ⟨⟨0, ()⟩, false, 0⟩ by decide) rfl (by decide)

/-- Iteration 0 of a new pipeline is started and aborted, and no start is accepted again. -/
theorem abort_keeps_start_of_iteration_zero :
    ¬ ∀ (events : List (Event Unit)) (name : String) (st : PipelineState Unit) (i : UInt64),
      let s := events.foldl next (initial "" 0 [])
      let s' := (abort acceptingEnvironment (start acceptingEnvironment s s.groupHash name i).provider
        name i).provider
      s.pipelines.lookup name = some st → st.active = false →
        Accepts acceptingEnvironment s name i →
          ∀ j, Accepts acceptingEnvironment s' name j ↔ Accepts acceptingEnvironment s name j := by
  intro h
  have h0 := h [(acceptingEnvironment, .createPipeline "" "p" "dummy" "" "")] "p"
    ⟨⟨0, ()⟩, false, 0⟩ 0 (by decide) rfl (by decide) 0
  revert h0
  decide

/-! ## The calls on one backend object -/

/-- The provider together with all calls made so far on backend objects. -/
structure History (β : Type) where
  provider : Provider β
  calls : List (BackendId × BackendCall)

def History.next (h : History β) (e : Event β) : History β :=
  ⟨(process e.1 h.provider e.2).provider, h.calls ++ (process e.1 h.provider e.2).calls⟩

def callsOn (id : BackendId) (calls : List (BackendId × BackendCall)) : List BackendCall :=
  (calls.filter fun c => c.1 = id).map Prod.snd

@[simp] theorem callsOn_append (id : BackendId) (cs ds : List (BackendId × BackendCall)) :
    callsOn id (cs ++ ds) = callsOn id cs ++ callsOn id ds := by
  simp [callsOn]

theorem callsOn_callsOf (st : PipelineState β) (cs : List BackendCall) :
    callsOn st.pipeline.id (callsOf st cs) = cs := by
  simp [callsOn, callsOf, List.filter_map, Function.comp_def]

theorem callsOn_callsOf_ne {st : PipelineState β} {id : BackendId} (h : st.pipeline.id ≠ id)
    (cs : List BackendCall) : callsOn id (callsOf st cs) = [] := by
  simp [callsOn, callsOf, List.filter_map, Function.comp_def, h]

/-- Where the protocol of a registered backend object stands. -/
def phase (st : PipelineState β) : Phase UInt64 :=
  if st.active = true then .inside st.iteration else .between

structure Disciplined (h : History β) : Prop where
  allocated : ∀ name st, h.provider.pipelines.lookup name = some st →
    st.pipeline.id < h.provider.nextBackend
  unborn : ∀ id, h.provider.nextBackend ≤ id → callsOn id h.calls = []
  distinct : ∀ name other st st', h.provider.pipelines.lookup name = some st →
    h.provider.pipelines.lookup other = some st' → st.pipeline.id = st'.pipeline.id → name = other
  registered : ∀ name st, h.provider.pipelines.lookup name = some st →
    Follows protocol (phase st) (callsOn st.pipeline.id h.calls)
  followed : ∀ id, ∃ ph, Follows protocol ph (callsOn id h.calls)

section Discipline

variable {s t : Provider β} {calls : List (BackendId × BackendCall)} {name : String}
  {st st' : PipelineState β}

theorem lookup_insert_cases {m : Finmap fun _ : String => PipelineState β} {other : String}
    {x : PipelineState β} (h : (m.insert name st').lookup other = some x) :
    (other = name ∧ x = st') ∨ (other ≠ name ∧ m.lookup other = some x) := by
  by_cases ho : other = name
  · subst ho
    rw [Finmap.lookup_insert] at h
    exact Or.inl ⟨rfl, (Option.some.inj h).symm⟩
  · rw [Finmap.lookup_insert_of_ne _ ho] at h
    exact Or.inr ⟨ho, h⟩

theorem lookup_erase_cases {m : Finmap fun _ : String => PipelineState β} {other : String}
    {x : PipelineState β} (h : (m.erase name).lookup other = some x) :
    other ≠ name ∧ m.lookup other = some x := by
  by_cases ho : other = name
  · subst ho
    simp at h
  · rw [Finmap.lookup_erase_ne ho] at h
    exact ⟨ho, h⟩

/-- Calls on one registered object leave the words of the other objects alone. -/
theorem Disciplined.followed_append (d : Disciplined ⟨s, calls⟩)
    {ph : Phase UInt64} {cs : List BackendCall}
    (hf : Follows protocol ph (callsOn st.pipeline.id calls ++ cs)) (id : BackendId) :
    ∃ ph, Follows protocol ph (callsOn id (calls ++ callsOf st cs)) := by
  by_cases hid : st.pipeline.id = id
  · subst hid
    exact ⟨ph, by rwa [callsOn_append, callsOn_callsOf]⟩
  · obtain ⟨ph', hph⟩ := d.followed id
    exact ⟨ph', by rwa [callsOn_append, callsOn_callsOf_ne hid, List.append_nil]⟩

theorem Disciplined.unborn_append (d : Disciplined ⟨s, calls⟩)
    (hl : s.pipelines.lookup name = some st) (cs : List BackendCall) (id : BackendId)
    (hid : s.nextBackend ≤ id) : callsOn id (calls ++ callsOf st cs) = [] := by
  have hlt : st.pipeline.id < s.nextBackend := d.allocated name st hl
  have hne : st.pipeline.id ≠ id := Nat.ne_of_lt (Nat.lt_of_lt_of_le hlt hid)
  rw [callsOn_append, callsOn_callsOf_ne hne, List.append_nil]
  exact d.unborn id hid

/-- The handlers that call a backend and keep it registered. -/
theorem Disciplined.setState (d : Disciplined ⟨s, calls⟩)
    (hl : s.pipelines.lookup name = some st) (cs : List BackendCall)
    (hp : t.pipelines = s.pipelines.insert name st') (hn : t.nextBackend = s.nextBackend)
    (hid : st'.pipeline.id = st.pipeline.id)
    (hf : Follows protocol (phase st') (callsOn st.pipeline.id calls ++ cs)) :
    Disciplined ⟨t, calls ++ callsOf st cs⟩ where
  allocated other x hx := by
    rw [hp] at hx
    rw [hn]
    rcases lookup_insert_cases hx with ⟨-, rfl⟩ | ⟨-, hold⟩
    · rw [hid]
      exact d.allocated name st hl
    · exact d.allocated other x hold
  unborn id h := d.unborn_append hl cs id (hn ▸ h)
  distinct other other' x x' hx hx' he := by
    rw [hp] at hx hx'
    rcases lookup_insert_cases hx with ⟨rfl, rfl⟩ | ⟨-, hold⟩ <;>
      rcases lookup_insert_cases hx' with ⟨rfl, rfl⟩ | ⟨-, hold'⟩
    · rfl
    · exact d.distinct _ _ _ _ hl hold' (hid.symm.trans he)
    · exact d.distinct _ _ _ _ hold hl (he.trans hid)
    · exact d.distinct _ _ _ _ hold hold' he
  registered other x hx := by
    rw [hp] at hx
    rcases lookup_insert_cases hx with ⟨-, rfl⟩ | ⟨ho, hold⟩
    · rwa [hid, callsOn_append, callsOn_callsOf]
    · have hne : st.pipeline.id ≠ x.pipeline.id :=
        fun he => ho (d.distinct _ _ _ _ hold hl he.symm)
      rw [callsOn_append, callsOn_callsOf_ne hne, List.append_nil]
      exact d.registered other x hold
  followed := d.followed_append hf

theorem Disciplined.destroy (d : Disciplined ⟨s, calls⟩)
    (hl : s.pipelines.lookup name = some st) (ha : st.active = false) (ok : Bool) :
    Disciplined ⟨{ s with pipelines := s.pipelines.erase name },
      calls ++ callsOf st [.destroy ok]⟩ where
  allocated other x hx := d.allocated other x (lookup_erase_cases hx).2
  unborn := d.unborn_append hl _
  distinct other other' x x' hx hx' he :=
    d.distinct _ _ _ _ (lookup_erase_cases hx).2 (lookup_erase_cases hx').2 he
  registered other x hx := by
    obtain ⟨ho, hx⟩ := lookup_erase_cases hx
    have hne : st.pipeline.id ≠ x.pipeline.id := fun he => ho (d.distinct _ _ _ _ hx hl he.symm)
    rw [callsOn_append, callsOn_callsOf_ne hne, List.append_nil]
    exact d.registered other x hx
  followed := by
    have hf := d.registered name st hl
    rw [phase, ha] at hf
    exact d.followed_append (hf.last ⟨ok, rfl⟩)

theorem Disciplined.register (d : Disciplined ⟨s, calls⟩) (name : String) (b : β) :
    Disciplined ⟨s.register name b, calls⟩ where
  allocated other x hx := by
    rcases lookup_insert_cases hx with ⟨-, rfl⟩ | ⟨-, hold⟩
    · exact Nat.lt_succ_self _
    · exact Nat.lt_succ_of_lt (d.allocated other x hold)
  unborn id h := d.unborn id (Nat.le_of_succ_le h)
  distinct other other' x x' hx hx' he := by
    rcases lookup_insert_cases hx with ⟨rfl, rfl⟩ | ⟨-, hold⟩ <;>
      rcases lookup_insert_cases hx' with ⟨rfl, rfl⟩ | ⟨-, hold'⟩
    · rfl
    · exact absurd he (Nat.ne_of_gt (d.allocated _ _ hold'))
    · exact absurd he (Nat.ne_of_lt (d.allocated _ _ hold))
    · exact d.distinct _ _ _ _ hold hold' he
  registered other x hx := by
    rcases lookup_insert_cases hx with ⟨-, rfl⟩ | ⟨-, hold⟩
    · have hnew : callsOn s.nextBackend calls = [] := d.unborn _ (Nat.le_refl _)
      change Follows protocol .between (callsOn s.nextBackend calls)
      rw [hnew]
      exact follows_nil
    · exact d.registered other x hold
  followed := d.followed

theorem Disciplined.phase_active (d : Disciplined ⟨s, calls⟩)
    (hl : s.pipelines.lookup name = some st) (ha : st.active = true) :
    Follows protocol (.inside st.iteration) (callsOn st.pipeline.id calls) := by
  simpa [phase, ha] using d.registered name st hl

theorem Disciplined.phase_inactive (d : Disciplined ⟨s, calls⟩)
    (hl : s.pipelines.lookup name = some st) (ha : st.active = false) :
    Follows protocol .between (callsOn st.pipeline.id calls) := by
  simpa [phase, ha] using d.registered name st hl

theorem quiet_disciplined {cs : List (BackendId × BackendCall)} (d : Disciplined ⟨s, calls⟩)
    (q : Quiet s t cs) : Disciplined ⟨t, calls ++ cs⟩ := by
  cases q with
  | unchanged => simpa using d
  | destroyed ok hl ha => exact d.destroy hl ha ok
  | @startFailed name st i b hl ha =>
    refine d.setState hl _ rfl rfl rfl ?_
    simpa [phase, PipelineState.setBackend, ha] using (d.phase_inactive hl ha).single (i := i) rfl
  | @used name st b cs hl ha hc =>
    refine d.setState hl cs rfl rfl rfl ?_
    simpa [phase, PipelineState.setBackend, ha] using (d.phase_active hl ha).inners hc
  | @cleaned name st b cs hl ha hc =>
    refine d.setState hl _ rfl rfl rfl ?_
    have h := ((d.phase_active hl ha).inners hc).closing
      (a := .cleanup st.iteration true) (Or.inl rfl)
    simpa [phase] using h
  | @aborted name st b hl ha =>
    refine d.setState hl _ rfl rfl rfl ?_
    have h := (d.phase_active hl ha).closing (a := .abort st.iteration) (Or.inr rfl)
    simpa [phase] using h
  | left h0 =>
    rw [List.append_nil]
    exact ⟨by simp, d.unborn, by simp, by simp, d.followed⟩

theorem effect_disciplined {cs : List (BackendId × BackendCall)} (d : Disciplined ⟨s, calls⟩)
    (e : Effect s t cs) : Disciplined ⟨t, calls ++ cs⟩ := by
  cases e with
  | quiet q => exact quiet_disciplined d q
  | registered name b => simpa using d.register name b
  | @started name st i b hl ha hi =>
    refine d.setState hl _ rfl rfl rfl ?_
    simpa [phase] using (d.phase_inactive hl ha).opening (i := i) rfl

end Discipline

theorem run_disciplined (token : String) (groupHash : UInt64) (addresses : List (UInt64 × NaAddr))
    (events : List (Event β)) :
    Disciplined (events.foldl History.next ⟨initial token groupHash addresses, []⟩) := by
  apply foldl_invariant
  · intro h e d
    exact effect_disciplined d (process_effect e.1 h.provider e.2)
  · exact ⟨by simp [initial], fun _ _ => rfl, by simp [initial], by simp [initial],
      fun _ => ⟨.between, follows_nil⟩⟩

/-- In every run the calls on each backend object are a prefix of a word of the protocol. -/
theorem backend_calls_prefix_of_protocol (token : String) (groupHash : UInt64)
    (addresses : List (UInt64 × NaAddr)) (events : List (Event β)) (id : BackendId) :
    ∃ rest, callsOn id (events.foldl History.next ⟨initial token groupHash addresses, []⟩).calls ++
      rest ∈ language protocol := by
  obtain ⟨ph, h⟩ := (run_disciplined token groupHash addresses events).followed id
  exact h.extends protocol_closing_nonempty protocol_last_nonempty

end ProviderRuns
