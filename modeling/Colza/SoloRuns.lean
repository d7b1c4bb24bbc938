import Colza.ProviderInterleaving

/-!
# A handler that runs alone

The suspended handlers of `ProviderInterleaving` and the handlers of `ProviderHandlers`
are two models of the same code. From a provider state that both agree on, a suspended
handler that takes its events without another one in between ends in the state that
the request leaves.
-/
namespace SoloRuns

open Interfaces ProviderInterleaving
open ProviderHandlers (Provider PipelineState Environment Request process)

variable {β : Type} {n : ℕ} {c : Config} {s : State n} {p p' : Provider β} {k : Fin n}

def flagsOf (st : PipelineState β) : PipelineFlags := ⟨st.active, st.iteration⟩

structure Agrees (c : Config) (s : State n) (p : Provider β) : Prop where
  token : c.token = p.token
  groupHash : c.groupHash = p.groupHash
  counter : s.numActivePipelines = p.numActivePipelines
  leaves : s.groupLeaves = p.groupLeaves
  pipelines : ∀ name, s.find name = (p.pipelines.lookup name).map flagsOf

/-- The request a handler is called with; `args` is what `stage` hands on. -/
def requestOf (args : StageArgs) : Handler → Request
  | .start groupHash name i => .start groupHash name i
  | .stage name i => .stage name i args
  | .execute name i auto => .execute name i auto
  | .cleanup name i => .cleanup name i
  | .abort name i => .abort name i
  | .destroyPipeline token name => .destroyPipeline token name
  | .leave => .leave

/-- Some events lead to where handler `k` has ended, or waits, in agreement with `p`. -/
def Finishes (c : Config) (s : State n) (k : Fin n) (p : Provider β) : Prop :=
  ∃ events : List (Event n), Agrees c (events.foldl (next c) s) p ∧
    (events.foldl (next c) s).lock = none ∧
    ((events.foldl (next c) s).pc k = .done ∨ (events.foldl (next c) s).pc k = .waiting)

theorem Finishes.cons {t : State n} (e : Event n) (he : step c s e = some t)
    (h : Finishes c t k p) : Finishes c s k p := by
  obtain ⟨events, h⟩ := h
  refine ⟨e :: events, ?_⟩
  rwa [List.foldl_cons, next_of_step he]

theorem Finishes.nil (h : Agrees c s p) (hlock : s.lock = none)
    (hk : s.pc k = .done ∨ s.pc k = .waiting) : Finishes c s k p :=
  ⟨[], h, hlock, hk⟩

theorem Agrees.goto (h : Agrees c s p) (k : Fin n) (q : Pc) : Agrees c (s.goto k q) p :=
  ⟨h.token, h.groupHash, h.counter, h.leaves, h.pipelines⟩

theorem Agrees.notifyAll (h : Agrees c s p) : Agrees c s.notifyAll p :=
  ⟨h.token, h.groupHash, h.counter, h.leaves, h.pipelines⟩

theorem Finishes.goto_done (h : Agrees c s p) (hlock : s.lock = none) :
    Finishes c (s.goto k .done) k p :=
  .nil (h.goto k .done) hlock (Or.inl (goto_pc_self s k .done))

theorem Finishes.notifying (h : Agrees c s p) (hlock : s.lock = none) :
    Finishes c (s.goto k .notifying) k p := by
  refine .cons (.notify k) (if_pos (goto_pc_self s k .notifying)) ?_
  exact .goto_done (h.goto k .notifying).notifyAll hlock

section Found

variable {name : String} {st : PipelineState β}

theorem Agrees.missing (h : Agrees c s p) (hl : p.pipelines.lookup name = none) :
    s.find name = none := by
  rw [h.pipelines, hl]
  rfl

theorem Agrees.found (h : Agrees c s p) (hl : p.pipelines.lookup name = some st) :
    s.find name = some (flagsOf st) := by
  rw [h.pipelines, hl]
  rfl

theorem Agrees.registered (h : Agrees c s p) (hl : p.pipelines.lookup name = some st) :
    name ∈ s.registered ∧ s.state name = flagsOf st :=
  find_some (h.found hl)

theorem Agrees.setState (h : Agrees c s p) (hl : p.pipelines.lookup name = some st)
    (st' : PipelineState β) :
    Agrees c (s.setState name (flagsOf st')) (p.setState name st') where
  token := h.token
  groupHash := h.groupHash
  counter := h.counter
  leaves := h.leaves
  pipelines other := by
    have hr := (h.registered hl).1
    change _ = ((p.pipelines.insert name st').lookup other).map flagsOf
    by_cases ho : other = name
    · subst ho
      rw [Finmap.lookup_insert]
      simp [State.find, State.setState, hr]
    · rw [Finmap.lookup_insert_of_ne _ ho, ← h.pipelines other]
      simp [State.find, State.setState, ho]

/-- What the backend object keeps to itself does not matter. -/
theorem Agrees.setBackend (h : Agrees c s p) (hl : p.pipelines.lookup name = some st) (b : β) :
    Agrees c s (p.setState name (st.setBackend b)) where
  token := h.token
  groupHash := h.groupHash
  counter := h.counter
  leaves := h.leaves
  pipelines other := by
    change _ = ((p.pipelines.insert name (st.setBackend b)).lookup other).map flagsOf
    by_cases ho : other = name
    · subst ho
      rw [Finmap.lookup_insert, h.found hl]
      rfl
    · rw [Finmap.lookup_insert_of_ne _ ho, h.pipelines other]

theorem Agrees.deactivate (h : Agrees c s p) (hl : p.pipelines.lookup name = some st)
    (k : Fin n) (st' : PipelineState β) :
    Agrees c (s.deactivate k name st'.iteration) (p.deactivate name st') where
  token := h.token
  groupHash := h.groupHash
  counter := congrArg (· - 1) h.counter
  leaves := h.leaves
  pipelines := (h.setState hl { st' with active := false }).pipelines

/-- A refused handler responds and leaves the provider alone. -/
theorem Finishes.refused {h : Handler} (ha : Agrees c s p) (hlock : s.lock = none)
    (hk : s.pc k = .arrived h) (he : s.enter c k h = some (s.goto k .done)) :
    Finishes c s k p := by
  refine .cons (.acquire k) ?_ (.goto_done ha hlock)
  simpa only [step, State.acquire, hk] using he

/-- The checks that `stage`, `execute`, `cleanup` and `abort` share. -/
theorem onActive_solo {h : Handler} {i : UInt64} {call : Call}
    {body : PipelineState β → ProviderHandlers.Outcome β} (ha : Agrees c s p)
    (hlock : s.lock = none) (hk : s.pc k = .arrived h)
    (he : s.enter c k h = some (s.onActive k name i call))
    (hbody : ∀ st, p.pipelines.lookup name = some st → st.active = true → st.iteration = i →
      Finishes c (s.goto k (.inBackend name call)) k (body st).provider) :
    Finishes c s k (ProviderHandlers.onActive p name i body).provider := by
  have hstep : step c s (.acquire k) = some (s.onActive k name i call) := by
    simpa only [step, State.acquire, hk] using he
  refine .cons (.acquire k) hstep ?_
  unfold State.onActive ProviderHandlers.onActive
  cases hl : p.pipelines.lookup name with
  | none =>
    rw [ha.missing hl]
    exact .goto_done ha hlock
  | some st =>
    rw [ha.found hl]
    by_cases hact : st.active = true
    · by_cases hi : st.iteration = i
      · simpa [flagsOf, hact, hi] using hbody st hl hact hi
      · simpa [flagsOf, hact, hi] using Finishes.goto_done ha hlock
    · simpa [flagsOf, hact] using Finishes.goto_done ha hlock

/-- The critical section that closes an iteration, and the notification after it. -/
theorem Finishes.deactivate (ha : Agrees c s p) (hlock : s.lock = none)
    (hl : p.pipelines.lookup name = some st) (b : β) :
    Finishes c (s.goto k (.cleaned name)) k (p.deactivate name (st.setBackend b)) := by
  have hi : (s.state name).iteration = st.iteration := by rw [(ha.registered hl).2]; rfl
  refine .cons (.acquire k) (t := (s.goto k (.cleaned name)).deactivate k name st.iteration) ?_ ?_
  · simp [step, State.acquire, hlock, hi]
  · have hd := (ha.goto k (.cleaned name)).deactivate hl k (st.setBackend b)
    refine .cons (.notify k) (if_pos (goto_pc_self _ k .notifying)) ?_
    exact .goto_done hd.notifyAll hlock

theorem stage_solo (env : Environment β) (args : StageArgs) {i : UInt64} (ha : Agrees c s p)
    (hlock : s.lock = none) (hk : s.pc k = .arrived (.stage name i)) :
    Finishes c s k (ProviderHandlers.stage env p name i args).provider := by
  refine onActive_solo ha hlock hk (if_neg (not_not.mpr hlock)) fun st hl hact hi => ?_
  refine .cons (.returns k true) (t := (s.goto k (.inBackend name (.stage i))).goto k .done) ?_ ?_
  · simp [step, State.returns]
  · exact .goto_done ((ha.goto k _).setBackend hl _) hlock

theorem cleanup_solo (env : Environment β) {i : UInt64} (ha : Agrees c s p)
    (hlock : s.lock = none) (hk : s.pc k = .arrived (.cleanup name i)) :
    Finishes c s k (ProviderHandlers.cleanup env p name i).provider := by
  refine onActive_solo ha hlock hk (if_neg (not_not.mpr hlock)) fun st hl hact hi => ?_
  rcases env.backend.cleanup st.pipeline.state i with ⟨result, b⟩
  cases hr : result.success with
  | true =>
    simp only [hr, if_true]
    refine .cons (.returns k true)
      (t := (s.goto k (.inBackend name (.cleanup i false))).goto k (.cleaned name)) ?_ ?_
    · simp [step, State.returns]
    · exact .deactivate (ha.goto k _) hlock hl b
  | false =>
    simp only [hr, Bool.false_eq_true, if_false]
    refine .cons (.returns k false)
      (t := (s.goto k (.inBackend name (.cleanup i false))).goto k .done) ?_ ?_
    · simp [step, State.returns]
    · exact .goto_done ((ha.goto k _).setBackend hl _) hlock

theorem execute_solo (env : Environment β) {i : UInt64} {auto : Bool} (ha : Agrees c s p)
    (hlock : s.lock = none) (hk : s.pc k = .arrived (.execute name i auto)) :
    Finishes c s k (ProviderHandlers.execute env p name i auto).provider := by
  refine onActive_solo ha hlock hk (if_neg (not_not.mpr hlock)) fun st hl hact hi => ?_
  rcases env.backend.execute st.pipeline.state i with ⟨result, b⟩
  cases h : result.success && auto with
  | false =>
    simp only [h, Bool.false_eq_true, if_false]
    refine .cons (.returns k result.success)
      (t := (s.goto k (.inBackend name (.execute i auto))).goto k .done) ?_ ?_
    · simp [step, State.returns, h]
    · exact .goto_done ((ha.goto k _).setBackend hl _) hlock
  | true =>
    rcases hb : env.backend.cleanup b i with ⟨cleaned, b'⟩
    simp only [h, hb, if_true]
    refine .cons (.returns k result.success)
      (t := (s.goto k (.inBackend name (.execute i auto))).goto k
        (.inBackend name (.cleanup i true))) ?_ ?_
    · simp [step, State.returns, h]
    have ha' := (ha.goto k (.inBackend name (.execute i auto))).goto k
      (.inBackend name (.cleanup i true))
    cases hc : cleaned.success with
    | true =>
      simp only [if_true]
      refine .cons (.returns k true) ?_ (.deactivate ha' hlock hl b')
      simp [step, State.returns]
    | false =>
      simp only [Bool.false_eq_true, if_false]
      refine .cons (.returns k false) ?_ (.notifying (ha'.setBackend hl b') hlock)
      simp [step, State.returns]

theorem abort_solo (env : Environment β) {i : UInt64} (ha : Agrees c s p)
    (hlock : s.lock = none) (hk : s.pc k = .arrived (.abort name i)) :
    Finishes c s k (ProviderHandlers.abort env p name i).provider := by
  refine onActive_solo ha hlock hk (if_neg (not_not.mpr hlock)) fun st hl hact hi => ?_
  have hs := (ha.registered hl).2
  refine .cons (.returns k true)
    (t := (s.goto k (.inBackend name (.abort i))).goto k (.aborted name)) ?_ ?_
  · simp [step, State.returns]
  have ha' := (ha.goto k (.inBackend name (.abort i))).goto k (.aborted name)
  refine .cons (.acquire k)
    (t := ((s.goto k (.inBackend name (.abort i))).goto k (.aborted name)).deactivate k name
      (st.iteration - 1)) ?_ ?_
  · simp [step, State.acquire, hlock, hs, flagsOf]
  · have hd := ha'.deactivate hl k
      { st.setBackend (env.backend.abort st.pipeline.state i) with iteration := st.iteration - 1 }
    refine .cons (.notify k) (if_pos (goto_pc_self _ k .notifying)) ?_
    exact .goto_done hd.notifyAll hlock

theorem Agrees.erase (h : Agrees c s p) (k : Fin n) (name : String) :
    Agrees c { s.goto k .done with lock := none, registered := s.registered.erase name }
      { p with pipelines := p.pipelines.erase name } where
  token := h.token
  groupHash := h.groupHash
  counter := h.counter
  leaves := h.leaves
  pipelines other := by
    have hp := h.pipelines other
    by_cases ho : other = name
    · subst ho
      simp [State.find]
    · rw [Finmap.lookup_erase_ne ho, ← hp]
      simp [State.find, ho]

theorem destroyPipeline_solo (env : Environment β) {token : String} (ha : Agrees c s p)
    (hlock : s.lock = none) (hk : s.pc k = .arrived (.destroyPipeline token name)) :
    Finishes c s k (ProviderHandlers.destroyPipeline env p token name).provider := by
  have ht : c.Refuses token ↔ ProviderHandlers.badToken p token := by
    unfold Config.Refuses ProviderHandlers.badToken
    rw [ha.token]
  unfold ProviderHandlers.destroyPipeline
  by_cases hr : ProviderHandlers.badToken p token
  · rw [if_pos hr]
    exact .refused ha hlock hk (by simp [State.enter, ht, hr])
  rw [if_neg hr]
  cases hl : p.pipelines.lookup name with
  | none => exact .refused ha hlock hk (by simp [State.enter, ht, hr, hlock, ha.missing hl])
  | some st =>
    by_cases hact : st.active = true
    · simp only [hact, if_true]
      exact .refused ha hlock hk (by simp [State.enter, ht, hr, hlock, ha.found hl, flagsOf, hact])
    · simp only [hact, Bool.false_eq_true, if_false]
      refine .cons (.acquire k) (t := { s.goto k (.inBackend name .destroy) with
        lock := some k, destroyed := insert name s.destroyed }) ?_ ?_
      · simp [step, State.acquire, State.enter, hk, ht, hr, hlock, ha.found hl, flagsOf, hact]
      have ha' : Agrees c { s.goto k (.inBackend name .destroy) with
          lock := some k, destroyed := insert name s.destroyed } p :=
        ⟨ha.token, ha.groupHash, ha.counter, ha.leaves, ha.pipelines⟩
      refine .cons (.returns k true) ?_
        (.nil (ha'.erase k name) rfl (Or.inl (goto_pc_self _ k .done)))
      simp [step, State.returns]

/-- The increment of a start, and `Backend::start` as far as its return. -/
theorem Finishes.starting {i : UInt64} (hlock : s.lock = none) (success : Bool) {t : State n}
    (hs : State.returns { s.goto k (.inBackend name (.start i)) with
      numActivePipelines := s.numActivePipelines + 1 } k success = some t)
    (h : Finishes c t k p) : Finishes c (s.goto k (.starting name i)) k p := by
  refine .cons (.acquire k) ?_ (.cons (.returns k success) hs h)
  simp [step, State.acquire, State.goto, hlock]

theorem started_solo {i : UInt64} (ha : Agrees c s p) (hlock : s.lock = none)
    (hl : p.pipelines.lookup name = some st) (b : β) :
    Finishes c (s.goto k (.starting name i)) k (p.activate name (st.setBackend b) i) := by
  let u := { s.goto k (.inBackend name (.start i)) with
    numActivePipelines := s.numActivePipelines + 1 }
  have hst := ha.setState hl { st.setBackend b with iteration := i, active := true }
  have hu : u.returns k true = some ((u.setState name ⟨true, i⟩).goto k .done) := by
    simp [u, State.returns]
  refine .starting hlock true hu (.nil ?_ hlock (Or.inl (goto_pc_self _ k .done)))
  exact ⟨ha.token, ha.groupHash, congrArg (· + 1) ha.counter, ha.leaves, hst.pipelines⟩

theorem startFailed_solo {i : UInt64} (ha : Agrees c s p) (hlock : s.lock = none)
    (hl : p.pipelines.lookup name = some st) (b : β) :
    Finishes c (s.goto k (.starting name i)) k (p.setState name (st.setBackend b)) := by
  let u := { s.goto k (.inBackend name (.start i)) with
    numActivePipelines := s.numActivePipelines + 1 }
  have hu : u.returns k false = some (u.goto k .startFailed) := by simp [u, State.returns]
  have hcounter : s.numActivePipelines + 1 - 1 = p.numActivePipelines := by simp [ha.counter]
  refine .starting hlock false hu ?_
  refine .cons (.acquire k) (t := { (u.goto k .startFailed).goto k .notifying with
    numActivePipelines := s.numActivePipelines + 1 - 1 }) ?_ ?_
  · simp [step, State.acquire, hlock, u]
  · refine .cons (.notify k) (if_pos (goto_pc_self _ k .notifying))
      (.nil ?_ hlock (Or.inl (goto_pc_self _ k .done)))
    exact ⟨ha.token, ha.groupHash, hcounter, ha.leaves, (ha.setBackend hl b).pipelines⟩

theorem start_solo (env : Environment β) {groupHash i : UInt64} (ha : Agrees c s p)
    (hlock : s.lock = none) (hk : s.pc k = .arrived (.start groupHash name i)) :
    Finishes c s k (ProviderHandlers.start env p groupHash name i).provider := by
  unfold ProviderHandlers.start
  by_cases hg : groupHash ≠ p.groupHash
  · rw [if_pos hg]
    exact .refused ha hlock hk (by simp [State.enter, ha.groupHash, hg])
  rw [if_neg hg]
  have hg' : groupHash = c.groupHash := (not_not.mp hg).trans ha.groupHash.symm
  cases hl : p.pipelines.lookup name with
  | none => exact .refused ha hlock hk (by simp [State.enter, hg', hlock, ha.missing hl])
  | some st =>
    by_cases hact : st.active = true
    · simp only [hact, if_true]
      exact .refused ha hlock hk (by simp [State.enter, hg', hlock, ha.found hl, flagsOf, hact])
    simp only [hact, Bool.false_eq_true, if_false]
    by_cases hi : st.iteration ≠ 0 ∧ st.iteration ≥ i
    · rw [if_pos hi]
      exact .refused ha hlock hk
        (by simp [State.enter, hg', hlock, ha.found hl, flagsOf, hact, hi.1, hi.2])
    rw [if_neg hi]
    have he : step c s (.acquire k) = some (s.goto k (.starting name i)) := by
      simp only [step, State.acquire, hk, State.enter, hg', hlock, ha.found hl, flagsOf, hact,
        ne_eq, not_true_eq_false, if_false, Bool.false_eq_true]
      rw [if_neg hi]
    refine .cons (.acquire k) he ?_
    have hc : p.numActivePipelines + 1 - 1 = p.numActivePipelines := by simp
    cases hr : (env.backend.start st.pipeline.state i).1.success with
    | true =>
      simp only [if_true]
      exact started_solo ha hlock hl _
    | false =>
      simp only [Bool.false_eq_true, if_false, hc]
      exact startFailed_solo ha hlock hl _

theorem leave_solo (ha : Agrees c s p) (hlock : s.lock = none)
    (hk : s.pc k = .arrived .leave) : Finishes c s k (ProviderHandlers.leave p).provider := by
  have he : step c s (.acquire k) = some (s.leave k) := by
    simp [step, State.acquire, State.enter, hk, hlock]
  refine .cons (.acquire k) he ?_
  unfold State.leave ProviderHandlers.leave
  by_cases h0 : p.numActivePipelines ≠ 0
  · rw [if_pos h0, if_pos (ha.counter ▸ h0)]
    exact .nil (ha.goto k .waiting) hlock (Or.inr (goto_pc_self s k .waiting))
  · rw [if_neg h0, if_neg (ha.counter ▸ h0)]
    refine .nil ⟨ha.token, ha.groupHash, ha.counter, congrArg (· + 1) ha.leaves, fun name => ?_⟩
      hlock (Or.inl (goto_pc_self s k .done))
    simp [State.find]

end Found

/-- Every handler, alone and with the lock free, does to the provider what its request does. -/
theorem solo_run_refines_request (env : Environment β) (args : StageArgs) {h : Handler}
    (ha : Agrees c s p) (hlock : s.lock = none) (hk : s.pc k = .arrived h) :
    Finishes c s k (process env p (requestOf args h)).provider := by
  cases h with
  | start groupHash name i => exact start_solo env ha hlock hk
  | stage name i => exact stage_solo env args ha hlock hk
  | execute name i auto => exact execute_solo env ha hlock hk
  | cleanup name i => exact cleanup_solo env ha hlock hk
  | abort name i => exact abort_solo env ha hlock hk
  | destroyPipeline token name => exact destroyPipeline_solo env ha hlock hk
  | leave => exact leave_solo ha hlock hk

end SoloRuns
