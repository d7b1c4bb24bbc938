import Colza.ProviderInterleaving
import Mathlib.Data.Fin.VecNotation

/-!
# Calls on a backend object that overlap its destruction or a cleanup

A handler keeps the state it found after it has released the lock. Both results say
when no call outlives the pipeline it was accepted on: no call is running on, or on its
way to, a pipeline that is being destroyed, and none is running while another handler
closes the iteration. Each condition is also necessary: a run that breaks it goes on to
break the property.
-/
namespace BackendRaces

open GuardedRuns ProviderInterleaving

variable {n : ℕ} {c : Config} {s t : State n} {e : Event n}

/-! ## The handler that holds the lock over a suspension -/

/-- The pipeline a handler is destroying. -/
def destroys : Pc → Option String
  | .inBackend name .destroy => some name
  | _ => none

structure Locked (s : State n) : Prop where
  holder : ∀ k name, destroys (s.pc k) = some name → s.lock = some k
  held : ∀ k, s.lock = some k → ∃ name, destroys (s.pc k) = some name
  pending : ∀ name ∈ s.destroyed, name ∈ s.registered → ∃ k, destroys (s.pc k) = some name

theorem destroys_eq_some {q : Pc} {name : String} (h : destroys q = some name) :
    q = .inBackend name .destroy := by
  unfold destroys at h
  split at h
  · rw [Option.some.inj h]
  · cases h

theorem hop_destroys {k : Fin n} {q : Pc} (h : Hop s e k q) :
    destroys (s.pc k) = none ∧ destroys q = none := by
  cases h with
  | @opened k h name i call hlock hk ho hr ha hi =>
    rw [hk]
    cases h <;> cases ho <;> exact ⟨rfl, rfl⟩
  | waits hlock hk h0 => rcases hk with hk | hk <;> rw [hk] <;> exact ⟨rfl, rfl⟩
  | @returned k name call success q hk hu hq =>
    rw [hk]
    rcases hq with rfl | rfl <;> cases call <;> first | exact ⟨rfl, rfl⟩ | exact hu.elim
  | refused hk => rw [hk]; exact ⟨rfl, rfl⟩
  | starting hlock hk hr ha hi => rw [hk]; exact ⟨rfl, rfl⟩
  | startFailed hk => rw [hk]; exact ⟨rfl, rfl⟩
  | autoCleanup hk => rw [hk]; exact ⟨rfl, rfl⟩
  | cleaned hk => rw [hk]; exact ⟨rfl, rfl⟩
  | aborted hk => rw [hk]; exact ⟨rfl, rfl⟩
  | woken hk => rw [hk]; exact ⟨rfl, rfl⟩

theorem goto_destroys {k : Fin n} {q : Pc} (h : destroys (s.pc k) = none ∧ destroys q = none)
    (j : Fin n) : destroys ((s.goto k q).pc j) = destroys (s.pc j) := by
  by_cases hj : j = k
  · rw [hj, goto_pc_self, h.1, h.2]
  · rw [goto_pc_of_ne s q hj]

/-- An event that neither calls nor leaves `Backend::destroy`. -/
theorem Locked.same (h : Locked s) (hd : ∀ j, destroys (t.pc j) = destroys (s.pc j))
    (hlock : t.lock = s.lock) (hde : t.destroyed = s.destroyed)
    (hr : t.registered ⊆ s.registered) : Locked t where
  holder k name hk := by
    rw [hd] at hk
    rw [hlock]
    exact h.holder k name hk
  held k hk := by
    rw [hlock] at hk
    obtain ⟨name, hn⟩ := h.held k hk
    exact ⟨name, (hd k).trans hn⟩
  pending name hn hreg := by
    rw [hde] at hn
    obtain ⟨k, hk⟩ := h.pending name hn (hr hreg)
    exact ⟨k, (hd k).trans hk⟩

/-- Whoever can take the lock finds no registered pipeline that has been destroyed. -/
theorem Locked.unregistered (h : Locked s) (hlock : s.lock = none) {name : String}
    (hn : name ∈ s.destroyed) : name ∉ s.registered := by
  intro hr
  obtain ⟨k, hk⟩ := h.pending name hn hr
  have hheld := h.holder k name hk
  rw [hlock] at hheld
  cases hheld

theorem Locked.destroying (h : Locked s) {k : Fin n} {name : String}
    (hd : Destroying c s k name) :
    Locked { s.goto k (.inBackend name .destroy) with
      lock := some k, destroyed := insert name s.destroyed } := by
  obtain ⟨hlock, -, -, -⟩ := hd
  have hfree : ∀ j, destroys (s.pc j) = none := by
    intro j
    cases hj : destroys (s.pc j) with
    | none => rfl
    | some other =>
      have hheld := h.holder j other hj
      rw [hlock] at hheld
      cases hheld
  have hself : destroys ((s.goto k (.inBackend name .destroy)).pc k) = some name := by
    rw [goto_pc_self]
    rfl
  refine ⟨fun j other hj => ?_, fun j hj => ?_, fun other ho hr => ?_⟩
  · by_cases hjk : j = k
    · rw [hjk]
    · have hj : destroys ((s.goto k (.inBackend name .destroy)).pc j) = some other := hj
      rw [goto_pc_of_ne s _ hjk, hfree j] at hj
      cases hj
  · cases hj
    exact ⟨name, hself⟩
  · rcases Finset.mem_insert.mp ho with rfl | ho
    · exact ⟨k, hself⟩
    · exact absurd hr (h.unregistered hlock ho)

theorem Locked.destroyed (h : Locked s) {k : Fin n} {name : String}
    (hk : s.pc k = .inBackend name .destroy) :
    Locked { s.goto k .done with lock := none, registered := s.registered.erase name } := by
  have hdk : destroys (s.pc k) = some name := by rw [hk]; rfl
  have only : ∀ j other, destroys (s.pc j) = some other → j = k := by
    intro j other hj
    exact Option.some.inj ((h.holder j other hj).symm.trans (h.holder k name hdk))
  refine ⟨fun j other hj => ?_, fun j hj => (nomatch hj), fun other ho hr => ?_⟩
  · have hj : destroys ((s.goto k .done).pc j) = some other := hj
    by_cases hjk : j = k
    · rw [hjk, goto_pc_self] at hj
      cases hj
    · rw [goto_pc_of_ne s _ hjk] at hj
      exact absurd (only j other hj) hjk
  · obtain ⟨hne, hr⟩ := Finset.mem_erase.mp hr
    obtain ⟨j, hj⟩ := h.pending other ho hr
    rw [only j other hj, hdk] at hj
    exact absurd (Option.some.inj hj).symm hne

theorem destroys_wake (q : Pc) : destroys q.wake = destroys q := by
  cases q <;> rfl

theorem locked_move (h : Locked s) (m : Move c s e t) : Locked t := by
  have all := Finset.Subset.refl s.registered
  cases m with
  | hop hop => exact h.same (goto_destroys (hop_destroys hop)) rfl rfl all
  | counted hlock hk => exact h.same (goto_destroys ⟨by rw [hk]; rfl, rfl⟩) rfl rfl all
  | @started k name i hk =>
    have hd : destroys ((s.setState name ⟨true, i⟩).pc k) = none := by
      rw [setState_pc, hk]
      rfl
    exact h.same (goto_destroys ⟨hd, rfl⟩) rfl rfl all
  | uncounted hlock hk => exact h.same (goto_destroys ⟨by rw [hk]; rfl, rfl⟩) rfl rfl all
  | @deactivated k name i hlock hk =>
    have hd : destroys ((s.setState name ⟨false, i⟩).pc k) = none := by
      rw [setState_pc]
      rcases hk with hk | hk <;> rw [hk] <;> rfl
    exact h.same (goto_destroys ⟨hd, rfl⟩) rfl rfl all
  | destroying hd => exact h.destroying hd
  | destroyed hk => exact h.destroyed hk
  | left hlock hk h0 =>
    refine h.same (goto_destroys ⟨?_, rfl⟩) rfl rfl (Finset.empty_subset _)
    rcases hk with hk | hk <;> rw [hk] <;> rfl
  | @notified k hk =>
    have hd : destroys (s.notifyAll.pc k) = none := by
      rw [notifyAll_pc, hk]
      rfl
    refine h.same (fun j => ?_) rfl rfl all
    rw [goto_destroys ⟨hd, rfl⟩ j, notifyAll_pc, destroys_wake]

theorem locked_next (h : Locked s) (c : Config) (e : Event n) : Locked (next c s e) := by
  rcases next_cases c s e with hs | m
  · rwa [hs]
  · exact locked_move h m

theorem locked_initial (pipelines : Finset String) (flags : String → PipelineFlags)
    (handlers : Fin n → Handler) : Locked (initial pipelines flags handlers) :=
  ⟨fun _ _ h => (nomatch h), fun _ h => (nomatch h), fun _ h => (Finset.notMem_empty _ h).elim⟩

/-- Once the call of `destroyPipeline` has returned the lock is free. -/
theorem Locked.release (h : Locked s) (c : Config) :
    ∃ more : List (Event n), (more.foldl (next c) s).lock = none ∧
      (more.foldl (next c) s).destroyed = s.destroyed ∧
      ∀ k, destroys (s.pc k) = none → (more.foldl (next c) s).pc k = s.pc k := by
  cases hlock : s.lock with
  | none => exact ⟨[], hlock, rfl, fun _ _ => rfl⟩
  | some j =>
    obtain ⟨name, hj⟩ := h.held j hlock
    have hn : next c s (.returns j true) =
        { s.goto j .done with lock := none, registered := s.registered.erase name } := by
      exact next_of_step (by simp [step, State.returns, destroys_eq_some hj])
    refine ⟨[.returns j true], ?_, ?_, fun k hk => ?_⟩
    · rw [List.foldl_cons, List.foldl_nil, hn]
    · rw [List.foldl_cons, List.foldl_nil, hn]
      rfl
    · have hne : k ≠ j := by
        rintro rfl
        rw [hj] at hk
        cases hk
      rw [List.foldl_cons, List.foldl_nil, hn]
      exact goto_pc_of_ne s .done hne

/-! ## Destroying a pipeline -/

/-- The handler is in a call other than `destroy` on the pipeline, or a start on its way
to one. -/
def committed (name : String) : Pc → Bool
  | .starting other _ => other = name
  | .inBackend _ .destroy => false
  | .inBackend other _ => other = name
  | _ => false

/-- No call but `destroy` is running on a pipeline that `destroy` has been called on, and
it is inactive. -/
def Quiescent (s : State n) : Prop :=
  ∀ name ∈ s.destroyed, (s.state name).active = false ∧
    ∀ k call, s.pc k = .inBackend name call → call = .destroy

/-- `Backend::destroy` is called while no handler is committed to the pipeline. -/
def DestroyGuard (c : Config) (s : State n) : Event n → Prop
  | .acquire k => ∀ name, Destroying c s k name → ∀ j, committed name (s.pc j) = false
  | _ => True

def Settled (s : State n) : Prop :=
  ∀ name ∈ s.destroyed, (s.state name).active = false ∧ ∀ k, committed name (s.pc k) = false

theorem committed_of_call {name : String} {call : Call} (h : call ≠ .destroy) :
    committed name (.inBackend name call) = true := by
  cases call <;> simp_all [committed]

theorem Settled.quiescent (h : Settled s) : Quiescent s := by
  intro name hn
  refine ⟨(h name hn).1, fun k call hk => ?_⟩
  by_contra hc
  have hcommitted := (h name hn).2 k
  rw [hk, committed_of_call hc] at hcommitted
  cases hcommitted

theorem hop_committed {k : Fin n} {q : Pc} (h : Hop s e k q) {name : String}
    (hq : committed name q = true) :
    committed name (s.pc k) = true ∨ (s.lock = none ∧ name ∈ s.registered) := by
  cases h with
  | refused hk => cases hq
  | starting hlock hk hr ha hi =>
    simp only [committed, decide_eq_true_eq] at hq
    exact Or.inr ⟨hlock, hq ▸ hr⟩
  | @opened k h other i call hlock hk ho hr ha hi =>
    right
    cases h <;> cases ho <;> simp only [committed, decide_eq_true_eq] at hq <;>
      exact ⟨hlock, hq ▸ hr⟩
  | waits hlock hk h0 => cases hq
  | startFailed hk => cases hq
  | returned hk hu hq' => rcases hq' with rfl | rfl <;> cases hq
  | autoCleanup hk => exact Or.inl (by rw [hk]; exact hq)
  | cleaned hk => cases hq
  | aborted hk => cases hq
  | woken hk => cases hq

theorem committed_wake (name : String) (q : Pc) : committed name q.wake = committed name q := by
  cases q <;> rfl

/-- What holds of no handler holds of none after a handler moves to a place it excludes. -/
theorem goto_false (f : Pc → Bool) {k : Fin n} {q : Pc} (h : ∀ j, f (s.pc j) = false)
    (hq : f q = false) (j : Fin n) : f ((s.goto k q).pc j) = false := by
  by_cases hj : j = k
  · rwa [hj, goto_pc_self]
  · rw [goto_pc_of_ne s q hj]
    exact h j

theorem Settled.goto (h : Settled s) (k : Fin n) {q : Pc}
    (hq : ∀ name ∈ s.destroyed, committed name q = false) : Settled (s.goto k q) :=
  fun name hn => ⟨(h name hn).1, goto_false (committed name) (h name hn).2 (hq name hn)⟩

theorem settled_move (hl : Locked s) (h : Settled s) (hg : DestroyGuard c s e)
    (m : Move c s e t) : Settled t := by
  cases m with
  | @hop e k q hop =>
    refine h.goto k fun name hn => ?_
    cases hq : committed name q with
    | false => rfl
    | true =>
      rcases hop_committed hop hq with hk | ⟨hlock, hr⟩
      · rw [(h name hn).2 k] at hk
        cases hk
      · exact absurd hr (hl.unregistered hlock hn)
  | @counted k other i hlock hk =>
    refine h.goto k fun name hn => ?_
    have hc := (h name hn).2 k
    rw [hk] at hc
    exact hc
  | @started k other i hk =>
    intro name hn
    have hc := (h name hn).2 k
    have hne : name ≠ other := by
      rintro rfl
      rw [hk, committed_of_call (by simp)] at hc
      cases hc
    refine ⟨?_, goto_false (committed name) (h name hn).2 rfl⟩
    change ((s.setState other ⟨true, i⟩).state name).active = false
    rw [setState_of_ne s _ hne]
    exact (h name hn).1
  | @uncounted k hlock hk => exact h.goto k fun _ _ => rfl
  | @deactivated k other i hlock hk =>
    intro name hn
    refine ⟨?_, goto_false (committed name) (h name hn).2 rfl⟩
    change ((s.setState other ⟨false, i⟩).state name).active = false
    by_cases hne : name = other
    · rw [hne, setState_self]
    · rw [setState_of_ne s _ hne]
      exact (h name hn).1
  | @destroying k other hd =>
    intro name hn
    rcases Finset.mem_insert.mp hn with rfl | hn
    · exact ⟨hd.2.2.2, goto_false (committed name) (hg name hd) rfl⟩
    · exact ⟨(h name hn).1, goto_false (committed name) (h name hn).2 rfl⟩
  | @destroyed k other success hk => exact h.goto k fun _ _ => rfl
  | @left k hlock hk h0 => exact h.goto k fun _ _ => rfl
  | @notified k hk =>
    have hw : Settled s.notifyAll := fun name hn =>
      ⟨(h name hn).1, fun j => (committed_wake name (s.pc j)).trans ((h name hn).2 j)⟩
    exact hw.goto k fun _ _ => rfl

theorem settled_next (hl : Locked s) (h : Settled s) (hg : DestroyGuard c s e) :
    Settled (next c s e) := by
  rcases next_cases c s e with hs | m
  · rwa [hs]
  · exact settled_move hl h hg m

/-- A handler is committed to a pipeline that `destroy` has been called on. -/
def Doomed (s : State n) : Prop :=
  ∃ name ∈ s.destroyed, ∃ k, committed name (s.pc k) = true

theorem committed_cases {name : String} {q : Pc} (h : committed name q = true) :
    (∃ i, q = .starting name i) ∨ ∃ call, q = .inBackend name call ∧ call ≠ .destroy := by
  cases q with
  | starting other i => exact Or.inl ⟨i, by simp_all [committed]⟩
  | inBackend other call => cases call <;> simp_all [committed]
  | _ => cases h

theorem move_destroyed (m : Move c s e t) : s.destroyed ⊆ t.destroyed := by
  cases m with
  | destroying hd => exact Finset.subset_insert _ _
  | _ => exact Finset.Subset.refl _

/-- A start on its way to the backend object stays on it or gets there. -/
theorem hop_not_starting {k : Fin n} {q : Pc} (h : Hop s e k q) (name : String) (i : UInt64) :
    s.pc k ≠ .starting name i := by
  cases h with
  | waits _ hk _ => rcases hk with hk | hk <;> rw [hk] <;> simp
  | refused hk => rw [hk]; simp
  | starting _ hk _ _ _ => rw [hk]; simp
  | opened _ hk _ _ _ _ => rw [hk]; simp
  | startFailed hk => rw [hk]; simp
  | returned hk _ _ => rw [hk]; simp
  | autoCleanup hk => rw [hk]; simp
  | cleaned hk => rw [hk]; simp
  | aborted hk => rw [hk]; simp
  | woken hk => rw [hk]; simp

theorem move_starting (m : Move c s e t) {k : Fin n} {name : String} {i : UInt64}
    (hk : s.pc k = .starting name i) : committed name (t.pc k) = true := by
  have frame {u : State n} {j : Fin n} {q : Pc} (hu : u.pc k = .starting name i) (hj : j ≠ k) :
      committed name ((u.goto j q).pc k) = true := by
    rw [goto_pc_of_ne u q hj.symm, hu]
    simp [committed]
  have other {j : Fin n} (hj : s.pc j ≠ .starting name i) : j ≠ k := fun h => hj (h ▸ hk)
  cases m with
  | hop hop => exact frame hk (other (hop_not_starting hop name i))
  | @counted j other' i' hlock hj =>
    by_cases hjk : j = k
    · subst hjk
      rw [hk] at hj
      cases hj
      change committed name ((s.goto j _).pc j) = true
      rw [goto_pc_self]
      exact committed_of_call (by simp)
    · exact frame hk hjk
  | @started j other' i' hj =>
    exact frame (u := s.setState other' ⟨true, i'⟩) hk (other (by rw [hj]; simp))
  | uncounted hlock hj => exact frame hk (other (by rw [hj]; simp))
  | @deactivated j other' i' hlock hj =>
    refine frame (u := s.setState other' ⟨false, i'⟩) hk (other ?_)
    rcases hj with hj | hj <;> rw [hj] <;> simp
  | destroying hd =>
    obtain ⟨-, ⟨token, hj, -⟩, -, -⟩ := hd
    exact frame hk (other (by rw [hj]; simp))
  | destroyed hj => exact frame hk (other (by rw [hj]; simp))
  | left hlock hj h0 =>
    refine frame hk (other ?_)
    rcases hj with hj | hj <;> rw [hj] <;> simp
  | notified hj =>
    refine frame (u := s.notifyAll) ?_ (other (by rw [hj]; simp))
    rw [notifyAll_pc, hk]
    rfl

theorem doomed_move (hq : Quiescent s) (h : Doomed s) (m : Move c s e t) : Doomed t := by
  obtain ⟨name, hn, k, hk⟩ := h
  rcases committed_cases hk with ⟨i, hi⟩ | ⟨call, hcall, hne⟩
  · exact ⟨name, move_destroyed m hn, k, move_starting m hi⟩
  · exact absurd ((hq name hn).2 k call hcall) hne

/-- From a doomed state the start gets to the destroyed object. -/
theorem doomed_breaks (hl : Locked s) (h : Doomed s) (c : Config) :
    ∃ more : List (Event n), ¬ Quiescent (more.foldl (next c) s) := by
  obtain ⟨name, hn, k, hk⟩ := h
  rcases committed_cases hk with ⟨i, hi⟩ | ⟨call, hcall, hne⟩
  · obtain ⟨more, hlock, hd, hpc⟩ := hl.release c
    have hk : (more.foldl (next c) s).pc k = .starting name i :=
      (hpc k (by rw [hi]; rfl)).trans hi
    refine ⟨more ++ [.acquire k], fun hq => ?_⟩
    rw [List.foldl_append, List.foldl_cons, List.foldl_nil, next_starting c hlock hk] at hq
    have hcall := (hq name (hd ▸ hn)).2 k (.start i) (goto_pc_self _ k _)
    cases hcall
  · exact ⟨[], fun hq => hne ((hq name hn).2 k call hcall)⟩

theorem doomed_run (c : Config) (events : List (Event n)) (h : Doomed s)
    (hq : Always Quiescent s (path (next c) s events)) : Doomed (events.foldl (next c) s) := by
  induction events generalizing s with
  | nil => exact h
  | cons e events ih =>
    obtain ⟨hs, hq⟩ := always_cons.mp hq
    refine ih ?_ hq
    rcases next_cases c s e with he | m
    · rwa [he]
    · exact doomed_move hs h m

/-- A step that breaks the guard dooms a handler. -/
theorem doomed_of_not_guard (h : ¬ DestroyGuard c s e) : Doomed (next c s e) := by
  cases e with
  | acquire k =>
    simp only [DestroyGuard, not_forall] at h
    obtain ⟨name, hd, j, hj⟩ := h
    have hj : committed name (s.pc j) = true := by simpa using hj
    obtain ⟨hlock, ⟨token, hk, ht⟩, hr, ha⟩ := hd
    have hn : next c s (.acquire k) = { s.goto k (.inBackend name .destroy) with
        lock := some k, destroyed := insert name s.destroyed } :=
      next_of_step (by simp [step, State.acquire, State.enter, State.find, hk, ht, hlock, hr, ha])
    have hne : j ≠ k := by
      rintro rfl
      rw [hk] at hj
      cases hj
    rw [hn]
    refine ⟨name, Finset.mem_insert_self _ _, j, ?_⟩
    change committed name ((s.goto k _).pc j) = true
    rwa [goto_pc_of_ne s _ hne]
  | _ => exact (h trivial).elim

theorem doomed_of_not_guarded (c : Config) (events : List (Event n))
    (h : ¬ Guarded (DestroyGuard c) s (path (next c) s events))
    (hq : Always Quiescent s (path (next c) s events)) : Doomed (events.foldl (next c) s) := by
  induction events generalizing s with
  | nil => exact (h trivial).elim
  | cons e events ih =>
    obtain ⟨-, hq⟩ := always_cons.mp hq
    by_cases hg : DestroyGuard c s e
    · exact ih (fun hrest => h ⟨hg, hrest⟩) hq
    · exact doomed_run c events (doomed_of_not_guard hg) hq

theorem path_locked (c : Config) (pipelines : Finset String) (flags : String → PipelineFlags)
    (handlers : Fin n → Handler) (events : List (Event n)) :
    Locked (events.foldl (next c) (initial pipelines flags handlers)) := by
  apply foldl_invariant
  · intro s e h
    exact locked_next h c e
  · exact locked_initial pipelines flags handlers

/-- A run in which destroyPipeline calls `destroy` only on pipelines that no handler is
committed to keeps every other call away from them, and any other run can go on to one
that does not. -/
theorem destroyed_quiescent_of_guarded (c : Config) (pipelines : Finset String)
    (flags : String → PipelineFlags) (handlers : Fin n → Handler) (events : List (Event n)) :
    let s := initial pipelines flags handlers
    (Guarded (DestroyGuard c) s (path (next c) s events) →
      Always Quiescent s (path (next c) s events)) ∧
    (¬ Guarded (DestroyGuard c) s (path (next c) s events) →
      ∃ more, ¬ Always Quiescent s (path (next c) s (events ++ more))) := by
  intro s
  constructor
  · intro hg
    have hinit : Locked s ∧ Settled s :=
      ⟨locked_initial pipelines flags handlers, fun _ h => (Finset.notMem_empty _ h).elim⟩
    have ha : Always (fun s => Locked s ∧ Settled s) s (path (next c) s events) := by
      refine guarded_always ?_ (path_run (next c) s events) hinit hg
      rintro s e t ⟨hl, hs⟩ hg rfl
      exact ⟨locked_next hl c e, settled_next hl hs hg⟩
    exact ⟨hinit.2.quiescent, fun x hx => (ha.2 x hx).2.quiescent⟩
  · intro hg
    by_cases hq : Always Quiescent s (path (next c) s events)
    · have hd := doomed_of_not_guarded c events hg hq
      obtain ⟨more, hmore⟩ := doomed_breaks (path_locked c pipelines flags handlers events) hd c
      refine ⟨more, fun ha => hmore ?_⟩
      have hlast := ha.last
      rwa [final_path, List.foldl_append] at hlast
    · exact ⟨[], by rwa [List.append_nil]⟩

/-- A start has passed its checks when the pipeline is destroyed, and then calls
`Backend::start` on the destroyed object. -/
theorem destroyed_pipeline_is_started :
    ¬ ∀ (c : Config) (pipelines : Finset String) (flags : String → PipelineFlags)
      (handlers : Fin 2 → Handler) (events : List (Event 2)),
      Always Quiescent (initial pipelines flags handlers)
        (path (next c) (initial pipelines flags handlers) events) := by
  intro h
  have hl := (h ⟨"", 0⟩ {"p"} (fun _ => {}) ![.start 0 "p" 1, .destroyPipeline "" "p"]
    [.acquire 0, .acquire 1, .returns 1 true, .acquire 0]).last
  have hcall := (hl "p" (by decide)).2 0 (.start 1) (by decide)
  cases hcall

/-! ## Closing an iteration -/

/-- The handler is in `Backend::stage` or `Backend::execute`. -/
def running (name : String) : Pc → Bool
  | .inBackend other (.stage _) | .inBackend other (.execute _ _) => other = name
  | _ => false

/-- The handler is on its way to make the pipeline inactive. -/
def closing (name : String) : Pc → Bool
  | .inBackend other (.cleanup _ _) | .inBackend other (.abort _) => other = name
  | .cleaned other | .aborted other => other = name
  | _ => false

def Overlap (name : String) (s : State n) : Prop :=
  (∃ j, running name (s.pc j) = true) ∧ ∃ k, closing name (s.pc k) = true

/-- On an inactive pipeline no `stage` and no `execute` is running. -/
def Drained (name : String) (s : State n) : Prop :=
  (s.state name).active = false → ∀ k, running name (s.pc k) = false

theorem hop_running {k : Fin n} {q : Pc} (h : Hop s e k q) {name : String}
    (hq : running name q = true) :
    running name (s.pc k) = true ∨ (s.state name).active = true := by
  cases h with
  | @opened k h other i call hlock hk ho hr ha hi =>
    right
    cases h <;> cases ho <;> simp only [running, decide_eq_true_eq, Bool.false_eq_true] at hq <;>
      exact hq ▸ ha
  | returned hk hu hq' => rcases hq' with rfl | rfl <;> cases hq
  | _ => cases hq

theorem running_wake (name : String) (q : Pc) : running name q.wake = running name q := by
  cases q <;> rfl

theorem drained_move {name : String} (h : Drained name s) (hov : ¬ Overlap name s)
    (m : Move c s e t) : Drained name t := by
  cases m with
  | @hop e k q hop =>
    intro ha j
    refine goto_false (running name) (h ha) ?_ j
    cases hq : running name q with
    | false => rfl
    | true =>
      rcases hop_running hop hq with hk | hact
      · rw [h ha k] at hk
        cases hk
      · exact (Bool.false_ne_true (ha.symm.trans hact)).elim
  | @started k other i hk =>
    intro ha
    by_cases hne : name = other
    · subst hne
      have ha : ((s.setState name ⟨true, i⟩).state name).active = false := ha
      rw [setState_self] at ha
      cases ha
    · have ha : ((s.setState other ⟨true, i⟩).state name).active = false := ha
      rw [setState_of_ne s _ hne] at ha
      exact goto_false (running name) (s := s.setState other ⟨true, i⟩) (h ha) rfl
  | @deactivated k other i hlock hk =>
    intro ha
    refine goto_false (running name) (s := s.setState other ⟨false, i⟩) ?_ rfl
    by_cases hne : name = other
    · subst hne
      have hclosing : closing name (s.pc k) = true := by
        rcases hk with hk | hk <;> rw [hk] <;> simp [closing]
      intro j
      cases hj : running name (s.pc j) with
      | false => exact hj
      | true => exact (hov ⟨⟨j, hj⟩, k, hclosing⟩).elim
    · have ha : ((s.setState other ⟨false, i⟩).state name).active = false := ha
      rw [setState_of_ne s _ hne] at ha
      exact h ha
  | @notified k hk =>
    intro ha
    refine goto_false (running name) (s := s.notifyAll) (fun j => ?_) rfl
    rw [notifyAll_pc, running_wake]
    exact h ha j
  | counted hlock hk => exact fun ha => goto_false (running name) (h ha) rfl
  | uncounted hlock hk => exact fun ha => goto_false (running name) (h ha) rfl
  | destroying hd => exact fun ha => goto_false (running name) (h ha) rfl
  | destroyed hk => exact fun ha => goto_false (running name) (h ha) rfl
  | left hlock hk h0 => exact fun ha => goto_false (running name) (h ha) rfl

theorem drained_next {name : String} (h : Drained name s) (hov : ¬ Overlap name s)
    (c : Config) (e : Event n) : Drained name (next c s e) := by
  rcases next_cases c s e with hs | m
  · rwa [hs]
  · exact drained_move h hov m

theorem closing_cases {name : String} {q : Pc} (h : closing name q = true) :
    (q = .cleaned name ∨ q = .aborted name) ∨
      (∃ i auto, q = .inBackend name (.cleanup i auto)) ∨ ∃ i, q = .inBackend name (.abort i) := by
  cases q with
  | cleaned other => simp_all [closing]
  | aborted other => simp_all [closing]
  | inBackend other call => cases call <;> simp_all [closing]
  | _ => cases h

theorem deactivates {k : Fin n} {name : String} (c : Config) (hlock : s.lock = none)
    (hk : s.pc k = .cleaned name ∨ s.pc k = .aborted name) :
    ((next c s (.acquire k)).state name).active = false ∧
      ∀ j, j ≠ k → (next c s (.acquire k)).pc j = s.pc j := by
  have hn : ∃ i, next c s (.acquire k) = s.deactivate k name i := by
    rcases hk with hk | hk <;>
      exact ⟨_, next_of_step (by simp only [step, State.acquire, hk, hlock]; rfl)⟩
  obtain ⟨i, hn⟩ := hn
  rw [hn]
  constructor
  · change ((s.setState name ⟨false, i⟩).state name).active = false
    rw [setState_self]
  · intro j hj
    exact goto_pc_of_ne (s.setState name ⟨false, i⟩) _ hj

/-- A handler that closes the iteration gets to its end without the others moving. -/
theorem closing_closes {k : Fin n} {name : String} (c : Config) (hlock : s.lock = none)
    (hk : closing name (s.pc k) = true) :
    ∃ more : List (Event n), ((more.foldl (next c) s).state name).active = false ∧
      ∀ j, j ≠ k → (more.foldl (next c) s).pc j = s.pc j := by
  have after {q : Pc} (hq : q = .cleaned name ∨ q = .aborted name)
      (hn : next c s (.returns k true) = s.goto k q) :
      ∃ more : List (Event n), ((more.foldl (next c) s).state name).active = false ∧
        ∀ j, j ≠ k → (more.foldl (next c) s).pc j = s.pc j := by
    have hk : (s.goto k q).pc k = .cleaned name ∨ (s.goto k q).pc k = .aborted name := by
      rwa [goto_pc_self]
    have hd := deactivates (s := s.goto k q) c hlock hk
    refine ⟨[.returns k true, .acquire k], ?_, fun j hj => ?_⟩
    · rw [List.foldl_cons, hn]
      exact hd.1
    · rw [List.foldl_cons, hn]
      exact (hd.2 j hj).trans (goto_pc_of_ne s q hj)
  rcases closing_cases hk with hk | ⟨i, auto, hk⟩ | ⟨i, hk⟩
  · exact ⟨[.acquire k], (deactivates c hlock hk).1, (deactivates c hlock hk).2⟩
  · exact after (Or.inl rfl) (next_of_step (by simp [step, State.returns, hk]))
  · exact after (Or.inr rfl) (next_of_step (by simp [step, State.returns, hk]))

theorem overlap_breaks {name : String} (hl : Locked s) (h : Overlap name s) (c : Config) :
    ∃ more : List (Event n), ¬ Drained name (more.foldl (next c) s) := by
  obtain ⟨⟨j, hj⟩, k, hk⟩ := h
  have free {q : Pc} (hq : running name q = true ∨ closing name q = true) : destroys q = none := by
    cases q with
    | inBackend other call => cases call <;> simp_all [running, closing, destroys]
    | _ => rfl
  obtain ⟨more, hlock, -, hpc⟩ := hl.release c
  have hj' := hpc j (free (Or.inl hj))
  have hk' := hpc k (free (Or.inr hk))
  obtain ⟨more', hinactive, hothers⟩ := closing_closes c hlock (hk' ▸ hk)
  have hne : j ≠ k := by
    rintro rfl
    rcases closing_cases hk with (hq | hq) | ⟨i, auto, hq⟩ | ⟨i, hq⟩ <;>
      simp [hq, running] at hj
  refine ⟨more ++ more', fun hd => ?_⟩
  rw [List.foldl_append] at hd
  have hrun := hd hinactive j
  rw [hothers j hne, hj', hj] at hrun
  cases hrun

/-- While no stage or execute overlaps a handler that closes the iteration, none is running
once the pipeline is inactive; after an overlap a run can go on to where one is. -/
theorem drained_of_no_overlap (c : Config) (pipelines : Finset String)
    (flags : String → PipelineFlags) (handlers : Fin n → Handler) (name : String)
    (events : List (Event n)) :
    let s := initial pipelines flags handlers
    (Always (fun s => ¬ Overlap name s) s (path (next c) s events) →
      Always (Drained name) s (path (next c) s events)) ∧
    (Overlap name (events.foldl (next c) s) →
      ∃ more, ¬ Always (Drained name) s (path (next c) s (events ++ more))) := by
  intro s
  constructor
  · intro hov
    have hrun := path_run (next c) s events
    have hg : Guarded (fun s (_ : Event n) => ¬ Overlap name s) s (path (next c) s events) :=
      always_guarded (fun s e t hs _ _ => hs) hrun hov
    refine guarded_always ?_ hrun (fun _ _ => rfl) hg
    rintro s e t hs hg rfl
    exact drained_next hs hg c e
  · intro hov
    obtain ⟨more, hmore⟩ :=
      overlap_breaks (path_locked c pipelines flags handlers events) hov c
    refine ⟨more, fun ha => hmore ?_⟩
    have hlast := ha.last
    rwa [final_path, List.foldl_append] at hlast

/-- A block is being staged when a cleanup of the same iteration runs from its check to its
end. -/
theorem stage_outlives_cleanup :
    ¬ ∀ (c : Config) (pipelines : Finset String) (flags : String → PipelineFlags)
      (handlers : Fin 2 → Handler) (name : String) (events : List (Event 2)),
      Always (Drained name) (initial pipelines flags handlers)
        (path (next c) (initial pipelines flags handlers) events) := by
  intro h
  have hl := (h ⟨"", 0⟩ {"p"} (fun _ => ⟨true, 1⟩) ![.stage "p" 1, .cleanup "p" 1] "p"
    [.acquire 0, .acquire 1, .returns 1 true, .acquire 1]).last
  have hrun := hl (by decide) 0
  revert hrun
  decide

end BackendRaces
