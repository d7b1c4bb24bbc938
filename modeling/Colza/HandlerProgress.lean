import Colza.BackendRaces
import Colza.LeaveWakeups
import Mathlib.Algebra.Order.BigOperators.Group.Finset

/-!
# The handlers of a provider come to their end

Only a call of `Backend::destroy`, which returns, keeps the lock, and every handler calls
`notify_all` at most once. So any interleaving ends after a number of events that depends on
the number of handlers only, and then nothing is left but leaves that wait.
-/
namespace HandlerProgress

open GuardedRuns FiniteCounts ProviderInterleaving CounterRaces LeaveWakeups
open BackendRaces (Locked locked_next locked_initial destroys)

variable {n : ℕ} {c : Config} {s t : State n} {k : Fin n} {q : Pc} {e : Event n}

/-- The event is possible, and it is not a wakeup without a notification. -/
def Possible (c : Config) (s : State n) (e : Event n) : Prop :=
  (∀ k, e ≠ .wake k) ∧ (step c s e).isSome = true

instance (c : Config) (s : State n) (e : Event n) : Decidable (Possible c s e) :=
  inferInstanceAs (Decidable (_ ∧ _))

def Stuck (c : Config) (s : State n) : Prop := ∀ e, ¬ Possible c s e

/-! ## The events that are still ahead -/

/-- A bound on the events a handler takes. The one that notifies stands for those of the
handlers it wakes too. -/
def ahead (n : ℕ) : Pc → ℕ
  | .arrived _ => n + 5
  | .starting _ _ | .inBackend _ (.execute _ _) => n + 4
  | .inBackend _ _ => n + 3
  | .startFailed | .cleaned _ | .aborted _ => n + 2
  | .notifying => n + 1
  | .woken => 1
  | .waiting | .done => 0

def eventsAhead (s : State n) : ℕ := ∑ k, ahead n (s.pc k)

theorem eventsAhead_goto (hpc : t.pc = (s.goto k q).pc) (hq : ahead n q < ahead n (s.pc k)) :
    eventsAhead t < eventsAhead s := by
  unfold eventsAhead
  rw [hpc]
  refine Finset.sum_lt_sum (fun j _ => ?_) ⟨k, Finset.mem_univ k, ?_⟩
  · by_cases hj : j = k
    · rw [hj, goto_pc_self]
      exact hq.le
    · rw [goto_pc_of_ne s q hj]
  · rwa [goto_pc_self]

theorem ahead_wake (q : Pc) : ahead n q.wake ≤ ahead n q + 1 := by
  cases q <;> simp [Pc.wake, ahead]

theorem eventsAhead_notify (hk : s.pc k = .notifying) :
    eventsAhead (s.notifyAll.goto k .done) < eventsAhead s := by
  have hothers : ∑ j ∈ Finset.univ.erase k, ahead n ((s.notifyAll.goto k .done).pc j) ≤
      ∑ j ∈ Finset.univ.erase k, (ahead n (s.pc j) + 1) := by
    refine Finset.sum_le_sum fun j hj => ?_
    rw [goto_pc_of_ne _ _ (Finset.ne_of_mem_erase hj), notifyAll_pc]
    exact ahead_wake _
  have hcard : (Finset.univ.erase k).card ≤ n := by
    rw [Finset.card_erase_of_mem (Finset.mem_univ k), Finset.card_univ, Fintype.card_fin]
    omega
  have hself : ahead n ((s.notifyAll.goto k .done).pc k) = 0 := by
    rw [goto_pc_self]
    rfl
  have hnotifying : ahead n (s.pc k) = n + 1 := by
    rw [hk]
    rfl
  rw [Finset.sum_add_distrib, ← Finset.card_eq_sum_ones] at hothers
  unfold eventsAhead
  rw [← Finset.add_sum_erase _ (fun j => ahead n (s.pc j)) (Finset.mem_univ k),
    ← Finset.add_sum_erase _ (fun j => ahead n ((s.notifyAll.goto k .done).pc j))
      (Finset.mem_univ k), hself, hnotifying]
  omega

theorem hop_ahead (hop : Hop s e k q) (he : ∀ j, e ≠ .wake j) :
    ahead n q < ahead n (s.pc k) := by
  cases hop with
  | refused hk => rw [hk]; simp [ahead]
  | starting _ hk _ _ _ => rw [hk]; simp [ahead]
  | @opened _ _ _ _ call _ hk _ _ _ _ => rw [hk]; cases call <;> simp [ahead]
  | waits _ hk _ => rcases hk with hk | hk <;> rw [hk] <;> simp [ahead]
  | startFailed hk => rw [hk]; simp [ahead]
  | @returned _ _ call _ _ hk _ hq =>
    rw [hk]
    rcases hq with rfl | rfl <;> cases call <;> simp [ahead]
  | autoCleanup hk => rw [hk]; simp [ahead]
  | cleaned hk => rw [hk]; simp [ahead]
  | aborted hk => rw [hk]; simp [ahead]
  | woken _ => exact (he _ rfl).elim

/-- Every event takes something off. -/
theorem eventsAhead_next (h : Possible c s e) : eventsAhead (next c s e) < eventsAhead s := by
  obtain ⟨he, hsome⟩ := h
  obtain ⟨t, hstep⟩ := Option.isSome_iff_exists.mp hsome
  rw [next_of_step hstep]
  cases step_move hstep with
  | hop hop => exact eventsAhead_goto rfl (hop_ahead hop he)
  | counted _ hk => exact eventsAhead_goto rfl (by rw [hk]; simp [ahead])
  | started hk => exact eventsAhead_goto rfl (by rw [hk]; simp [ahead])
  | uncounted _ hk => exact eventsAhead_goto rfl (by rw [hk]; simp [ahead])
  | deactivated _ _ hk =>
    exact eventsAhead_goto rfl (by rcases hk with hk | hk <;> rw [hk] <;> simp [ahead])
  | destroying hd =>
    obtain ⟨-, ⟨token, hk, -⟩, -, -⟩ := hd
    exact eventsAhead_goto rfl (by rw [hk]; simp [ahead])
  | destroyed hk => exact eventsAhead_goto rfl (by rw [hk]; simp [ahead])
  | left _ hk _ =>
    refine eventsAhead_goto rfl ?_
    rcases hk with hk | hk <;> rw [hk] <;> simp [ahead]
  | notified hk => exact eventsAhead_notify hk

/-! ## Where nothing is possible -/

theorem enter_isSome (c : Config) (hlock : s.lock = none) (k : Fin n) (h : Handler) :
    ∃ t, s.enter c k h = some t := by
  rw [← Option.isSome_iff_exists]
  unfold State.enter
  cases h with
  | start g name i =>
    simp only [hlock]
    split
    · rfl
    · split
      · contradiction
      · split
        · rfl
        · split
          · rfl
          · split <;> rfl
  | destroyPipeline token name =>
    simp only [hlock]
    split
    · rfl
    · split
      · contradiction
      · split
        · rfl
        · split <;> rfl
  | _ => simp [hlock]

theorem Stuck.returned (h : Stuck c s) (success : Bool) : s.returns k success = none := by
  by_contra hr
  exact h (.returns k success) ⟨by simp, Option.isSome_iff_ne_none.mpr hr⟩

theorem Stuck.acquired (h : Stuck c s) : s.acquire c k = none := by
  by_contra hr
  exact h (.acquire k) ⟨by simp, Option.isSome_iff_ne_none.mpr hr⟩

/-- A call on a backend object can return. -/
theorem Stuck.outside (h : Stuck c s) {name : String} {call : Call} :
    s.pc k ≠ .inBackend name call := by
  intro hk
  have hr := h.returned (k := k) false
  cases call with
  | cleanup i auto => cases auto <;> simp [State.returns, hk] at hr
  | _ => simp [State.returns, hk] at hr

theorem Stuck.ended (h : Stuck c s) (hl : Locked s) :
    s.lock = none ∧ ∀ k, s.pc k = .done ∨ s.pc k = .waiting := by
  have hlock : s.lock = none := by
    cases hlock : s.lock with
    | none => rfl
    | some k =>
      obtain ⟨name, hd⟩ := hl.held k hlock
      cases hk : s.pc k with
      | inBackend other call => exact (h.outside hk).elim
      | _ => rw [hk] at hd; cases hd
  refine ⟨hlock, fun k => ?_⟩
  have ha := h.acquired (k := k)
  unfold State.acquire at ha
  cases hk : s.pc k with
  | arrived g =>
    obtain ⟨t, ht⟩ := enter_isSome c hlock k g
    simp only [hk, ht] at ha
    cases ha
  | inBackend name call => exact (h.outside hk).elim
  | notifying => exact (h (.notify k) ⟨by simp, by simp [step, hk]⟩).elim
  | waiting => exact Or.inr rfl
  | done => exact Or.inl rfl
  | _ => simp [hk, hlock] at ha

/-! ## Whole runs -/

/-- A leave that waits where nothing is possible waits for an active pipeline. -/
theorem waits_for_active {names : Finset String} {handlers : Fin n → Handler} {s₀ : State n}
    {events : List (Event n)} (h : WakeInvariant c names handlers s₀ events s)
    (hended : ∀ k, s.pc k = .done ∨ s.pc k = .waiting) {j : Fin n} (hj : s.pc j = .waiting) :
    ∃ name ∈ names, (s.state name).active = true := by
  by_contra hnone
  have hstarts : startsCounted s = 0 := by
    refine (tally_eq_zero _ _ _).mpr fun k _ => ?_
    rcases hended k with hk | hk <;> rw [hk] <;> exact Bool.false_ne_true
  have hactive : activePipelines names s = 0 := by
    refine (tally_eq_zero _ _ _).mpr fun name hn ha => hnone ⟨name, hn, ha⟩
  have hcounter : CounterExact names s := h.counter
  unfold CounterExact at hcounter
  have h0 : s.numActivePipelines = 0 := by
    apply UInt64.toNat_inj.mp
    rw [hcounter, hstarts, hactive]
    rfl
  obtain ⟨k, -, hk⟩ := h.pending j hj h0
  rcases hended k with hk' | hk' <;> rw [hk'] at hk <;> cases hk

/-- Any number of handlers of `start`, `stage`, `execute`, `cleanup`, `abort`, `destroyPipeline` and
`leave`, in any order of their events: they take no more events than this, and where they can take
none each has ended or is a leave that waits. With a counter that is exact at first and no pipeline
created meanwhile, it waits for an active pipeline if the requests of one pipeline do not
overlap. -/
theorem handlers_end (c : Config) (names : PipelineNames) (flags : String → PipelineFlags)
    (handlers : Fin n → Handler) (events : List (Event n))
    (hp : Guarded (Possible c) (initial names.names flags handlers)
      (path (next c) (initial names.names flags handlers) events)) :
    let s := events.foldl (next c) (initial names.names flags handlers)
    events.length ≤ n * (n + 5) ∧ (Stuck c s → s.lock = none ∧
      (∀ k, s.pc k = .done ∨ s.pc k = .waiting) ∧
      (Guarded (NotOverlapping handlers) (initial names.names flags handlers)
          (path (next c) (initial names.names flags handlers) events) →
        ∀ j, s.pc j = .waiting → ∃ name ∈ names.names, (s.state name).active = true)) := by
  intro s
  refine ⟨?_, fun hstuck => ?_⟩
  · have hrun : Run (fun s e t => Possible c s e ∧ t = next c s e) _ _ :=
      path_run_of (next c) (fun _ _ h => ⟨h, rfl⟩) _ events hp
    have hlength := hrun.length_le (m := eventsAhead) fun s e t h => h.2 ▸ eventsAhead_next h.1
    rw [path_length] at hlength
    refine hlength.trans ?_
    unfold eventsAhead
    simp [initial, ahead]
  · have hl : Locked s := foldl_invariant (next c) (P := Locked) (fun _ e h => locked_next h c e)
      (locked_initial names.names flags handlers) events
    obtain ⟨hlock, hended⟩ := hstuck.ended hl
    refine ⟨hlock, hended, fun hg j hj => ?_⟩
    have hwake := history_invariant (next c)
      (P := fun es s => WakeInvariant c names.names handlers
        (initial names.names flags handlers) es s)
      ⟨located_initial flags handlers, oneAtATime_initial flags handlers,
        initial_counterExact names flags handlers, fun j hj => by cases hj⟩
      (fun es e h hg => wakeInvariant_next names.fits h hg) events hg
    exact waits_for_active hwake hended hj

/-- A leave waits for an iteration that nobody closes. -/
theorem handlers_end_before_cleanup :
    let handlers : Fin 2 → Handler := ![.start 0 "p" 1, .leave]
    let s := [Event.acquire 0, .acquire 0, .acquire 1, .returns 0 true].foldl (next ⟨"", 0⟩)
      (initial {"p"} (fun _ => {}) handlers)
    s.lock = none ∧ s.pc 1 = .waiting ∧ ∃ name ∈ ({"p"} : Finset String),
      (s.state name).active = true := by
  intro handlers s
  obtain ⟨-, hstuck⟩ := handlers_end ⟨"", 0⟩ ⟨{"p"}, by decide⟩ (fun _ => {}) handlers
    [.acquire 0, .acquire 0, .acquire 1, .returns 0 true] (by decide)
  have hs : Stuck ⟨"", 0⟩ s := by
    rintro (k | ⟨k, _ | _⟩ | k | k) <;> revert k <;> decide
  obtain ⟨hlock, -, hwaits⟩ := hstuck hs
  exact ⟨hlock, by decide, hwaits (by decide) 1 (by decide)⟩

end HandlerProgress
