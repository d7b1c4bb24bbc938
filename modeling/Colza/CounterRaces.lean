import Colza.ProviderInterleaving
import Mathlib.Data.Fin.VecNotation

/-!
# The counter of active pipelines and leaving the group, with overlapping handlers

The flag `active` is tested before a backend call and assigned after it, and only the
counter is protected by the lock. `Ledger` says what one event does to the counter and
to the two numbers it stands for; both results on runs follow from it.
-/
namespace CounterRaces

open GuardedRuns FiniteCounts ProviderInterleaving

variable {n : ℕ} {c : Config} {names : Finset String} {s t : State n} {e : Event n}

/-! ## The pipelines a handler has found -/

/-- The pipeline whose state a suspended handler holds. -/
def target : Pc → Option String
  | .starting name _ | .inBackend name _ | .cleaned name | .aborted name => some name
  | _ => none

structure Located (names : Finset String) (s : State n) : Prop where
  registered : s.registered ⊆ names
  held : ∀ k name, target (s.pc k) = some name → name ∈ names

theorem hop_target {k : Fin n} {q : Pc} (h : Hop s e k q) {name : String}
    (ht : target q = some name) : name ∈ s.registered ∨ target (s.pc k) = some name := by
  cases h with
  | refused hk => cases ht
  | starting hlock hk hr ha hi =>
    cases ht
    exact Or.inl hr
  | opened hlock hk ho hr ha hi =>
    cases ht
    exact Or.inl hr
  | waits hlock hk h0 => cases ht
  | startFailed hk => cases ht
  | returned hk hu hq => rcases hq with rfl | rfl <;> cases ht
  | autoCleanup hk => exact Or.inr (by rw [hk]; exact ht)
  | cleaned hk => exact Or.inr (by rw [hk]; exact ht)
  | aborted hk => exact Or.inr (by rw [hk]; exact ht)
  | woken hk => cases ht

theorem Located.goto (h : Located names s) {k : Fin n} {q : Pc}
    (hq : ∀ name, target q = some name → name ∈ names) {j : Fin n} {name : String}
    (hj : target ((s.goto k q).pc j) = some name) : name ∈ names := by
  by_cases hjk : j = k
  · subst hjk
    rw [goto_pc_self] at hj
    exact hq name hj
  · rw [goto_pc_of_ne s q hjk] at hj
    exact h.held j name hj

theorem target_wake (q : Pc) : target q.wake = target q := by
  cases q <;> rfl

theorem located_move (h : Located names s) (m : Move c s e t) : Located names t := by
  have idle {k : Fin n} {q : Pc} (hq : target q = none) {j : Fin n} {name : String}
      (hj : target ((s.goto k q).pc j) = some name) : name ∈ names :=
    h.goto (by simp [hq]) hj
  cases m with
  | @hop e k q hop =>
    refine ⟨h.registered, fun j name hj => h.goto (fun name hq => ?_) hj⟩
    rcases hop_target hop hq with hr | hk
    · exact h.registered hr
    · exact h.held k name hk
  | @counted k name i hlock hk =>
    refine ⟨h.registered, fun j other hj => h.goto (fun other ho => ?_) hj⟩
    cases ho
    exact h.held k name (by rw [hk]; rfl)
  | started hk => exact ⟨h.registered, fun j name hj => idle rfl hj⟩
  | uncounted hlock hk => exact ⟨h.registered, fun j name hj => idle rfl hj⟩
  | deactivated i hlock hk => exact ⟨h.registered, fun j name hj => idle rfl hj⟩
  | @destroying k name hd =>
    refine ⟨h.registered, fun j other hj => h.goto (fun other ho => ?_) hj⟩
    cases ho
    exact h.registered hd.2.2.1
  | destroyed hk =>
    exact ⟨(Finset.erase_subset _ _).trans h.registered, fun j name hj => idle rfl hj⟩
  | left hlock hk h0 => exact ⟨Finset.empty_subset _, fun j name hj => idle rfl hj⟩
  | @notified k hk =>
    refine ⟨h.registered, fun j name hj => ?_⟩
    by_cases hjk : j = k
    · subst hjk
      rw [goto_pc_self] at hj
      cases hj
    · rw [goto_pc_of_ne _ _ hjk] at hj
      exact h.held j name ((target_wake _).symm.trans hj)

theorem located_next (h : Located names s) (c : Config) (e : Event n) :
    Located names (next c s e) := by
  rcases next_cases c s e with hs | m
  · rwa [hs]
  · exact located_move h m

theorem located_initial (flags : String → PipelineFlags) (handlers : Fin n → Handler) :
    Located names (initial names flags handlers) :=
  ⟨Finset.Subset.refl _, fun _ _ h => by cases h⟩

/-! ## The counter of active pipelines -/

/-- A start handler between its increment and its end. -/
def counted : Pc → Bool
  | .inBackend _ (.start _) | .startFailed => true
  | _ => false

def startsCounted (s : State n) : ℕ := tally Finset.univ (fun q => counted q = true) s.pc

def activePipelines (names : Finset String) (s : State n) : ℕ :=
  tally names (fun st => st.active = true) s.state

section Counts

variable {k : Fin n} {q : Pc} {name : String}

theorem startsCounted_goto (s : State n) (k : Fin n) (q : Pc) :
    startsCounted (s.goto k q) + (counted (s.pc k)).toNat =
      startsCounted s + (counted q).toNat := by
  have h := tally_update Finset.univ (fun q => counted q = true) s.pc (Finset.mem_univ k) q
  cases hk : counted (s.pc k) <;> cases hq : counted q <;>
    simpa [hk, hq, startsCounted, State.goto] using h

theorem startsCounted_goto_same (h : counted q = counted (s.pc k)) :
    startsCounted (s.goto k q) = startsCounted s := by
  have hc := startsCounted_goto s k q
  rw [h] at hc
  omega

theorem activePipelines_setState (hn : name ∈ names) (s : State n) (st : PipelineFlags) :
    activePipelines names (s.setState name st) + (s.state name).active.toNat =
      activePipelines names s + st.active.toNat := by
  have h := tally_update names (fun st => st.active = true) s.state hn st
  cases ho : (s.state name).active <;> cases hn : st.active <;>
    simpa [ho, hn, activePipelines, State.setState] using h

theorem startsCounted_notifyAll (s : State n) : startsCounted s.notifyAll = startsCounted s := by
  apply tally_congr
  intro k _
  change counted (s.pc k).wake = true ↔ counted (s.pc k) = true
  cases s.pc k <;> rfl

theorem hop_counted (h : Hop s e k q) : counted q = counted (s.pc k) := by
  cases h with
  | @opened k h name i call hlock hk ho hr ha hi =>
    rw [hk]
    cases h <;> cases ho <;> rfl
  | waits hlock hk h0 => rcases hk with hk | hk <;> rw [hk] <;> rfl
  | @returned k name call success q hk hu hq =>
    rw [hk]
    rcases hq with rfl | rfl <;> cases call <;> first | rfl | exact hu.elim
  | refused hk => rw [hk]; rfl
  | starting hlock hk hr ha hi => rw [hk]; rfl
  | startFailed hk => rw [hk]; rfl
  | autoCleanup hk => rw [hk]; rfl
  | cleaned hk => rw [hk]; rfl
  | aborted hk => rw [hk]; rfl
  | woken hk => rw [hk]; rfl

end Counts

/-- The counter counts the starts in progress and the active pipelines. -/
def CounterExact (names : Finset String) (s : State n) : Prop :=
  s.numActivePipelines.toNat = startsCounted s + activePipelines names s

/-- The event is the critical section that takes 1 off the counter. -/
def Decrements (s : State n) : Event n → Prop
  | .acquire k => s.lock = none ∧
    (s.pc k = .startFailed ∨ ∃ name, s.pc k = .cleaned name ∨ s.pc k = .aborted name)
  | _ => False

def DecrementsAboveZero (s : State n) (e : Event n) : Prop :=
  Decrements s e → s.numActivePipelines ≠ 0

/-- A start increments a counter that has room for it, and an iteration is closed while
the pipeline is active. -/
def LockGuard (s : State n) : Pc → Prop
  | .starting _ _ => s.numActivePipelines.toNat + 1 < 2 ^ 64
  | .cleaned name | .aborted name => (s.state name).active = true
  | _ => True

instance (s : State n) : (q : Pc) → Decidable (LockGuard s q)
  | .starting _ _ => inferInstanceAs (Decidable (_ < _))
  | .cleaned _ => inferInstanceAs (Decidable (_ = _))
  | .aborted _ => inferInstanceAs (Decidable (_ = _))
  | .arrived _ | .inBackend _ _ | .startFailed | .notifying | .waiting | .woken | .done =>
    inferInstanceAs (Decidable True)

def AcquireGuard (s : State n) : Event n → Prop
  | .acquire k => s.lock = none → LockGuard s (s.pc k)
  | _ => True

instance (s : State n) : (e : Event n) → Decidable (AcquireGuard s e)
  | .acquire k => inferInstanceAs (Decidable (s.lock = none → LockGuard s (s.pc k)))
  | .returns _ _ | .notify _ | .wake _ => inferInstanceAs (Decidable True)

/-- `Backend::start` returns with success while the pipeline is inactive. -/
def StartGuard (s : State n) : Event n → Prop
  | .returns k true =>
    ∀ name i, s.pc k = .inBackend name (.start i) → (s.state name).active = false
  | _ => True

def CounterGuard (s : State n) (e : Event n) : Prop := AcquireGuard s e ∧ StartGuard s e

/-- What an event adds to the counter and to the two numbers it stands for, and the
guard that the event has to meet. -/
inductive Ledger (names : Finset String) (s : State n) (e : Event n) (t : State n) : Prop where
  | still : t.numActivePipelines = s.numActivePipelines → startsCounted t = startsCounted s →
      activePipelines names t = activePipelines names s → ¬ Decrements s e → AcquireGuard s e →
      StartGuard s e → Ledger names s e t
  | counted : t.numActivePipelines = s.numActivePipelines + 1 →
      startsCounted t = startsCounted s + 1 →
      activePipelines names t = activePipelines names s → ¬ Decrements s e →
      (AcquireGuard s e ↔ s.numActivePipelines.toNat + 1 < 2 ^ 64) → StartGuard s e →
      Ledger names s e t
  | started (b : Bool) : t.numActivePipelines = s.numActivePipelines →
      startsCounted t + 1 = startsCounted s →
      activePipelines names t + b.toNat = activePipelines names s + 1 → ¬ Decrements s e →
      AcquireGuard s e → (StartGuard s e ↔ b = false) → Ledger names s e t
  | uncounted : t.numActivePipelines = s.numActivePipelines - 1 →
      startsCounted t + 1 = startsCounted s →
      activePipelines names t = activePipelines names s → AcquireGuard s e → StartGuard s e →
      Ledger names s e t
  | deactivated (b : Bool) : t.numActivePipelines = s.numActivePipelines - 1 →
      startsCounted t = startsCounted s →
      activePipelines names t + b.toNat = activePipelines names s → Decrements s e →
      (AcquireGuard s e ↔ b = true) → StartGuard s e → Ledger names s e t

theorem stuck_ledger (h : step c s e = none) : Ledger names s e s := by
  cases e with
  | acquire k =>
    have h : s.acquire c k = none := h
    refine .still rfl rfl rfl ?_ ?_ trivial
    · rintro ⟨hlock, hk | ⟨name, hk | hk⟩⟩ <;> simp [State.acquire, hk, hlock] at h
    · intro hlock
      cases hk : s.pc k <;> simp only [LockGuard] <;> simp [State.acquire, hk, hlock] at h
  | returns k success =>
    refine .still rfl rfl rfl id trivial ?_
    cases success with
    | false => trivial
    | true =>
      intro name i hk
      simp [step, State.returns, hk] at h
  | notify k => exact .still rfl rfl rfl id trivial trivial
  | wake k => exact .still rfl rfl rfl id trivial trivial

theorem hop_ledger {k : Fin n} {q : Pc} (h : Hop s e k q) : Ledger names s e (s.goto k q) := by
  have guards : ¬ Decrements s e ∧ AcquireGuard s e ∧ StartGuard s e := by
    cases h with
    | refused hk => simp [AcquireGuard, StartGuard, LockGuard, Decrements, hk]
    | starting hlock hk hr ha hi => simp [AcquireGuard, StartGuard, LockGuard, Decrements, hk]
    | opened hlock hk ho hr ha hi => simp [AcquireGuard, StartGuard, LockGuard, Decrements, hk]
    | waits hlock hk h0 =>
      rcases hk with hk | hk <;> simp [AcquireGuard, StartGuard, LockGuard, Decrements, hk]
    | startFailed hk => exact ⟨id, trivial, trivial⟩
    | @returned k name call success q hk hu hq =>
      refine ⟨id, trivial, ?_⟩
      cases success with
      | false => trivial
      | true =>
        intro other i hk'
        cases hk.symm.trans hk'
        exact hu.elim
    | autoCleanup hk => simp [AcquireGuard, StartGuard, Decrements, hk]
    | cleaned hk => simp [AcquireGuard, StartGuard, Decrements, hk]
    | @aborted k name i success hk =>
      cases success <;> simp [AcquireGuard, StartGuard, Decrements, hk]
    | woken hk => exact ⟨id, trivial, trivial⟩
  exact .still rfl (startsCounted_goto_same (hop_counted h)) rfl guards.1 guards.2.1 guards.2.2

theorem started_ledger {k : Fin n} {name : String} {i : UInt64} (hn : name ∈ names)
    (hk : s.pc k = .inBackend name (.start i)) :
    Ledger names s (.returns k true) ((s.setState name ⟨true, i⟩).goto k .done) := by
  have hc := startsCounted_goto (s.setState name ⟨true, i⟩) k .done
  have hpc : (s.setState name ⟨true, i⟩).pc k = .inBackend name (.start i) := hk
  rw [hpc] at hc
  refine .started (s.state name).active rfl hc (activePipelines_setState hn s ⟨true, i⟩) id
    trivial ?_
  constructor
  · intro h
    exact h name i hk
  · intro h other j hk'
    cases hk.symm.trans hk'
    exact h

theorem deactivated_ledger {k : Fin n} {name : String} (i : UInt64) (hn : name ∈ names)
    (hlock : s.lock = none) (hk : s.pc k = .cleaned name ∨ s.pc k = .aborted name) :
    Ledger names s (.acquire k) (s.deactivate k name i) := by
  have hcounted : counted (s.pc k) = false := by rcases hk with hk | hk <;> rw [hk] <;> rfl
  have hc : startsCounted ((s.setState name ⟨false, i⟩).goto k .notifying) =
      startsCounted (s.setState name ⟨false, i⟩) := startsCounted_goto_same hcounted.symm
  refine .deactivated (s.state name).active rfl hc (activePipelines_setState hn s ⟨false, i⟩)
    ⟨hlock, Or.inr ⟨name, hk⟩⟩ ?_ trivial
  rcases hk with hk | hk <;> simp [AcquireGuard, LockGuard, hlock, hk]

theorem move_ledger (hl : Located names s) (m : Move c s e t) : Ledger names s e t := by
  cases m with
  | hop h => exact hop_ledger h
  | @counted k name i hlock hk =>
    have hc := startsCounted_goto s k (.inBackend name (.start i))
    rw [hk] at hc
    exact .counted rfl hc rfl (by simp [Decrements, hk])
      (by simp [AcquireGuard, LockGuard, hlock, hk]) trivial
  | @started k name i hk => exact started_ledger (hl.held k name (by rw [hk]; rfl)) hk
  | @uncounted k hlock hk =>
    have hc := startsCounted_goto s k .notifying
    rw [hk] at hc
    exact .uncounted rfl hc rfl (by simp [AcquireGuard, LockGuard, hk]) trivial
  | @deactivated k name i hlock hk =>
    refine deactivated_ledger i (hl.held k name ?_) hlock hk
    rcases hk with hk | hk <;> rw [hk] <;> rfl
  | @destroying k name hd =>
    obtain ⟨hlock, ⟨token, hk, -⟩, -, -⟩ := hd
    have hc : startsCounted (s.goto k (.inBackend name .destroy)) = startsCounted s :=
      startsCounted_goto_same (by rw [hk]; rfl)
    exact .still rfl hc rfl (by simp [Decrements, hk])
      (by simp [AcquireGuard, LockGuard, hk]) trivial
  | @destroyed k name success hk =>
    have hc : startsCounted (s.goto k .done) = startsCounted s :=
      startsCounted_goto_same (by rw [hk]; rfl)
    refine .still rfl hc rfl id trivial ?_
    cases success <;> simp [StartGuard, hk]
  | @left k hlock hk h0 =>
    have hc : startsCounted (s.goto k .done) = startsCounted s :=
      startsCounted_goto_same (by rcases hk with hk | hk <;> rw [hk] <;> rfl)
    refine .still rfl hc rfl ?_ ?_ trivial
    · rcases hk with hk | hk <;> simp [Decrements, hk]
    · rcases hk with hk | hk <;> simp [AcquireGuard, LockGuard, hk]
  | @notified k hk =>
    have hc : startsCounted (s.notifyAll.goto k .done) = startsCounted s.notifyAll :=
      startsCounted_goto_same (by change _ = counted (s.pc k).wake; rw [hk]; rfl)
    exact .still rfl (hc.trans (startsCounted_notifyAll s)) rfl id trivial trivial

theorem next_ledger (hl : Located names s) (c : Config) (e : Event n) :
    Ledger names s e (next c s e) := by
  unfold next
  cases h : step c s e with
  | none => exact stuck_ledger h
  | some t => exact move_ledger hl (step_move h)

theorem toNat_pos_iff {x : UInt64} : 0 < x.toNat ↔ x ≠ 0 := by
  rw [Nat.pos_iff_ne_zero, ne_eq, ne_eq, ← UInt64.toNat_inj]
  rfl

theorem ledger_counterExact_iff (hs : CounterExact names s) (l : Ledger names s e t) :
    CounterExact names t ∧ DecrementsAboveZero s e ↔ CounterGuard s e := by
  have hbound := s.numActivePipelines.toNat_lt
  unfold CounterExact at hs ⊢
  unfold CounterGuard DecrementsAboveZero
  cases l with
  | still hn hc ha hd hg hs' =>
    rw [hn, hc, ha]
    exact iff_of_true ⟨hs, fun h => (hd h).elim⟩ ⟨hg, hs'⟩
  | counted hn hc ha hd hg hs' =>
    rw [hn, hc, ha, hg, toNat_add_one]
    constructor
    · rintro ⟨h, -⟩
      exact ⟨by omega, hs'⟩
    · rintro ⟨h, -⟩
      exact ⟨by omega, fun h => (hd h).elim⟩
  | started b hn hc ha hd hg hs' =>
    rw [hn, hs']
    cases b with
    | false =>
      simp only [Bool.toNat_false] at ha
      exact iff_of_true ⟨by omega, fun h => (hd h).elim⟩ ⟨hg, rfl⟩
    | true =>
      simp only [Bool.toNat_true] at ha
      refine iff_of_false ?_ (by simp)
      rintro ⟨h, -⟩
      omega
  | uncounted hn hc ha hg hs' =>
    have hpos : 0 < s.numActivePipelines.toNat := by omega
    rw [hn, ha, toNat_sub_one hpos]
    exact iff_of_true ⟨by omega, fun _ => toNat_pos_iff.mp hpos⟩ ⟨hg, hs'⟩
  | deactivated b hn hc ha hd hg hs' =>
    rw [hn, hc, hg]
    cases b with
    | true =>
      simp only [Bool.toNat_true] at ha
      have hpos : 0 < s.numActivePipelines.toNat := by omega
      rw [toNat_sub_one hpos]
      exact iff_of_true ⟨by omega, fun _ => toNat_pos_iff.mp hpos⟩ ⟨rfl, hs'⟩
    | false =>
      simp only [Bool.toNat_false] at ha
      refine iff_of_false ?_ (by simp)
      rintro ⟨h, hz⟩
      have hpos := toNat_pos_iff.mpr (hz hd)
      rw [toNat_sub_one hpos] at h
      omega

/-- `CounterExact` for a provider with one pipeline. -/
def OnePipelineExact (name : String) (s : State n) : Prop :=
  s.numActivePipelines.toNat = startsCounted s + (s.state name).active.toNat

instance (name : String) (s : State n) : Decidable (OnePipelineExact name s) :=
  inferInstanceAs (Decidable (_ = _))

theorem counterExact_singleton (name : String) (s : State n) :
    CounterExact {name} s ↔ OnePipelineExact name s := by
  have h : activePipelines {name} s = (s.state name).active.toNat := by
    cases ha : (s.state name).active <;>
      simp [activePipelines, tally, Finset.filter_singleton, ha]
  unfold CounterExact OnePipelineExact
  rw [h]

theorem initial_startsCounted (flags : String → PipelineFlags) (handlers : Fin n → Handler) :
    startsCounted (initial names flags handlers) = 0 :=
  (tally_eq_zero _ _ _).mpr fun _ _ => Bool.false_ne_true

theorem initial_onePipelineExact (name : String) (flags : String → PipelineFlags)
    (handlers : Fin n → Handler) : OnePipelineExact name (initial {name} flags handlers) := by
  unfold OnePipelineExact
  rw [initial_startsCounted, Nat.zero_add]
  cases ha : (flags name).active <;>
    simp [initial, tally, Finset.filter_singleton, ha]

/-- One pipeline and any handlers: the counter is exact in every state and is never taken
below 0 exactly when every step of the run meets the guard. -/
theorem counter_exact_iff_no_stale_check (c : Config) (name : String)
    (flags : String → PipelineFlags) (handlers : Fin n → Handler) (events : List (Event n)) :
    let s := initial {name} flags handlers
    let run := path (next c) s events
    Always (OnePipelineExact name) s run ∧ Guarded DecrementsAboveZero s run ↔
      Guarded CounterGuard s run := by
  intro s run
  refine safe_iff_guarded (I := Located {name}) ?_ ?_ (path_run (next c) s events)
    (located_initial flags handlers) (initial_onePipelineExact name flags handlers)
  · rintro s e t hl rfl
    exact located_next hl c e
  · rintro s e t hl hs rfl
    rw [← counterExact_singleton] at hs ⊢
    exact ledger_counterExact_iff hs (next_ledger hl c e)

/-- Two cleanups of one iteration both find the pipeline active, and the second takes the
counter from 0 to its largest value. -/
theorem counter_wraps_after_two_cleanups :
    ¬ ∀ (c : Config) (name : String) (flags : String → PipelineFlags)
      (handlers : Fin 3 → Handler) (events : List (Event 3)),
      Always (OnePipelineExact name) (initial {name} flags handlers)
          (path (next c) (initial {name} flags handlers) events) ∧
        Guarded DecrementsAboveZero (initial {name} flags handlers)
          (path (next c) (initial {name} flags handlers) events) := by
  intro h
  have hl := (h ⟨"", 0⟩ "p" (fun _ => {}) ![.start 0 "p" 1, .cleanup "p" 1, .cleanup "p" 1]
    [.acquire 0, .acquire 0, .returns 0 true, .acquire 1, .acquire 2, .returns 1 true,
      .returns 2 true, .acquire 1, .acquire 2]).1.last
  revert hl
  decide

/-! ## Leaving the group -/

/-- A start handler between its checks and its increment. -/
def isStarting : Pc → Bool
  | .starting _ _ => true
  | _ => false

/-- The event makes `leave` call `ssg_group_leave`. -/
def GoesAhead (s : State n) : Event n → Prop
  | .acquire k => s.lock = none ∧ Leaving s k ∧ s.numActivePipelines = 0
  | _ => False

instance (s : State n) : (e : Event n) → Decidable (GoesAhead s e)
  | .acquire k =>
    inferInstanceAs (Decidable (s.lock = none ∧ (s.pc k = .arrived .leave ∨ s.pc k = .woken) ∧
      s.numActivePipelines = 0))
  | .returns _ _ | .notify _ | .wake _ => inferInstanceAs (Decidable False)

/-- A leave goes ahead for the first time, and while no start is between its checks and
its increment. -/
def LeaveGuard (s : State n) (e : Event n) : Prop :=
  AcquireGuard s e ∧ (GoesAhead s e → s.groupLeaves = 0 ∧ ∀ j, isStarting (s.pc j) = false)

instance (s : State n) (e : Event n) : Decidable (LeaveGuard s e) :=
  inferInstanceAs (Decidable (_ ∧ (_ → _ ∧ _)))

/-- The provider leaves once, with no registered pipeline active, and activates none
after that. -/
def LeaveSafe (c : Config) (s : State n) (e : Event n) : Prop :=
  (s.groupLeaves < (next c s e).groupLeaves →
    s.groupLeaves = 0 ∧ ∀ name ∈ s.registered, (s.state name).active = false) ∧
  (0 < s.groupLeaves →
    ∀ name, ((next c s e).state name).active = true → (s.state name).active = true)

/-- The counter is not below what it stands for. A start that finds its pipeline already
active leaves it above. -/
def Covered (names : Finset String) (s : State n) : Prop :=
  startsCounted s + activePipelines names s ≤ s.numActivePipelines.toNat

theorem ledger_covered (hs : Covered names s) (hg : AcquireGuard s e)
    (l : Ledger names s e t) : Covered names t := by
  unfold Covered at hs ⊢
  cases l with
  | still hn hc ha hd hg' hs' => rwa [hn, hc, ha]
  | counted hn hc ha hd hg' hs' =>
    have hroom := hg'.mp hg
    rw [hn, hc, ha, toNat_add_one, Nat.mod_eq_of_lt hroom]
    omega
  | started b hn hc ha hd hg' hs' =>
    rw [hn]
    omega
  | uncounted hn hc ha hg' hs' =>
    rw [hn, ha, toNat_sub_one (by omega)]
    omega
  | deactivated b hn hc ha hd hg' hs' =>
    obtain rfl := hg'.mp hg
    simp only [Bool.toNat_true] at ha
    rw [hn, hc, toNat_sub_one (by omega)]
    omega

theorem move_activates (m : Move c s e t) {name : String}
    (h : (t.state name).active = true) :
    (s.state name).active = true ∨ ∃ k i, s.pc k = .inBackend name (.start i) := by
  cases m with
  | @started k other i hk =>
    by_cases ho : name = other
    · subst ho
      exact Or.inr ⟨k, i, hk⟩
    · left
      rw [← setState_of_ne s ⟨true, i⟩ ho]
      exact h
  | @deactivated k other i hlock hk =>
    have h : ((s.setState other ⟨false, i⟩).state name).active = true := h
    by_cases ho : name = other
    · subst ho
      simp at h
    · left
      rwa [setState_of_ne s ⟨false, i⟩ ho] at h
  | hop _ => exact Or.inl h
  | counted _ _ => exact Or.inl h
  | uncounted _ _ => exact Or.inl h
  | destroying _ => exact Or.inl h
  | destroyed _ => exact Or.inl h
  | left _ _ _ => exact Or.inl h
  | notified _ => exact Or.inl h

/-- The provider has left and none of its pipelines can become active. -/
structure Gone (names : Finset String) (s : State n) : Prop where
  registered : s.registered = ∅
  idle : ∀ k, counted (s.pc k) = false ∧ isStarting (s.pc k) = false
  inactive : ∀ name ∈ names, (s.state name).active = false

theorem hop_isStarting {k : Fin n} {q : Pc} (h : Hop s e k q) (hr : s.registered = ∅) :
    isStarting q = false := by
  cases h with
  | starting hlock hk hreg ha hi =>
    rw [hr] at hreg
    cases hreg
  | returned hk hu hq => rcases hq with rfl | rfl <;> rfl
  | _ => rfl

theorem Gone.goto (h : Gone names s) (k : Fin n) {q : Pc}
    (hq : counted q = false ∧ isStarting q = false) : Gone names (s.goto k q) := by
  refine ⟨h.registered, fun j => ?_, h.inactive⟩
  by_cases hj : j = k
  · rwa [hj, goto_pc_self]
  · rw [goto_pc_of_ne s q hj]
    exact h.idle j

theorem Gone.setState_inactive (h : Gone names s) (name : String) (i : UInt64) :
    Gone names (s.setState name ⟨false, i⟩) := by
  refine ⟨h.registered, h.idle, fun other ho => ?_⟩
  by_cases hne : other = name
  · rw [hne, setState_self]
  · rw [setState_of_ne s _ hne]
    exact h.inactive other ho

theorem Gone.notifyAll (h : Gone names s) : Gone names s.notifyAll := by
  refine ⟨h.registered, fun k => ?_, h.inactive⟩
  have hk := h.idle k
  change counted (s.pc k).wake = false ∧ isStarting (s.pc k).wake = false
  cases hq : s.pc k with
  | waiting => exact ⟨rfl, rfl⟩
  | _ =>
    rw [hq] at hk
    exact hk

theorem gone_move (h : Gone names s) (m : Move c s e t) : Gone names t := by
  cases m with
  | @hop e k q hop =>
    exact h.goto k ⟨(hop_counted hop).trans (h.idle k).1, hop_isStarting hop h.registered⟩
  | @counted k name i hlock hk =>
    have hs := (h.idle k).2
    rw [hk] at hs
    cases hs
  | @started k name i hk =>
    have hs := (h.idle k).1
    rw [hk] at hs
    cases hs
  | @uncounted k hlock hk =>
    have hs := (h.idle k).1
    rw [hk] at hs
    cases hs
  | @deactivated k name i hlock hk =>
    have hg := (h.setState_inactive name i).goto k (q := .notifying) ⟨rfl, rfl⟩
    exact ⟨hg.registered, hg.idle, hg.inactive⟩
  | @destroying k name hd =>
    have hr := hd.2.2.1
    rw [h.registered] at hr
    cases hr
  | @destroyed k name success hk =>
    have hg := h.goto k (q := .done) ⟨rfl, rfl⟩
    refine ⟨?_, hg.idle, hg.inactive⟩
    change s.registered.erase name = ∅
    rw [h.registered]
    rfl
  | @left k hlock hk h0 =>
    have hg := h.goto k (q := .done) ⟨rfl, rfl⟩
    exact ⟨rfl, hg.idle, hg.inactive⟩
  | @notified k hk => exact h.notifyAll.goto k ⟨rfl, rfl⟩

theorem move_groupLeaves (m : Move c s e t) :
    t.groupLeaves = s.groupLeaves ∨ GoesAhead s e := by
  cases m with
  | left hlock hk h0 => exact Or.inr ⟨hlock, hk, h0⟩
  | _ => exact Or.inl rfl

structure LeaveInvariant (names : Finset String) (s : State n) : Prop where
  located : Located names s
  covered : Covered names s
  gone : 0 < s.groupLeaves → Gone names s

/-- Where the counter is 0 nothing is in progress that could activate a pipeline, apart from
starts before their increment. -/
theorem LeaveInvariant.settled (h : LeaveInvariant names s) (h0 : s.numActivePipelines = 0) :
    (∀ k, counted (s.pc k) = false) ∧ ∀ name ∈ names, (s.state name).active = false := by
  have hc : startsCounted s + activePipelines names s ≤ 0 := by
    have := h.covered
    unfold Covered at this
    rwa [h0] at this
  have hstarts : startsCounted s = 0 := by omega
  have hactive : activePipelines names s = 0 := by omega
  constructor
  · intro k
    simpa using (tally_eq_zero _ _ _).mp hstarts k (Finset.mem_univ k)
  · intro name hn
    simpa using (tally_eq_zero _ _ _).mp hactive name hn

theorem next_goesAhead {k : Fin n} (h : GoesAhead s (.acquire k)) (c : Config) :
    next c s (.acquire k) =
      { s.goto k .done with groupLeaves := s.groupLeaves + 1, registered := ∅ } := by
  obtain ⟨hlock, hk, h0⟩ := h
  rcases hk with hk | hk <;>
    simp [next, step, State.acquire, State.enter, State.leave, hk, hlock, h0]

theorem LeaveInvariant.gone_of_goesAhead (h : LeaveInvariant names s) {k : Fin n}
    (hg : LeaveGuard s (.acquire k)) (ha : GoesAhead s (.acquire k)) (c : Config) :
    Gone names (next c s (.acquire k)) := by
  obtain ⟨hcounted, hinactive⟩ := h.settled ha.2.2
  rw [next_goesAhead ha]
  refine ⟨rfl, fun j => ?_, hinactive⟩
  change counted ((s.goto k .done).pc j) = false ∧ isStarting ((s.goto k .done).pc j) = false
  by_cases hj : j = k
  · rw [hj, goto_pc_self]
    exact ⟨rfl, rfl⟩
  · rw [goto_pc_of_ne s _ hj]
    exact ⟨hcounted j, (hg.2 ha).2 j⟩

theorem next_groupLeaves (h : ¬ GoesAhead s e) (c : Config) :
    (next c s e).groupLeaves = s.groupLeaves := by
  rcases next_cases c s e with hs | m
  · rw [hs]
  · exact (move_groupLeaves m).resolve_right h

theorem gone_next (h : Gone names s) (c : Config) (e : Event n) : Gone names (next c s e) := by
  rcases next_cases c s e with hs | m
  · rwa [hs]
  · exact gone_move h m

theorem Gone.activates_none (h : Gone names s) (c : Config) (e : Event n) {name : String}
    (ha : ((next c s e).state name).active = true) : (s.state name).active = true := by
  rcases next_cases c s e with hs | m
  · rwa [hs] at ha
  · rcases move_activates m ha with ha | ⟨k, i, hk⟩
    · exact ha
    · have hc := (h.idle k).1
      rw [hk] at hc
      cases hc

theorem leaveInvariant_next (h : LeaveInvariant names s) (hg : LeaveGuard s e) (c : Config) :
    LeaveInvariant names (next c s e) ∧ LeaveSafe c s e := by
  have hl := located_next h.located c e
  have hc := ledger_covered h.covered hg.1 (next_ledger h.located c e)
  by_cases ha : GoesAhead s e
  · cases e with
    | acquire k =>
      refine ⟨⟨hl, hc, fun _ => h.gone_of_goesAhead hg ha c⟩, fun _ => ?_, fun hpos => ?_⟩
      · exact ⟨(hg.2 ha).1, fun name hn => (h.settled ha.2.2).2 name (h.located.registered hn)⟩
      · exact absurd (hg.2 ha).1 (Nat.ne_of_gt hpos)
    | _ => exact ha.elim
  · have hn := next_groupLeaves ha c
    refine ⟨⟨hl, hc, fun hpos => gone_next (h.gone (hn ▸ hpos)) c e⟩, fun hlt => ?_, fun hpos => ?_⟩
    · rw [hn] at hlt
      exact absurd hlt (Nat.lt_irrefl _)
    · exact fun name => (h.gone hpos).activates_none c e

theorem initial_leaveInvariant (pipelines : Finset String) (handlers : Fin n → Handler) :
    LeaveInvariant pipelines (initial pipelines (fun _ => {}) handlers) := by
  have h0 : activePipelines pipelines (initial pipelines (fun _ => {}) handlers) = 0 :=
    (tally_eq_zero _ _ _).mpr fun _ _ => Bool.false_ne_true
  refine ⟨located_initial _ handlers, ?_, fun h => absurd h (Nat.lt_irrefl 0)⟩
  unfold Covered
  rw [initial_startsCounted, h0]
  exact Nat.zero_le _

/-- A provider with any number of new pipelines and any handlers. -/
theorem leave_safe_of_guarded (c : Config) (pipelines : Finset String)
    (handlers : Fin n → Handler) (events : List (Event n))
    (hg : Guarded LeaveGuard (initial pipelines (fun _ => {}) handlers)
      (path (next c) (initial pipelines (fun _ => {}) handlers) events)) :
    Guarded (LeaveSafe c) (initial pipelines (fun _ => {}) handlers)
      (path (next c) (initial pipelines (fun _ => {}) handlers) events) := by
  refine guarded_guarded (P := LeaveInvariant pipelines) ?_ (path_run (next c) _ events)
    (initial_leaveInvariant pipelines handlers) hg
  rintro s e t hs hg rfl
  exact leaveInvariant_next hs hg c

/-- The last condition of the guard is needed: the start that leave overtakes activates its
pipeline. -/
theorem overtaken_start_activates {j k : Fin n} {name : String} {i : UInt64} (c : Config)
    (ha : GoesAhead s (.acquire k)) (hj : s.pc j = .starting name i)
    (hst : (s.state name).active = false) :
    ¬ Guarded (LeaveSafe c) s
      (path (next c) s [.acquire k, .acquire j, .returns j true]) := by
  have hne : j ≠ k := by
    rintro rfl
    rcases ha.2.1 with hk | hk <;> rw [hj] at hk <;> cases hk
  have hs₁ := next_goesAhead ha c
  have hlock : (next c s (.acquire k)).lock = none := by
    rw [hs₁]
    exact ha.1
  have hj₁ : (next c s (.acquire k)).pc j = .starting name i := by
    rw [hs₁]
    exact (goto_pc_of_ne s .done hne).trans hj
  have hs₂ := next_starting c hlock hj₁
  have hj₂ : (next c (next c s (.acquire k)) (.acquire j)).pc j = .inBackend name (.start i) := by
    rw [hs₂]
    exact goto_pc_self _ j _
  have hs₃ := next_inStart c hj₂
  rintro ⟨-, -, ⟨-, hactivates⟩, -⟩
  have hleft : 0 < (next c (next c s (.acquire k)) (.acquire j)).groupLeaves := by
    rw [hs₂, hs₁]
    exact Nat.succ_pos _
  have hactive := hactivates hleft name (by rw [hs₃]; simp)
  rw [hs₂, hs₁] at hactive
  exact Bool.false_ne_true (hst.symm.trans hactive)

/-- A leave waits for the cleanup of the iteration that is open. -/
theorem leave_safe_after_cleanup :
    let handlers : Fin 3 → Handler := ![.start 0 "p" 1, .cleanup "p" 1, .leave]
    let s := initial {"p"} (fun _ => {}) handlers
    Guarded (LeaveSafe ⟨"", 0⟩) s (path (next ⟨"", 0⟩) s
      [.acquire 0, .acquire 0, .acquire 2, .returns 0 true, .acquire 1, .returns 1 true,
        .acquire 1, .notify 1, .acquire 2]) :=
  leave_safe_of_guarded ⟨"", 0⟩ {"p"} _ _ (by decide)

/-- A start passes its checks, the provider leaves, and the start activates its pipeline. -/
theorem leave_unsafe_before_increment :
    ¬ ∀ (c : Config) (pipelines : Finset String) (handlers : Fin 2 → Handler)
      (events : List (Event 2)),
      Guarded (LeaveSafe c) (initial pipelines (fun _ => {}) handlers)
        (path (next c) (initial pipelines (fun _ => {}) handlers) events) := by
  intro h
  have hg := h ⟨"", 0⟩ {"p"} ![.start 0 "p" 1, .leave]
    [.acquire 0, .acquire 1, .acquire 0, .returns 0 true]
  have ha := hg.2.2.2.1.2 (by decide) "p" (by decide)
  revert ha
  decide

end CounterRaces
