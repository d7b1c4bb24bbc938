import Colza.CounterRaces

/-!
# Leave handlers that wait for the last active pipeline

`start`, `execute`, `cleanup` and `abort` take 1 off the counter under the lock and call
`notify_all` after they have released it. Where the requests of one pipeline do not overlap
the counter is exact, so only a decrement can bring it to 0, and the handler that made it
has its notification still ahead.
-/
namespace LeaveWakeups

open GuardedRuns FiniteCounts ProviderInterleaving CounterRaces

variable {n : ℕ} {c : Config} {names : Finset String} {handlers : Fin n → Handler}
  {s t : State n} {e : Event n}

/-- The pipeline whose iteration a request opens, runs or closes. -/
def drives : Handler → Option String
  | .start _ name _ | .execute name _ _ | .cleanup name _ | .abort name _ => some name
  | .stage _ _ | .destroyPipeline _ _ | .leave => none

def SamePipeline (g h : Handler) : Prop := drives g ≠ none ∧ drives g = drives h

instance (g h : Handler) : Decidable (SamePipeline g h) := inferInstanceAs (Decidable (_ ∧ _))

/-- A handler between its first segment and its end. -/
def running : Pc → Bool
  | .arrived _ | .done => false
  | _ => true

/-- A request begins while no other request of its pipeline is running. -/
def NotOverlapping (handlers : Fin n → Handler) (s : State n) : Event n → Prop
  | .acquire k => s.pc k = .arrived (handlers k) →
    ∀ j, j ≠ k → SamePipeline (handlers j) (handlers k) → running (s.pc j) = false
  | _ => True

instance (s : State n) : (e : Event n) → Decidable (NotOverlapping handlers s e)
  | .acquire k => inferInstanceAs (Decidable (s.pc k = .arrived (handlers k) →
      ∀ j, j ≠ k → SamePipeline (handlers j) (handlers k) → running (s.pc j) = false))
  | .returns _ _ | .notify _ | .wake _ => inferInstanceAs (Decidable True)

/-! ## One request at a time on each pipeline -/

/-- The flag `active` that a suspended handler relies on. -/
def expected : Pc → Option Bool
  | .starting _ _ | .inBackend _ (.start _) | .startFailed => some false
  | .inBackend _ (.execute _ _) | .inBackend _ (.cleanup _ _) | .inBackend _ (.abort _) => some true
  | .cleaned _ | .aborted _ => some true
  | _ => none

/-- The pipeline of the handler has the flag that the handler relies on. -/
def Relies (names : Finset String) (flags : String → PipelineFlags) (h : Handler) (q : Pc) :
    Prop :=
  ∀ b, expected q = some b → ∃ name ∈ names, drives h = some name ∧ (flags name).active = b ∧
    ∀ other, target q = some other → other = name

structure OneAtATime (names : Finset String) (handlers : Fin n → Handler) (s : State n) :
    Prop where
  arrived : ∀ k h, s.pc k = .arrived h → h = handlers k
  relies : ∀ k, Relies names s.state (handlers k) (s.pc k)
  alone : ∀ j k, j ≠ k → SamePipeline (handlers j) (handlers k) → running (s.pc j) = true →
    running (s.pc k) = false

theorem running_of_expected {q : Pc} {b : Bool} (h : expected q = some b) : running q = true := by
  cases q <;> first | rfl | cases h

theorem relies_of_none {flags : String → PipelineFlags} {h : Handler} {q : Pc}
    (hq : expected q = none) : Relies names flags h q := by
  intro b hb
  rw [hq] at hb
  cases hb

/-- The next place of a handler that goes on with the same pipeline. -/
theorem Relies.next {flags : String → PipelineFlags} {h : Handler} {q r : Pc}
    (hr : Relies names flags h q) (he : expected r = expected q)
    (ht : ∀ other, target r = some other → target q = some other) : Relies names flags h r := by
  intro b hb
  obtain ⟨name, hn, hd, ha, hq⟩ := hr b (he ▸ hb)
  exact ⟨name, hn, hd, ha, fun other ho => hq other (ht other ho)⟩

theorem relies_wake {flags : String → PipelineFlags} {h : Handler} {q : Pc}
    (hr : Relies names flags h q) : Relies names flags h q.wake := by
  cases q with
  | waiting => exact relies_of_none rfl
  | _ => exact hr

section Steps

variable {k : Fin n} {q : Pc}

theorem OneAtATime.drives_target (h : OneAtATime names handlers s) {name : String} {b : Bool}
    (he : expected (s.pc k) = some b) (ht : target (s.pc k) = some name) :
    drives (handlers k) = some name ∧ (s.state name).active = b := by
  obtain ⟨other, -, hd, ha, hq⟩ := h.relies k b he
  obtain rfl := hq name ht
  exact ⟨hd, ha⟩

theorem hop_relies (hl : Located names s) (h : OneAtATime names handlers s) (hop : Hop s e k q) :
    Relies names s.state (handlers k) q := by
  have hk' := h.relies k
  cases hop with
  | refused hk => exact relies_of_none rfl
  | @starting k groupHash name i hlock hk hr ha hi =>
    intro b hb
    cases hb
    refine ⟨name, hl.registered hr, ?_, ha, fun other ho => (Option.some.inj ho).symm⟩
    rw [← h.arrived k _ hk]
    rfl
  | @opened k g name i call hlock hk ho hr ha hi =>
    obtain rfl := h.arrived k g hk
    intro b hb
    refine ⟨name, hl.registered hr, ?_, ?_, fun other ho => (Option.some.inj ho).symm⟩
    · generalize handlers k = g at ho
      cases g <;> cases ho <;> first | rfl | cases hb
    · generalize handlers k = g at ho
      cases g <;> cases ho <;> cases hb <;> exact ha
  | waits hlock hk h0 => exact relies_of_none rfl
  | startFailed hk =>
    rw [hk] at hk'
    exact hk'.next rfl (fun other ho => by cases ho)
  | returned hk hu hq => rcases hq with rfl | rfl <;> exact relies_of_none rfl
  | autoCleanup hk =>
    rw [hk] at hk'
    exact hk'.next rfl fun other ho => ho
  | cleaned hk =>
    rw [hk] at hk'
    exact hk'.next rfl fun other ho => ho
  | aborted hk =>
    rw [hk] at hk'
    exact hk'.next rfl fun other ho => ho
  | woken hk => exact relies_of_none rfl

theorem OneAtATime.goto (h : OneAtATime names handlers s)
    (hq : Relies names s.state (handlers k) q) (ha : ∀ g, q ≠ .arrived g)
    (hr : running (s.pc k) = true ∨
      ∀ j, j ≠ k → SamePipeline (handlers j) (handlers k) → running (s.pc j) = false) :
    OneAtATime names handlers (s.goto k q) := by
  refine ⟨fun j g hj => ?_, fun j => ?_, fun i j hij hp hi => ?_⟩
  · by_cases hjk : j = k
    · rw [hjk, goto_pc_self] at hj
      exact (ha g hj).elim
    · rw [goto_pc_of_ne s q hjk] at hj
      exact h.arrived j g hj
  · by_cases hjk : j = k
    · rw [hjk, goto_pc_self]
      exact hq
    · rw [goto_pc_of_ne s q hjk]
      exact h.relies j
  · have hp' : SamePipeline (handlers j) (handlers i) := ⟨hp.2 ▸ hp.1, hp.2.symm⟩
    by_cases hjk : j = k
    · subst hjk
      rw [goto_pc_of_ne s q hij] at hi
      rcases hr with hr | hr
      · exact (Bool.noConfusion ((h.alone i j hij hp hi).symm.trans hr))
      · exact (Bool.noConfusion ((hr i hij hp).symm.trans hi))
    rw [goto_pc_of_ne s q hjk]
    by_cases hik : i = k
    · subst hik
      rcases hr with hr | hr
      · exact h.alone i j hij hp hr
      · exact hr j hij.symm hp'
    · rw [goto_pc_of_ne s q hik] at hi
      exact h.alone i j hij hp hi

/-- The handler that runs on a pipeline assigns its flags and relies on them no more. -/
theorem OneAtATime.assign (h : OneAtATime names handlers s) {name : String}
    (hd : drives (handlers k) = some name) (hrun : running (s.pc k) = true) (st : PipelineFlags)
    (hq : expected q = none) (ha : ∀ g, q ≠ .arrived g) :
    OneAtATime names handlers ((s.setState name st).goto k q) := by
  have hpc := h.goto (relies_of_none hq) ha (Or.inl hrun)
  refine ⟨hpc.arrived, fun j => ?_, hpc.alone⟩
  by_cases hjk : j = k
  · rw [hjk, goto_pc_self]
    exact relies_of_none hq
  rw [goto_pc_of_ne _ q hjk]
  intro b hb
  obtain ⟨other, hn, ho, hflag, ht⟩ := h.relies j b hb
  refine ⟨other, hn, ho, ?_, ht⟩
  have hne : other ≠ name := by
    rintro rfl
    have hp : SamePipeline (handlers j) (handlers k) := ⟨by simp [ho], ho.trans hd.symm⟩
    exact (Bool.noConfusion ((h.alone j k hjk hp (running_of_expected hb)).symm.trans hrun))
  rw [goto_state, setState_of_ne s st hne]
  exact hflag

theorem running_wake (q : Pc) : running q.wake = running q := by
  cases q <;> rfl

theorem OneAtATime.notifyAll (h : OneAtATime names handlers s) :
    OneAtATime names handlers s.notifyAll := by
  refine ⟨fun k g hk => h.arrived k g ?_, fun k => relies_wake (h.relies k),
    fun i j hij hp hi => ?_⟩
  · rw [notifyAll_pc] at hk
    cases hq : s.pc k <;> rw [hq] at hk <;> first | exact hk | cases hk
  · rw [notifyAll_pc, running_wake] at hi ⊢
    exact h.alone i j hij hp hi

/-- Only the first segment of a handler makes it a running one. -/
theorem hop_begins (hop : Hop s e k q) :
    running (s.pc k) = true ∨ e = .acquire k ∧ ∃ h, s.pc k = .arrived h := by
  cases hop with
  | refused hk => exact Or.inr ⟨rfl, _, hk⟩
  | starting hlock hk hr ha hi => exact Or.inr ⟨rfl, _, hk⟩
  | opened hlock hk ho hr ha hi => exact Or.inr ⟨rfl, _, hk⟩
  | waits hlock hk h0 =>
    rcases hk with hk | hk
    · exact Or.inr ⟨rfl, _, hk⟩
    · exact Or.inl (by rw [hk]; rfl)
  | startFailed hk | returned hk hu hq | autoCleanup hk | cleaned hk | aborted hk | woken hk =>
    exact Or.inl (by rw [hk]; rfl)

theorem hop_not_arrived (hop : Hop s e k q) (g : Handler) : q ≠ .arrived g := by
  cases hop with
  | returned hk hu hq => rcases hq with rfl | rfl <;> exact Pc.noConfusion
  | _ => exact Pc.noConfusion

theorem OneAtATime.free (h : OneAtATime names handlers s) {g : Handler}
    (hk : s.pc k = .arrived g) (hg : NotOverlapping handlers s (.acquire k)) {j : Fin n}
    (hj : j ≠ k) (hp : SamePipeline (handlers j) (handlers k)) : running (s.pc j) = false := by
  refine hg ?_ j hj hp
  rw [hk, h.arrived k g hk]

theorem oneAtATime_move (hl : Located names s) (h : OneAtATime names handlers s)
    (hg : NotOverlapping handlers s e) (m : Move c s e t) : OneAtATime names handlers t := by
  cases m with
  | @hop e k q hop =>
    refine h.goto (hop_relies hl h hop) (hop_not_arrived hop) ?_
    rcases hop_begins hop with hr | ⟨rfl, g, hk⟩
    · exact Or.inl hr
    · exact Or.inr fun j => h.free hk hg
  | @counted k name i hlock hk =>
    have hr := h.relies k
    rw [hk] at hr
    have h' := h.goto (k := k) (q := .inBackend name (.start i)) (hr.next rfl fun other ho => ho)
      (fun g => Pc.noConfusion) (Or.inl (by rw [hk]; rfl))
    exact ⟨h'.arrived, h'.relies, h'.alone⟩
  | @started k name i hk =>
    obtain ⟨hd, -⟩ := h.drives_target (k := k) (b := false) (by rw [hk]; rfl) (by rw [hk]; rfl)
    exact h.assign hd (by rw [hk]; rfl) ⟨true, i⟩ rfl (fun g => Pc.noConfusion)
  | @uncounted k hlock hk =>
    have h' := h.goto (k := k) (q := .notifying) (relies_of_none rfl) (fun g => Pc.noConfusion)
      (Or.inl (by rw [hk]; rfl))
    exact ⟨h'.arrived, h'.relies, h'.alone⟩
  | @deactivated k name i hlock hk =>
    have ht : target (s.pc k) = some name := by rcases hk with hk | hk <;> rw [hk] <;> rfl
    have he : expected (s.pc k) = some true := by rcases hk with hk | hk <;> rw [hk] <;> rfl
    have h' := h.assign (h.drives_target he ht).1 (running_of_expected he) ⟨false, i⟩
      (q := .notifying) rfl (fun g => Pc.noConfusion)
    exact ⟨h'.arrived, h'.relies, h'.alone⟩
  | @destroying k name hd =>
    obtain ⟨-, ⟨token, hk, -⟩, -, -⟩ := hd
    have h' := h.goto (k := k) (q := .inBackend name .destroy) (relies_of_none rfl)
      (fun g => Pc.noConfusion) (Or.inr fun j => h.free hk hg)
    exact ⟨h'.arrived, h'.relies, h'.alone⟩
  | @destroyed k name success hk =>
    have h' := h.goto (k := k) (q := .done) (relies_of_none rfl) (fun g => Pc.noConfusion)
      (Or.inl (by rw [hk]; rfl))
    exact ⟨h'.arrived, h'.relies, h'.alone⟩
  | @left k hlock hk h0 =>
    have h' := h.goto (k := k) (q := .done) (relies_of_none rfl) (fun g => Pc.noConfusion) <| by
      rcases hk with hk | hk
      · exact Or.inr fun j => h.free hk hg
      · exact Or.inl (by rw [hk]; rfl)
    exact ⟨h'.arrived, h'.relies, h'.alone⟩
  | @notified k hk =>
    exact h.notifyAll.goto (relies_of_none rfl) (fun g => Pc.noConfusion)
      (Or.inl (by rw [notifyAll_pc, hk]; rfl))

theorem oneAtATime_next (hl : Located names s) (h : OneAtATime names handlers s)
    (hg : NotOverlapping handlers s e) (c : Config) : OneAtATime names handlers (next c s e) := by
  rcases next_cases c s e with hs | m
  · rwa [hs]
  · exact oneAtATime_move hl h hg m

end Steps

theorem oneAtATime_initial (flags : String → PipelineFlags) (handlers : Fin n → Handler) :
    OneAtATime names handlers (initial names flags handlers) :=
  ⟨fun _ _ hk => (Pc.arrived.inj hk).symm, fun _ => relies_of_none rfl,
    fun _ _ _ _ hj => Bool.noConfusion hj⟩

/-! ## The counter of the pipelines of one provider -/

/-- The names in `m_pipelines`, whose number a `size_t` holds. -/
structure PipelineNames where
  names : Finset String
  fits : names.card < 2 ^ 64

theorem startsCounted_eq (s : State n) :
    startsCounted s = (Finset.univ.filter fun k => counted (s.pc k) = true).card := rfl

theorem activePipelines_eq (names : Finset String) (s : State n) :
    activePipelines names s = (names.filter fun name => (s.state name).active = true).card := rfl

theorem expected_of_counted {q : Pc} (h : counted q = true) : expected q = some false := by
  cases q with
  | inBackend name call => cases call <;> first | rfl | cases h
  | startFailed => rfl
  | _ => cases h

/-- The starts that have passed their checks are on different pipelines, none of which is
active. -/
theorem OneAtATime.room (h : OneAtATime names handlers s) {k : Fin n} {name : String} {i : UInt64}
    (hk : s.pc k = .starting name i) :
    startsCounted s + activePipelines names s + 1 ≤ names.card := by
  classical
  have hk' : k ∉ Finset.univ.filter fun k => counted (s.pc k) = true := by
    intro hm
    have hcounted := (Finset.mem_filter.mp hm).2
    rw [hk] at hcounted
    cases hcounted
  have relies (j : Fin n)
      (hj : j ∈ insert k (Finset.univ.filter fun k => counted (s.pc k) = true)) :
      expected (s.pc j) = some false := by
    rcases Finset.mem_insert.mp hj with rfl | hj
    · rw [hk]
      rfl
    · exact expected_of_counted (Finset.mem_filter.mp hj).2
  have hcard : (insert k (Finset.univ.filter fun k => counted (s.pc k) = true)).card ≤
      (names.filter fun name => ¬ (s.state name).active = true).card := by
    refine Finset.card_le_card_of_injOn (fun j => (drives (handlers j)).getD "") ?_ ?_
    · intro j hj
      obtain ⟨other, hn, hd, ha, -⟩ := h.relies j false (relies j hj)
      simp [hd, hn, ha]
    · intro j hj l hl heq
      obtain ⟨other, -, hd, -, -⟩ := h.relies j false (relies j hj)
      obtain ⟨another, -, hd', -, -⟩ := h.relies l false (relies l hl)
      simp only [hd, hd', Option.getD_some] at heq
      by_contra hjl
      have hp : SamePipeline (handlers j) (handlers l) := ⟨by simp [hd], by rw [hd, hd', heq]⟩
      have hrun := running_of_expected (relies l hl)
      rw [h.alone j l hjl hp (running_of_expected (relies j hj))] at hrun
      cases hrun
  have hsplit := Finset.card_filter_add_card_filter_not (s := names)
    (fun name => (s.state name).active = true)
  rw [Finset.card_insert_of_notMem hk', ← startsCounted_eq] at hcard
  rw [← activePipelines_eq] at hsplit
  omega

/-- Without overlapping requests every event meets the guard of the exact counter. -/
theorem OneAtATime.counterGuard (h : OneAtATime names handlers s) (hfits : names.card < 2 ^ 64)
    (hc : CounterExact names s) (e : Event n) : CounterGuard s e := by
  unfold CounterExact at hc
  constructor
  · cases e with
    | acquire k =>
      intro hlock
      cases hk : s.pc k with
      | starting name i =>
        have hroom := h.room hk
        change s.numActivePipelines.toNat + 1 < 2 ^ 64
        omega
      | cleaned name =>
        exact (h.drives_target (k := k) (b := true) (by rw [hk]; rfl) (by rw [hk]; rfl)).2
      | aborted name =>
        exact (h.drives_target (k := k) (b := true) (by rw [hk]; rfl) (by rw [hk]; rfl)).2
      | _ => trivial
    | _ => trivial
  · cases e with
    | returns k success =>
      cases success with
      | false => trivial
      | true =>
        intro name i hk
        exact (h.drives_target (k := k) (b := false) (by rw [hk]; rfl) (by rw [hk]; rfl)).2
    | _ => trivial

/-! ## Notifications that are still ahead -/

/-- Handler `k` has taken 1 off the counter in the course of the events. -/
def HasDecremented (c : Config) (s : State n) (events : List (Event n)) (k : Fin n) : Prop :=
  ∃ before after, events = before ++ .acquire k :: after ∧
    Decrements (before.foldl (next c) s) (.acquire k)

theorem HasDecremented.snoc {events : List (Event n)} {k : Fin n}
    (h : HasDecremented c s events k) (e : Event n) : HasDecremented c s (events ++ [e]) k := by
  obtain ⟨before, after, rfl, hd⟩ := h
  exact ⟨before, after ++ [e], by simp, hd⟩

theorem hasDecremented_last {events : List (Event n)} {k : Fin n}
    (h : Decrements (events.foldl (next c) s) (.acquire k)) :
    HasDecremented c s (events ++ [.acquire k]) k := ⟨events, [], rfl, h⟩

section Waiting

variable {j k : Fin n} {q : Pc}

theorem goto_notifying (hk : s.pc k ≠ .notifying) (hj : s.pc j = .notifying) :
    (s.goto k q).pc j = .notifying := by
  rwa [goto_pc_of_ne]
  rintro rfl
  exact hk hj

theorem waiting_of_goto (hq : q ≠ .waiting) (hj : (s.goto k q).pc j = .waiting) :
    s.pc j = .waiting := by
  by_cases hjk : j = k
  · rw [hjk, goto_pc_self] at hj
    exact (hq hj).elim
  · rwa [goto_pc_of_ne s q hjk] at hj

theorem wake_ne_waiting (q : Pc) : q.wake ≠ .waiting := by
  cases q <;> exact Pc.noConfusion

theorem hop_not_notifying (hop : Hop s e k q) : s.pc k ≠ .notifying := by
  intro hn
  cases hop with
  | waits hlock hk h0 => rcases hk with hk | hk <;> rw [hn] at hk <;> cases hk
  | refused hk | starting hlock hk hr ha hi | opened hlock hk ho hr ha hi | startFailed hk
  | returned hk hu hq | autoCleanup hk | cleaned hk | aborted hk | woken hk =>
    rw [hn] at hk
    cases hk

/-- How a handler can be waiting on a counter of 0: a handler has just brought it there, it
has wrapped around, or it was so before. -/
theorem move_waiting (m : Move c s e t) (hj : t.pc j = .waiting)
    (h0 : t.numActivePipelines = 0) :
    (∃ k, e = .acquire k ∧ Decrements s e ∧ t.pc k = .notifying) ∨
    (∃ k name i, s.pc k = .starting name i ∧ s.numActivePipelines + 1 = 0) ∨
    (s.pc j = .waiting ∧ s.numActivePipelines = 0 ∧
      ∀ k, s.pc k = .notifying → t.pc k = .notifying) := by
  cases m with
  | @hop e k q hop =>
    refine Or.inr (Or.inr ⟨waiting_of_goto ?_ hj, h0,
      fun _ => goto_notifying (hop_not_notifying hop)⟩)
    rintro rfl
    cases hop with
    | waits hlock hk hne => exact hne h0
    | returned hk hu hq => rcases hq with hq | hq <;> cases hq
  | @counted k name i hlock hk => exact Or.inr (Or.inl ⟨k, name, i, hk, h0⟩)
  | @started k name i hk =>
    exact Or.inr (Or.inr ⟨waiting_of_goto Pc.noConfusion hj, h0,
      fun _ => goto_notifying (by simp [hk])⟩)
  | @uncounted k hlock hk =>
    exact Or.inl ⟨k, rfl, ⟨hlock, Or.inl hk⟩, goto_pc_self s k _⟩
  | @deactivated k name i hlock hk =>
    exact Or.inl ⟨k, rfl, ⟨hlock, Or.inr ⟨name, hk⟩⟩, goto_pc_self _ k _⟩
  | @destroying k name hd =>
    obtain ⟨-, ⟨token, hk, -⟩, -, -⟩ := hd
    exact Or.inr (Or.inr ⟨waiting_of_goto Pc.noConfusion hj, h0,
      fun _ => goto_notifying (by simp [hk])⟩)
  | @destroyed k name success hk =>
    exact Or.inr (Or.inr ⟨waiting_of_goto Pc.noConfusion hj, h0,
      fun _ => goto_notifying (by simp [hk])⟩)
  | @left k hlock hk hz =>
    refine Or.inr (Or.inr ⟨waiting_of_goto Pc.noConfusion hj, h0, fun _ => goto_notifying ?_⟩)
    rcases hk with hk | hk <;> simp [hk]
  | @notified k hk => exact (wake_ne_waiting _ (waiting_of_goto Pc.noConfusion hj)).elim

end Waiting

/-- What holds after the events that have led to the state. -/
structure WakeInvariant (c : Config) (names : Finset String) (handlers : Fin n → Handler)
    (s₀ : State n) (events : List (Event n)) (s : State n) : Prop where
  located : Located names s
  oneAtATime : OneAtATime names handlers s
  counter : CounterExact names s
  pending : ∀ j, s.pc j = .waiting → s.numActivePipelines = 0 →
    ∃ k, HasDecremented c s₀ events k ∧ s.pc k = .notifying

theorem wakeInvariant_next (hfits : names.card < 2 ^ 64) {s₀ : State n} {events : List (Event n)}
    (h : WakeInvariant c names handlers s₀ events (events.foldl (next c) s₀))
    (hg : NotOverlapping handlers (events.foldl (next c) s₀) e) :
    WakeInvariant c names handlers s₀ (events ++ [e])
      (next c (events.foldl (next c) s₀) e) := by
  have hguard := h.oneAtATime.counterGuard hfits h.counter e
  refine ⟨located_next h.located c e, oneAtATime_next h.located h.oneAtATime hg c,
    ((ledger_counterExact_iff h.counter (next_ledger h.located c e)).mpr hguard).1,
    fun j hj h0 => ?_⟩
  rcases next_cases c (events.foldl (next c) s₀) e with hs | m
  · rw [hs] at hj h0 ⊢
    obtain ⟨k, hd, hk⟩ := h.pending j hj h0
    exact ⟨k, hd.snoc e, hk⟩
  rcases move_waiting m hj h0 with ⟨k, rfl, hd, hk⟩ | ⟨k, name, i, hk, hwrap⟩ | ⟨hj, h0, hkeep⟩
  · exact ⟨k, hasDecremented_last hd, hk⟩
  · -- there is room for the increment of every start
    have hroom := h.oneAtATime.room hk
    have hexact : _ = _ := h.counter
    have hz := congrArg UInt64.toNat hwrap
    rw [toNat_add_one, hexact, Nat.mod_eq_of_lt (by omega)] at hz
    cases hz
  · obtain ⟨k, hd, hk⟩ := h.pending j hj h0
    exact ⟨k, hd.snoc e, hkeep k hk⟩

theorem initial_counterExact (names : PipelineNames) (flags : String → PipelineFlags)
    (handlers : Fin n → Handler) :
    CounterExact names.names (initial names.names flags handlers) := by
  unfold CounterExact
  rw [initial_startsCounted, Nat.zero_add, activePipelines_eq]
  refine (UInt64.toNat_ofNat_of_lt' ?_).trans rfl
  exact Nat.lt_of_le_of_lt (Finset.card_filter_le _ _) names.fits

/-- While a leave waits and no pipeline is active, a handler that has taken the last 1 off the
counter can take its next step, which is `notify_all`. -/
theorem waiting_leave_will_be_notified (c : Config) (names : PipelineNames)
    (flags : String → PipelineFlags) (handlers : Fin n → Handler) (events : List (Event n))
    (hg : Guarded (NotOverlapping handlers) (initial names.names flags handlers)
      (path (next c) (initial names.names flags handlers) events)) :
    let s := events.foldl (next c) (initial names.names flags handlers)
    ∀ j, s.pc j = .waiting → s.numActivePipelines = 0 →
      ∃ k, k ≠ j ∧ HasDecremented c (initial names.names flags handlers) events k ∧
        s.pc k = .notifying ∧ step c s (.notify k) = some (s.notifyAll.goto k .done) := by
  intro s j hj h0
  have h := history_invariant (next c)
    (P := fun es s => WakeInvariant c names.names handlers
      (initial names.names flags handlers) es s)
    ⟨located_initial flags handlers, oneAtATime_initial flags handlers,
      initial_counterExact names flags handlers, fun j hj => by cases hj⟩
    (fun es e h hg => wakeInvariant_next names.fits h hg) events hg
  obtain ⟨k, hd, hk⟩ := h.pending j hj h0
  refine ⟨k, ?_, hd, hk, if_pos hk⟩
  rintro rfl
  exact Pc.noConfusion (hj.symm.trans hk)

/-- A leave waits for the cleanup of the iteration that is open. -/
theorem waiting_leave_will_be_notified_after_cleanup :
    let handlers : Fin 3 → Handler := ![.start 0 "p" 1, .cleanup "p" 1, .leave]
    let s := [Event.acquire 0, .acquire 0, .acquire 2, .returns 0 true, .acquire 1,
      .returns 1 true, .acquire 1].foldl (next ⟨"", 0⟩) (initial {"p"} (fun _ => {}) handlers)
    s.pc 2 = .waiting ∧ s.numActivePipelines = 0 ∧ ∃ k, k ≠ 2 ∧ s.pc k = .notifying := by
  intro handlers
  have hnotified := waiting_leave_will_be_notified ⟨"", 0⟩ ⟨{"p"}, by decide⟩
    (fun _ => {}) handlers [.acquire 0, .acquire 0, .acquire 2, .returns 0 true, .acquire 1,
      .returns 1 true, .acquire 1] (by decide)
  dsimp only at hnotified ⊢
  obtain ⟨k, hne, -, hk, -⟩ := hnotified 2 (by decide) (by decide)
  exact ⟨by decide, by decide, k, hne, hk⟩

end LeaveWakeups
