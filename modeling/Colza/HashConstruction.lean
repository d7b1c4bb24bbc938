import Colza.GroupHash

/-!
# The group hash while a provider is constructed

The constructor of a provider registers its callback, reads the view and stores the
computed hash; SSG changes the view and runs the callback at any time between. A change
that the read saw must not be counted again by its callback, and one that it did not see
must not be overwritten by the store.
-/
namespace HashConstruction

open GuardedRuns ToggleDigests GroupHash

/-- What the constructor does next. -/
inductive Stage where
  | registering
  | reading
  | storing (hash : UInt64)
  | built
  deriving DecidableEq, Repr

def Stage.hasRead : Stage → Bool
  | .registering | .reading => false
  | .storing _ | .built => true

/-- A change whose callback has not run yet; `seen` if the constructor had not read the view
when it took effect. -/
structure Pending where
  id : MemberId
  seen : Bool
  deriving DecidableEq, Repr

structure State where
  view : Finset MemberId
  stage : Stage
  groupHash : UInt64
  pending : List Pending
  deriving DecidableEq

inductive Event where
  | construct
  | change (u : Update)
  | callback (k : ℕ)
  deriving DecidableEq, Repr

/-- SSG changes its view and runs the callback later. A callback that comes before the
registration is not the provider's. The two SSG calls of `ComputeGroupHash`, for the size of the
group and for the ids of its members, are one step. -/
inductive Step (s : State) : Event → State → Prop where
  | register : s.stage = .registering → Step s .construct { s with stage := .reading }
  | read {ids} : s.stage = .reading → Lists ids s.view →
      Step s .construct { s with stage := .storing (ComputeGroupHash ids) }
  | store {hash} : s.stage = .storing hash →
      Step s .construct { s with stage := .built, groupHash := hash }
  | change {u view} : Changed s.view u view →
      Step s (.change u) { s with
        view := view, pending := s.pending ++ [⟨u.memberId, !s.stage.hasRead⟩] }
  | unregistered {k p} : s.pending[k]? = some p → s.stage = .registering →
      Step s (.callback k) { s with pending := s.pending.eraseIdx k }
  | callback {k p} : s.pending[k]? = some p → s.stage ≠ .registering →
      Step s (.callback k) { s with
        pending := s.pending.eraseIdx k, groupHash := UpdateGroupHash s.groupHash p.id }

def initial (view : Finset MemberId) : State := ⟨view, .registering, 0, []⟩

/-- A callback that runs between the read and the store for a change that the read did not
see, or after the store for one that it did. -/
def isMisplaced : Stage → Pending → Bool
  | .storing _, p => !p.seen
  | .built, p => p.seen
  | _, _ => false

@[simp] theorem isMisplaced_registering (p : Pending) : isMisplaced .registering p = false := rfl

@[simp] theorem isMisplaced_reading (p : Pending) : isMisplaced .reading p = false := rfl

@[simp] theorem isMisplaced_storing (hash : UInt64) (p : Pending) :
    isMisplaced (.storing hash) p = !p.seen := rfl

@[simp] theorem isMisplaced_built (p : Pending) : isMisplaced .built p = p.seen := rfl

def misplacedBy (s : State) : Event → List MemberId
  | .callback k =>
    match s.pending[k]? with
    | some p => if isMisplaced s.stage p then [p.id] else []
    | none => []
  | _ => []

/-- The ids whose callbacks run at such a moment in a run from `s`. -/
def misplaced : State → List (Event × State) → List MemberId
  | _, [] => []
  | s, (e, t) :: p => misplacedBy s e ++ misplaced t p

/-! ## What the constructor and the callbacks keep -/

/-- What a pending callback still has to do for a hash that is based on the read. -/
def Pending.due (p : Pending) : UInt64 := if p.seen then 0 else p.id

def due (ps : List Pending) : UInt64 := total (fun a b : UInt64 => a ^^^ b) 0 Pending.due ps

/-- The hash that is stored, or about to be, is off by the misplaced ids `m` and by what is
still due. -/
def Balanced (s : State) (m : UInt64) : Prop :=
  match s.stage with
  | .registering | .reading => m = 0 ∧ ∀ p ∈ s.pending, p.seen = true
  | .storing hash => viewHash s.view = hash ^^^ due s.pending ^^^ m
  | .built => viewHash s.view = s.groupHash ^^^ due s.pending ^^^ m

variable {s t : State} {e : Event} {m : UInt64}

theorem due_of_seen {ps : List Pending} (h : ∀ p ∈ ps, p.seen = true) : due ps = 0 := by
  induction ps with
  | nil => rfl
  | cons p ps ih =>
    have hp : p.due = 0 := if_pos (h p (List.mem_cons_self ..))
    have hcons : due (p :: ps) = p.due ^^^ due ps := total_cons p ps
    rw [hcons, hp, ih fun q hq => h q (List.mem_cons_of_mem _ hq)]
    rfl

theorem due_append (ps : List Pending) (p : Pending) : due (ps ++ [p]) = due ps ^^^ p.due := by
  have happend : due (ps ++ [p]) = due ps ^^^ due [p] := total_append xor_selfInverse ps [p]
  have hone : due [p] = p.due ^^^ 0 := total_cons p []
  rw [happend, hone, UInt64.xor_zero]

/-- A callback is no longer due, and it is misplaced if it changes the wrong hash. -/
theorem balanced_callback {k : ℕ} {p : Pending} (h : Balanced s m) (hk : s.pending[k]? = some p)
    (hs : s.stage ≠ .registering) :
    Balanced { s with
        pending := s.pending.eraseIdx k, groupHash := UpdateGroupHash s.groupHash p.id }
      (m ^^^ xorAll (misplacedBy s (.callback k))) := by
  have hdue : due s.pending = p.due ^^^ due (s.pending.eraseIdx k) := total_eraseIdx hk
  have hp : misplacedBy s (.callback k) = if isMisplaced s.stage p then [p.id] else [] := by
    simp only [misplacedBy, hk]
  rw [hp]
  unfold Balanced at h ⊢
  have one : xorAll [p.id] = p.id := UInt64.xor_zero
  have none : xorAll [] = 0 := rfl
  cases hst : s.stage with
  | registering => exact (hs hst).elim
  | reading =>
    rw [hst] at h
    exact ⟨by simpa [none] using h.1, fun q hq => h.2 q (List.mem_of_mem_eraseIdx hq)⟩
  | storing hash =>
    rw [hst, hdue] at h
    cases hseen : p.seen with
    | true =>
      have h0 : p.due = 0 := if_pos hseen
      rw [h0] at h
      simpa [hseen, none] using h
    | false =>
      have h0 : p.due = p.id := by simp [Pending.due, hseen]
      simp only [isMisplaced_storing, hseen, Bool.not_false, if_true, one]
      rw [h0] at h
      rw [h]
      ac_rfl
  | built =>
    rw [hst, hdue] at h
    cases hseen : p.seen with
    | true =>
      have h0 : p.due = 0 := if_pos hseen
      simp only [isMisplaced_built, hseen, if_true, one]
      rw [h0, UInt64.zero_xor] at h
      rw [h, ← xor_selfInverse.cancel (_ ^^^ m) p.id]
      unfold UpdateGroupHash
      ac_rfl
    | false =>
      have h0 : p.due = p.id := by simp [Pending.due, hseen]
      simp only [isMisplaced_built, hseen, Bool.false_eq_true, if_false, none, UInt64.xor_zero]
      rw [h0] at h
      rw [h]
      unfold UpdateGroupHash
      ac_rfl

theorem balanced_change {u : Update} {view : Finset MemberId} (h : Balanced s m)
    (hc : Changed s.view u view) :
    Balanced { s with
      view := view, pending := s.pending ++ [⟨u.memberId, !s.stage.hasRead⟩] } m := by
  have hview : viewHash view = viewHash s.view ^^^ u.memberId := viewHash_changed hc
  have all : ∀ p ∈ s.pending ++ [⟨u.memberId, true⟩],
      (∀ q ∈ s.pending, q.seen = true) → p.seen = true := by
    intro p hp hall
    rcases List.mem_append.mp hp with hp | hp
    · exact hall p hp
    · rw [List.mem_singleton.mp hp]
  unfold Balanced at h ⊢
  cases hst : s.stage with
  | registering | reading =>
    rw [hst] at h
    exact ⟨h.1, fun p hp => all p hp h.2⟩
  | storing _ | built =>
    rw [hst] at h
    have hdue : due (s.pending ++ [⟨u.memberId, false⟩]) = due s.pending ^^^ u.memberId :=
      due_append s.pending _
    simp only [Stage.hasRead, Bool.not_true, hdue, hview, h]
    ac_rfl

@[simp] theorem misplacedBy_construct (s : State) : misplacedBy s .construct = [] := rfl

@[simp] theorem misplacedBy_change (s : State) (u : Update) : misplacedBy s (.change u) = [] := rfl

theorem balanced_step (h : Balanced s m) (hs : Step s e t) :
    Balanced t (m ^^^ xorAll (misplacedBy s e)) := by
  have keep : m ^^^ xorAll [] = m := UInt64.xor_zero
  cases hs with
  | register hst =>
    rw [Balanced, hst] at h
    rw [misplacedBy_construct, keep]
    exact h
  | @read ids hst hids =>
    rw [Balanced, hst] at h
    rw [misplacedBy_construct, keep, Balanced, computeGroupHash_of_lists hids, h.1, due_of_seen h.2]
    exact (UInt64.xor_zero.trans UInt64.xor_zero).symm
  | store hst =>
    rw [Balanced, hst] at h
    rw [misplacedBy_construct, keep]
    exact h
  | change hc =>
    rw [misplacedBy_change, keep]
    exact balanced_change h hc
  | @unregistered k p hk hst =>
    have hnone : misplacedBy s (.callback k) = [] := by
      simp [misplacedBy, hk, hst]
    rw [Balanced, hst] at h
    rw [hnone, keep, Balanced, hst]
    exact ⟨h.1, fun q hq => h.2 q (List.mem_of_mem_eraseIdx hq)⟩
  | callback hk hst => exact balanced_callback h hk hst

theorem balanced_run {p : List (Event × State)} (h : Run Step s p) (hs : Balanced s m) :
    Balanced (final s p) (m ^^^ xorAll (misplaced s p)) := by
  induction h generalizing m with
  | nil s =>
    have keep : m ^^^ xorAll (misplaced s []) = m := UInt64.xor_zero
    rw [keep]
    exact hs
  | @cons s e t p hstep _ ih =>
    have happend : xorAll (misplaced s ((e, t) :: p)) =
        xorAll (misplacedBy s e) ^^^ xorAll (misplaced t p) := total_append xor_selfInverse _ _
    rw [happend, ← UInt64.xor_assoc]
    exact ih (balanced_step hs hstep)

/-- Once the constructor is past the store and no callback is pending. -/
def Delivered (s : State) : Prop := s.stage = .built ∧ s.pending = []

/-- In every state of every run from before the registration. -/
theorem hash_exact_iff_none_misplaced {view : Finset MemberId} {p : List (Event × State)}
    (h : Run Step (initial view) p) (hd : Delivered (final (initial view) p)) :
    (final (initial view) p).groupHash = viewHash (final (initial view) p).view ↔
      xorAll (misplaced (initial view) p) = 0 := by
  have hs : Balanced (initial view) 0 := ⟨rfl, fun p hp => (List.not_mem_nil hp).elim⟩
  have hb := balanced_run h hs
  obtain ⟨hstage, hpending⟩ := hd
  have hdue : due [] = 0 := rfl
  rw [Balanced, hstage, hpending, hdue, UInt64.zero_xor] at hb
  generalize (final (initial view) p).groupHash = hash at hb ⊢
  generalize xorAll (misplaced (initial view) p) = m at hb ⊢
  rw [hb, UInt64.xor_zero]
  constructor
  · intro he
    apply xor_selfInverse.eq_of_op_eq (c := hash)
    rw [UInt64.zero_xor, UInt64.xor_comm]
    exact he.symm
  · intro h0
    rw [h0, UInt64.xor_zero]

/-- Member 7 joins after the read, and the callback runs after the store. -/
theorem hash_exact_after_late_change :
    (⟨{7, 1}, .built, 6, []⟩ : State).groupHash = viewHash {7, 1} := by
  have hlists : Lists [1] {1} := ⟨by decide, by decide⟩
  have hrun : Run Step (initial {1}) [(.construct, ⟨{1}, .reading, 0, []⟩),
      (.construct, ⟨{1}, .storing 1, 0, []⟩),
      (.change (.joined 7), ⟨{7, 1}, .storing 1, 0, [⟨7, false⟩]⟩),
      (.construct, ⟨{7, 1}, .built, 1, [⟨7, false⟩]⟩),
      (.callback 0, ⟨{7, 1}, .built, 6, []⟩)] := by
    refine .cons (.register rfl) (.cons ?_ (.cons ?_ (.cons (.store rfl) ?_)))
    · exact @Step.read _ [1] rfl hlists
    · exact .change (.joined (by decide))
    · exact .cons (.callback (p := ⟨7, false⟩) rfl (by decide)) (.nil _)
  exact (hash_exact_iff_none_misplaced hrun ⟨rfl, rfl⟩).mpr rfl

/-- Member 7 joins before the read, and the callback runs after the store. -/
def countedTwice : List (Event × State) :=
  [(.construct, ⟨{1}, .reading, 0, []⟩),
    (.change (.joined 7), ⟨{7, 1}, .reading, 0, [⟨7, true⟩]⟩),
    (.construct, ⟨{7, 1}, .storing 6, 0, [⟨7, true⟩]⟩),
    (.construct, ⟨{7, 1}, .built, 6, [⟨7, true⟩]⟩),
    (.callback 0, ⟨{7, 1}, .built, 1, []⟩)]

theorem countedTwice_run : Run Step (initial {1}) countedTwice := by
  have hlists : Lists [7, 1] {7, 1} := ⟨by decide, by decide⟩
  refine .cons (.register rfl) (.cons (.change (.joined (by decide))) (.cons ?_ ?_))
  · exact @Step.read _ [7, 1] rfl hlists
  · exact .cons (.store rfl) (.cons (.callback (p := ⟨7, true⟩) rfl (by decide)) (.nil _))

theorem hash_wrong_after_late_callback :
    ¬ ∀ (view : Finset MemberId) (p : List (Event × State)), Run Step (initial view) p →
      Delivered (final (initial view) p) →
        (final (initial view) p).groupHash = viewHash (final (initial view) p).view := by
  intro hall
  have h := hall {1} countedTwice countedTwice_run ⟨rfl, rfl⟩
  exact absurd h (by decide)

end HashConstruction
