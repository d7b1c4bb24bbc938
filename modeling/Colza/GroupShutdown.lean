import Colza.Departures
import Colza.MemberOperations

/-!
# Admin::shutdownGroup while members go down

Each thread looks its rank up in the group as `Admin` observes it when the thread runs, and a
member that another thread has shut down may be missing from it by then. The two SSG calls of a
thread are one step, and find what the group then has. During the call nobody joins the group, and
members leave it only because they were shut down.
-/
namespace GroupShutdown

open Interfaces ClientHandles AdminThreads GuardedRuns
open MemberOperations (step_threads)
open Departures (memberAddr memberAddr_eq Group position_unique getElem?_filter_of_prefix)

/-! ## The call and the members -/

/-- `view` is the group as `Admin` observes it, `found k` the member that thread `k` has sent its
request, and `down` the members whose engines have been finalized. -/
structure State (n : ℕ) where
  admin : AdminThreads.State n
  view : View
  found : Fin n → Option Address
  down : List Address

/-- The size of the group is read before the first thread is created. -/
def initial (view : View) : State view.length :=
  ⟨AdminThreads.initial view.length, view, fun _ => none, []⟩

/-- `answered` is whether the member responds to a request that reaches it; its engine may be gone
before that. `notice` is when SSG tells `Admin` that a member has left. -/
inductive Event (n : ℕ) where
  | admin (e : AdminThreads.Event n) (answered : Bool)
  | finalize (a : Address)
  | notice (a : Address)

section Definitions

variable {n : ℕ}

/-- The functions of the threads. An RPC to a member that is down, or to nobody, throws. -/
def State.shutdownGroup (s : State n) (answered : Bool) : Threads :=
  ⟨0, n, fun k => (memberAddr s.view k).elim (.error (Exception.foreign "")) fun a =>
    if !s.down.contains a && answered then .ok () else .error (Exception.foreign "")⟩

def State.lookedUp (s : State n) : AdminThreads.Event n → Fin n → Option Address
  | .caller => s.found
  | .run k => Function.update s.found k (memberAddr s.view k)

/-- `none` where the event is not possible. -/
def step (escape : Escape) (s : State n) : Event n → Option (State n)
  | .admin e answered =>
    (AdminThreads.step escape (s.shutdownGroup answered) s.admin e).map fun t =>
      { s with admin := t, found := s.lookedUp e }
  | .finalize a =>
    if ∃ k, s.found k = some a then some { s with down := a :: s.down } else none
  | .notice a =>
    if s.down.contains a then some { s with view := s.view.filter fun m => m.2 ≠ a } else none

def Step (escape : Escape) (s : State n) (e : Event n) (t : State n) : Prop :=
  step escape s e = some t

end Definitions

/-- A thread runs before `Admin` misses any of the members up to its rank. -/
def InTime (view : View) (s : State view.length) : Event view.length → Prop
  | .admin (.run k) _ => ∀ j ≤ k, (view.get j).2 ∈ s.view.map Prod.snd
  | .admin .caller _ | .finalize _ | .notice _ => True

/-- Every thread that has run has found the member that had its rank. -/
def OwnMember (view : View) (s : State view.length) : Prop :=
  ∀ k, s.admin.thread k = .done → s.found k = some (view.get k).2

/-- What the loops of the caller have done, whatever the threads meet. -/
structure Called {n : ℕ} (s : AdminThreads.State n) : Prop where
  absent : ∀ k : Fin n, s.caller.created n ≤ k.val → s.thread k = .absent
  created : ∀ k : Fin n, k.val < s.caller.created n → s.thread k ≠ .absent
  joined : ∀ k : Fin n, k.val < s.caller.joined n → s.thread k = .done
  result : ∀ r, s.caller = .ended r → r = .ok ()

/-- `Admin` misses only members, and a thread that has run has found a member with its rank or a
higher one, or nobody. -/
structure Invariant (view : View) (s : State view.length) : Prop where
  observed : ∃ noticed : List Address, s.view = view.filter fun m => m.2 ∉ noticed
  later : ∀ k a, s.found k = some a → ∃ j, k ≤ j ∧ (view.get j).2 = a
  called : Called s.admin

/-! ## Positions -/

/-- An injective function that takes nothing up takes nothing down either. -/
theorem eq_self_of_injective {n : ℕ} {f : Fin n → Fin n} (hf : Function.Injective f)
    (hle : ∀ i, f i ≤ i) (i : Fin n) : f i = i := by
  induction i using WellFoundedLT.induction with
  | ind i ih =>
    by_contra hne
    have hlt : f i < i := lt_of_le_of_ne (hle i) hne
    exact hne (hf (ih (f i) hlt))

/-- What is left of a list stands where it stood, or further up. -/
theorem exists_positions {α : Type} (l : List α) (p : α → Bool) :
    ∃ f : ℕ ↪o ℕ, (∀ i, i ≤ f i) ∧ ∀ i, (l.filter p)[i]? = l[f i]? := by
  obtain ⟨f, hf⟩ := List.sublist_iff_exists_orderEmbedding_getElem?_eq.mp
    (List.filter_sublist (p := p) (l := l))
  exact ⟨f, fun _ => f.strictMono.le_apply, hf⟩

/-- Nothing in front of an element that is in its place has been taken out. -/
theorem eq_self_of_le {f : ℕ ↪o ℕ} (hf : ∀ i, i ≤ f i) {j k : ℕ} (hk : f k = k) (hj : j ≤ k) :
    f j = j := by
  obtain ⟨d, rfl⟩ := Nat.exists_eq_add_of_le' hj
  have hle := f.strictMono.add_le_nat d j
  exact Nat.le_antisymm (by omega) (hf j)

section Lookup

variable {view : View} {noticed : List Address}

/-- A lookup finds a member with this rank or a higher one. -/
theorem memberAddr_later (hg : Group view) {k : Fin view.length} {a : Address}
    (h : memberAddr (view.filter fun m => m.2 ∉ noticed) k = some a) :
    ∃ j, k ≤ j ∧ (view.get j).2 = a := by
  rw [memberAddr_eq (hg.filter _)] at h
  obtain ⟨m, hm, rfl⟩ := Option.map_eq_some_iff.mp h
  obtain ⟨f, hf, hpos⟩ := exists_positions view fun m => m.2 ∉ noticed
  obtain ⟨hlt, rfl⟩ := List.getElem?_eq_some_iff.mp ((hpos k).symm.trans hm)
  exact ⟨⟨f k, hlt⟩, hf k, rfl⟩

/-- A lookup finds the member that had this rank exactly when none up to it is missing. -/
theorem memberAddr_own_iff (hg : Group view) (noticed : List Address) (k : Fin view.length) :
    memberAddr (view.filter fun m => m.2 ∉ noticed) k = some (view.get k).2 ↔
      ∀ j ≤ k, (view.get j).2 ∈ (view.filter fun m => m.2 ∉ noticed).map Prod.snd := by
  rw [memberAddr_eq (hg.filter _)]
  constructor
  · intro h j hj
    obtain ⟨m, hm, ha⟩ := Option.map_eq_some_iff.mp h
    obtain ⟨f, hf, hpos⟩ := exists_positions view fun m => m.2 ∉ noticed
    have hk : f k = k :=
      position_unique hg ((hpos k).symm.trans hm) (List.getElem?_eq_getElem k.isLt) ha
    have hj' := (hpos j).trans (congrArg (view[·]?) (eq_self_of_le hf hk hj))
    rw [List.getElem?_eq_getElem j.isLt] at hj'
    exact List.mem_map_of_mem (List.mem_of_getElem? hj')
  · intro h
    have hstay : (view.filter fun m => m.2 ∉ noticed)[k.val]? = view[k.val]? := by
      refine getElem?_filter_of_prefix fun m hm => ?_
      obtain ⟨j, hj, rfl⟩ := List.mem_take_iff_getElem.mp hm
      have hlt := Nat.lt_min.mp hj
      obtain ⟨m, hm, he⟩ := List.mem_map.mp (h ⟨j, hlt.2⟩ (Nat.le_of_lt_succ hlt.1))
      have hpresent := of_decide_eq_true (List.mem_filter.mp hm).2
      exact decide_eq_true fun hj => hpresent (he ▸ hj)
    rw [hstay, List.getElem?_eq_getElem k.isLt]
    rfl

/-- Members with one address have one rank. -/
theorem rank_unique (hg : Group view) {i j : Fin view.length}
    (h : (view.get i).2 = (view.get j).2) : i = j :=
  Fin.ext (position_unique hg (List.getElem?_eq_getElem i.isLt) (List.getElem?_eq_getElem j.isLt) h)

end Lookup

/-! ## One step -/

section Steps

variable {view : View} {escape : Escape} {s t : State view.length} {e : Event view.length}

theorem Called.step {ts : Threads} {s t : AdminThreads.State ts.size}
    {e : AdminThreads.Event ts.size} (h : Called s)
    (hstep : AdminThreads.Step escape ts s e t) : Called t := by
  have hterm : s.terminated = false := (step_move hstep).1
  have hi : AdminThreads.Invariant ts s := by
    refine ⟨h.created, h.joined, h.result, fun ht => ?_⟩
    rw [hterm] at ht
    cases ht
  have hi' := invariant_step hi hstep
  refine ⟨fun j hj => ?_, hi'.created, hi'.joined, hi'.result⟩
  rcases step_threads hstep with ⟨rfl, ht, hc⟩ | ⟨k, rfl, hs, hc, ht⟩ | ⟨k, rfl, hk, hc, ht⟩
  · have hcreated : t.caller.created ts.size = ts.size := by
      cases hct : t.caller with
      | creating i => exact (hc i hct).elim
      | joining i | ended r => rfl
    rw [hcreated] at hj
    exact (Nat.not_lt_of_le hj j.isLt).elim
  · rw [hc] at hj
    have hlt : k.val < j.val := hj
    rw [ht, Function.update_of_ne (Fin.ne_of_gt hlt)]
    refine h.absent j ?_
    rw [hs]
    exact Nat.le_of_lt hlt
  · rw [hc] at hj
    have habsent := h.absent j hj
    have hjk : j ≠ k := by
      rintro rfl
      cases hk.symm.trans habsent
    rw [ht, Function.update_of_ne hjk]
    exact habsent

/-- Only the thread that runs comes to its end. -/
theorem Called.done {ts : Threads} {s t : AdminThreads.State ts.size}
    {e : AdminThreads.Event ts.size} (h : Called s) (hstep : AdminThreads.Step escape ts s e t) :
    e = .caller ∧ (∀ j, t.thread j = .done ↔ s.thread j = .done) ∨
    ∃ k, e = .run k ∧ s.thread k = .ready ∧
      ∀ j, t.thread j = .done ↔ j = k ∨ s.thread j = .done := by
  rcases step_threads hstep with ⟨rfl, ht, -⟩ | ⟨k, rfl, hs, -, ht⟩ | ⟨k, rfl, hk, -, ht⟩
  · exact Or.inl ⟨rfl, fun j => by rw [ht]⟩
  · refine Or.inl ⟨rfl, fun j => ?_⟩
    rw [ht]
    by_cases hjk : j = k
    · have habsent := h.absent j (by rw [hs, hjk]; exact Nat.le_refl _)
      rw [habsent, hjk, Function.update_self]
      exact iff_of_false Thread.noConfusion Thread.noConfusion
    · rw [Function.update_of_ne hjk]
  · refine Or.inr ⟨k, rfl, hk, fun j => ?_⟩
    rw [ht]
    by_cases hjk : j = k
    · rw [hjk, Function.update_self]
      exact iff_of_true rfl (Or.inl rfl)
    · rw [Function.update_of_ne hjk]
      exact ⟨Or.inr, fun hj => hj.resolve_left hjk⟩

/-- What one event can do. -/
inductive Move {n : ℕ} (escape : Escape) (s : State n) : Event n → State n → Prop where
  | admin {e : AdminThreads.Event n} {answered : Bool} {u : AdminThreads.State n} :
      AdminThreads.Step escape (s.shutdownGroup answered) s.admin e u →
      Move escape s (.admin e answered) { s with admin := u, found := s.lookedUp e }
  | finalize {a : Address} : Move escape s (.finalize a) { s with down := a :: s.down }
  | notice {a : Address} :
      Move escape s (.notice a) { s with view := s.view.filter fun m => m.2 ≠ a }

theorem move_of_step (h : Step escape s e t) : Move escape s e t := by
  unfold Step step at h
  cases e with
  | admin e answered =>
    obtain ⟨u, hu, rfl⟩ := Option.map_eq_some_iff.mp h
    exact .admin hu
  | finalize a =>
    dsimp only at h
    split at h
    · cases h
      exact .finalize
    · cases h
  | notice a =>
    dsimp only at h
    split at h
    · cases h
      exact .notice
    · cases h

theorem Invariant.step (h : Invariant view s) (hg : Group view) (hstep : Step escape s e t) :
    Invariant view t := by
  obtain ⟨noticed, hview⟩ := h.observed
  cases move_of_step hstep with
  | @admin e answered u hu =>
    refine ⟨h.observed, fun k a hk => ?_, h.called.step hu⟩
    cases e with
    | caller => exact h.later k a hk
    | run j =>
      change Function.update s.found j (memberAddr s.view j) k = some a at hk
      by_cases hkj : k = j
      · rw [hkj, Function.update_self, hview] at hk
        rw [hkj]
        exact memberAddr_later hg hk
      · rw [Function.update_of_ne hkj] at hk
        exact h.later k a hk
  | finalize => exact ⟨h.observed, h.later, h.called⟩
  | @notice a =>
    refine ⟨⟨a :: noticed, ?_⟩, h.later, h.called⟩
    simp only [hview, List.filter_filter, List.mem_cons, not_or, Bool.decide_and]

theorem Invariant.done (h : Invariant view s) {e : AdminThreads.Event view.length}
    {answered : Bool} {u : AdminThreads.State view.length}
    (hu : AdminThreads.Step escape (s.shutdownGroup answered) s.admin e u) :
    e = .caller ∧ (∀ j, u.thread j = .done ↔ s.admin.thread j = .done) ∨
    ∃ k : Fin view.length, e = .run k ∧ s.admin.thread k = .ready ∧
      ∀ j, u.thread j = .done ↔ j = k ∨ s.admin.thread j = .done :=
  h.called.done hu

/-- A thread that runs finds its own member exactly when it runs in time. -/
theorem Invariant.own_iff (h : Invariant view s) (hg : Group view) (hown : OwnMember view s)
    (hstep : Step escape s e t) : OwnMember view t ↔ InTime view s e := by
  obtain ⟨noticed, hview⟩ := h.observed
  cases move_of_step hstep with
  | @admin e answered u hu =>
    rcases h.done hu with ⟨rfl, hdone⟩ | ⟨k, rfl, hk, hdone⟩
    · exact iff_of_true (fun j hj => hown j ((hdone j).mp hj)) trivial
    · have hlookup := memberAddr_own_iff hg noticed k
      rw [← hview] at hlookup
      refine Iff.trans ⟨fun hall => ?_, fun hfound j hj => ?_⟩ hlookup
      · have hfound := hall k ((hdone k).mpr (Or.inl rfl))
        change Function.update s.found k (memberAddr s.view k) k = _ at hfound
        rwa [Function.update_self] at hfound
      · change Function.update s.found k (memberAddr s.view k) j = _
        by_cases hjk : j = k
        · rw [hjk, Function.update_self]
          exact hfound
        · rw [Function.update_of_ne hjk]
          exact hown j (((hdone j).mp hj).resolve_left hjk)
  | finalize | notice => exact iff_of_true hown trivial

/-- A thread that has run does not run again. -/
theorem Invariant.own_of_step (h : Invariant view s) (hown : OwnMember view t)
    (hstep : Step escape s e t) : OwnMember view s := by
  cases move_of_step hstep with
  | @admin e answered u hu =>
    intro j hj
    rcases h.done hu with ⟨rfl, hdone⟩ | ⟨k, rfl, hk, hdone⟩
    · exact hown j ((hdone j).mpr hj)
    · have hjk : j ≠ k := by
        rintro rfl
        cases hk.symm.trans hj
      have hfound := hown j ((hdone j).mpr (Or.inr hj))
      change Function.update s.found k (memberAddr s.view k) j = _ at hfound
      rwa [Function.update_of_ne hjk] at hfound
  | finalize | notice => exact hown

end Steps

/-! ## Whole calls -/

section Runs

variable {view : View} {escape : Escape} {s : State view.length}

theorem invariant_initial (view : View) : Invariant view (initial view) := by
  refine ⟨⟨[], ?_⟩, fun k a hk => (by cases hk), fun k _ => rfl, fun k hk => ?_, fun k hk => ?_,
    fun r hr => (by cases hr)⟩
  · exact (List.filter_eq_self.mpr fun m _ => decide_eq_true List.not_mem_nil).symm
  · exact (Nat.not_lt_zero _ hk).elim
  · exact (Nat.not_lt_zero _ hk).elim

/-- Each thread has found its own member if every member has been found. -/
theorem Invariant.everyone_iff (h : Invariant view s) (hg : Group view)
    (hall : ∀ k, s.admin.thread k = .done) :
    (∀ m ∈ view, ∃ k, s.found k = some m.2) ↔ OwnMember view s := by
  constructor
  · intro hfound k _
    choose f hf using fun j : Fin view.length => hfound (view.get j) (List.getElem_mem j.isLt)
    have hinjective : Function.Injective f := by
      intro i j hij
      refine rank_unique hg (Option.some.inj ?_)
      rw [← hf i, ← hf j, hij]
    have hle : ∀ j, f j ≤ j := by
      intro j
      obtain ⟨i, hi, ha⟩ := h.later (f j) _ (hf j)
      exact rank_unique hg ha ▸ hi
    have hself := eq_self_of_injective hinjective hle k
    rw [← hf k, hself]
  · intro hown m hm
    obtain ⟨k, hk, rfl⟩ := List.getElem_of_mem hm
    exact ⟨⟨k, hk⟩, hown ⟨k, hk⟩ (hall _)⟩

/-- A call of `shutdownGroup` that returns has sent a request to every member exactly when each
thread has run before `Admin` missed a member up to its rank; and in no case to somebody else. -/
theorem everyone_is_asked_iff {view : View} (hg : Group view) {escape : Escape}
    {p : List (Event view.length × State view.length)}
    (h : Run (Step escape) (initial view) p)
    (he : ∃ r, (final (initial view) p).admin.caller = .ended r) :
    (final (initial view) p).admin.caller = .ended (.ok ()) ∧
    (∀ k a, (final (initial view) p).found k = some a → ∃ m ∈ view, m.2 = a) ∧
    ((∀ m ∈ view, ∃ k, (final (initial view) p).found k = some m.2) ↔
      Guarded (InTime view) (initial view) p) := by
  have hi := h.reaches.invariant (fun _ _ _ hs => hs.step hg) (invariant_initial view)
  obtain ⟨r, hr⟩ := he
  have hall : ∀ k, (final (initial view) p).admin.thread k = .done :=
    fun k => hi.called.joined k (by rw [hr]; exact k.isLt)
  refine ⟨hi.called.result r hr ▸ hr, fun k a hk => ?_, ?_⟩
  · obtain ⟨j, -, ha⟩ := hi.later k a hk
    exact ⟨(view.get j), List.getElem_mem j.isLt, ha⟩
  · have hown : OwnMember view (initial view) := fun _ hk => Thread.noConfusion hk
    rw [hi.everyone_iff hg hall, ← always_iff_guarded_of (I := fun s => Invariant view s ∧
      OwnMember view s) ?_ h ⟨invariant_initial view, hown⟩ hown]
    · constructor
      · intro hlast
        exact always_of_final (fun s e t hs => hs.step hg)
          (fun s e t hs hst ht => hs.own_of_step ht hst) h (invariant_initial view) hlast
      · exact fun ha => ha.last
    · rintro s e t ⟨hs, hown⟩ hst
      have hiff := hs.own_iff hg hown hst
      exact ⟨hiff, fun hin => ⟨hs.step hg hst, hiff.mpr hin⟩⟩

end Runs

/-- The state after an event, and the same state where it is not possible. -/
def next {n : ℕ} (escape : Escape) (s : State n) (e : Event n) : State n :=
  (step escape s e).getD s

def Possible {n : ℕ} (escape : Escape) (s : State n) (e : Event n) : Prop :=
  (step escape s e).isSome

theorem step_next {n : ℕ} {escape : Escape} {s : State n} {e : Event n}
    (h : Possible escape s e) : Step escape s e (next escape s e) := by
  obtain ⟨t, ht⟩ := Option.isSome_iff_exists.mp h
  unfold Step next
  rw [ht, Option.getD_some]

instance {n : ℕ} (escape : Escape) (s : State n) (e : Event n) :
    Decidable (Possible escape s e) :=
  inferInstanceAs (Decidable ((step escape s e).isSome = true))

instance (view : View) (s : State view.length) :
    (e : Event view.length) → Decidable (InTime view s e)
  | .admin (.run k) _ => inferInstanceAs (Decidable (∀ j ≤ k, (view.get j).2 ∈ s.view.map Prod.snd))
  | .admin .caller _ | .finalize _ | .notice _ => inferInstanceAs (Decidable True)

def twoServers : View := [(4, [97]), (7, [98])]

/-- The first thread shuts its member down before the second one runs; `Admin` notices it after
that, or before. -/
def early : List (Event twoServers.length) :=
  [.admin .caller true, .admin .caller true, .admin .caller true,
    .admin (.run ⟨0, by decide⟩) true, .finalize [97], .admin (.run ⟨1, by decide⟩) true,
    .notice [97], .admin .caller true, .admin .caller true, .admin .caller true]

def late : List (Event twoServers.length) :=
  [.admin .caller true, .admin .caller true, .admin .caller true,
    .admin (.run ⟨0, by decide⟩) true, .finalize [97], .notice [97],
    .admin (.run ⟨1, by decide⟩) true, .admin .caller true, .admin .caller true,
    .admin .caller true]

/-- The second thread finds its own member, or nobody, and the call returns all the same. -/
theorem second_thread_in_time_or_not :
    (∃ p, Run (Step .lost) (initial twoServers) p ∧
      ∀ m ∈ twoServers, ∃ k, (final (initial twoServers) p).found k = some m.2) ∧
    ∃ p, Run (Step .lost) (initial twoServers) p ∧
      (final (initial twoServers) p).admin.caller = .ended (.ok ()) ∧
      ¬ ∀ m ∈ twoServers, ∃ k, (final (initial twoServers) p).found k = some m.2 := by
  have hg : Group twoServers := ⟨⟨by decide, by decide⟩, by decide⟩
  have hearly := path_run_of (next .lost) (fun _ _ => step_next) (initial twoServers) early
    (by decide)
  have hlate := path_run_of (next .lost) (fun _ _ => step_next) (initial twoServers) late
    (by decide)
  obtain ⟨-, -, hiff⟩ := everyone_is_asked_iff hg hearly ⟨_, rfl⟩
  obtain ⟨hok, -, hiff'⟩ := everyone_is_asked_iff hg hlate ⟨_, rfl⟩
  refine ⟨⟨_, hearly, hiff.mpr (by decide)⟩, _, hlate, hok, fun h => ?_⟩
  exact absurd (hiff'.mp h) (by decide)

end GroupShutdown
