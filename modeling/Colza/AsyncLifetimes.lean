import Colza.AsyncRequests

/-!
# The last object of a request

Whenever an object lets go of a request, another object still holds the request, or the
request has been waited for.
-/
namespace AsyncLifetimes

open FiniteCounts Interfaces GuardedRuns ReplyCallbacks AsyncRequests

/-- How often the callback of a request was run. -/
def callbackRuns (b : Book) (r : RequestId) : ℕ := b.callbacks.countP fun c => c.1 = r

/-- Every callback that was run has returned. -/
def Quiet (b : Book) : Prop := ∀ c ∈ b.callbacks, c.2 = .returned

def Waited (b : Book) (r : RequestId) : Prop := ∃ impl ∈ b.impls[r]?, impl.waited = true

instance (b : Book) : Decidable (Quiet b) := inferInstanceAs (Decidable (∀ _ ∈ _, _))

instance (b : Book) (r : RequestId) : Decidable (Waited b r) :=
  inferInstanceAs (Decidable (∃ _ ∈ _, _))

/-- Some object holds the request. -/
def Held (h : Finmap fun _ : Handle => Option RequestId) (r : RequestId) : Prop :=
  ∃ v, h.lookup v = some (some r)

/-- No callback is run twice, and a request that no object holds had its callback run. -/
structure Settled (s : State) : Prop where
  once : ∀ r, callbackRuns s.book r ≤ 1
  last : ∀ r < s.book.impls.length, ¬ Held s.handles r → callbackRuns s.book r = 1

structure Invariant (s : State) : Prop where
  rest : AtRest s
  counted : ∀ r, callbackRuns s.book r = if Waited s.book r then 1 else 0
  kept : ∀ r < s.book.impls.length, Waited s.book r ∨ Held s.handles r

theorem Invariant.settled {s : State} (h : Invariant s) : Settled s := by
  constructor
  case once =>
    intro r
    rw [h.counted]
    split <;> omega
  case last =>
    intro r hr hfree
    rw [h.counted, if_pos ((h.kept r hr).resolve_right hfree)]

section Books

variable {b : Book} {r q : RequestId} {impl : AsyncRequestImpl}

theorem waited_issue (b : Book) (hw : impl.waited = false) :
    Waited (b.issue impl) r ↔ Waited b r := by
  unfold Waited Book.issue
  rcases Nat.lt_trichotomy r b.impls.length with hlt | rfl | hgt
  · rw [List.getElem?_append_left hlt]
  · simp [hw]
  · rw [List.getElem?_eq_none (by simp; omega), List.getElem?_eq_none (by omega)]

/-- What a wait for an issued request does when no callback throws. -/
structure Awaited (b : Book) (q : RequestId) : Prop where
  returned : (b.wait q).2 = .returned
  waited : ∀ r, Waited (b.wait q).1 r ↔ Waited b r ∨ r = q
  runs : ∀ r, callbackRuns (b.wait q).1 r =
    callbackRuns b r + if r = q ∧ ¬ Waited b q then 1 else 0

theorem awaited (hq : q < b.impls.length) (hquiet : Quiet (b.wait q).1) : Awaited b q := by
  have himpl := List.getElem?_eq_getElem hq
  have hwaited : Waited b q ↔ b.impls[q].waited = true := by
    unfold Waited
    rw [himpl]
    simp
  by_cases hw : b.impls[q].waited = true
  · have heq := wait_waited himpl hw
    constructor
    case returned => rw [heq]
    case waited =>
      intro r
      rw [heq]
      exact ⟨Or.inl, fun h => h.elim id fun hr => hr ▸ hwaited.mpr hw⟩
    case runs =>
      intro r
      rw [heq, if_neg fun h => h.2 (hwaited.mpr hw)]
      rfl
  · have heq := wait_open himpl hw
    rw [heq] at hquiet
    have hout : (b.impls[q].callback.run b.impls[q].responses).outcome = .returned :=
      hquiet _ (List.mem_append_right _ (List.mem_singleton_self _))
    constructor
    case returned => rw [heq, hout]
    case waited =>
      intro r
      rw [heq]
      unfold Waited Book.runCallback
      by_cases hr : r = q
      · subst hr
        rw [List.getElem?_set_self hq]
        simp [hout]
      · rw [List.getElem?_set_ne (Ne.symm hr)]
        exact (or_iff_left hr).symm
    case runs =>
      intro r
      rw [heq]
      unfold callbackRuns Book.runCallback
      rw [List.countP_append, List.countP_singleton]
      simp only [decide_eq_true_eq, eq_comm (a := q), hwaited.not.mpr hw, not_false_eq_true,
        and_true]

/-- Callbacks that were run stay on record. -/
theorem settle_callbacks (b : Book) (t : Option RequestId) {c : RequestId × Outcome}
    (hc : c ∈ b.callbacks) : c ∈ (b.settle t).1.callbacks := by
  cases t with
  | none => exact hc
  | some q =>
    simp only [Book.settle]
    cases hq : b.impls[q]? with
    | none =>
      rw [wait_unissued hq]
      exact hc
    | some impl =>
      by_cases hw : impl.waited = true
      · rw [wait_waited hq hw]
        exact hc
      · rw [wait_open hq hw]
        exact List.mem_append_left _ hc

end Books

section Holders

variable {s : State} {h : Finmap fun _ : Handle => Option RequestId} {v w : Handle}
  {r : RequestId} {self : Option RequestId}

theorem Held.insert_other (hw : h.lookup w = some (some r)) (hne : w ≠ v) :
    Held (h.insert v self) r :=
  ⟨w, by rw [Finmap.lookup_insert_of_ne _ hne, hw]⟩

theorem Held.insert_self (h : Finmap fun _ : Handle => Option RequestId) (v : Handle)
    (r : RequestId) : Held (h.insert v (some r)) r :=
  ⟨v, Finmap.lookup_insert _⟩

/-- An object that does not wait for its request shares it with another one. -/
theorem holder_besides (hs : AtRest s) (hheld : Held s.handles r) (halone : s.alone v ≠ some r) :
    ∃ w, w ≠ v ∧ s.handles.lookup w = some (some r) := by
  obtain ⟨w, hw⟩ := hheld
  by_cases hwv : w = v
  · subst hwv
    have huse : s.useCount r ≠ 1 := fun huse =>
      halone (alone_eq_some.mpr ⟨self_eq_some.mpr hw, huse⟩)
    have hcount := countEntries_erase (fun self => self = some r) s.handles w
    have hrest : s.useCount r = countEntries (fun self => self = some r) s.handles := by
      unfold State.useCount
      rw [hs.locals]
      rfl
    rw [if_pos ⟨some r, hw, rfl⟩, ← hrest] at hcount
    by_contra hnone
    have hzero : countEntries (fun self => self = some r) (s.handles.erase w) = 0 := by
      rw [countEntries_eq_zero]
      rintro u self hu rfl
      by_cases huw : u = w
      · rw [huw, Finmap.lookup_erase] at hu
        cases hu
      · rw [Finmap.lookup_erase_ne huw] at hu
        exact hnone ⟨u, huw, hu⟩
    omega
  · exact ⟨w, hwv, hw⟩

theorem lookup_live {x : ℕ} (hx : ¬ Live s x) (hv : s.handles.lookup v = some (some r)) :
    v ≠ .user x := by
  rintro rfl
  exact hx (Finmap.mem_of_lookup_eq_some hv)

/-- An operation that does not wait for a request leaves it with an object. -/
theorem held_handlesAfter (hs : AtRest s) {op : Operation} (hop : Allowed s op)
    (hheld : Held s.handles r) (ht : target s op ≠ some r) : Held (handlesAfter s op) r := by
  cases op with
  | construct x =>
    obtain ⟨w, hw⟩ := hheld
    exact .insert_other hw (lookup_live hop hw)
  | copyConstruct x other =>
    obtain ⟨w, hw⟩ := hheld
    exact .insert_other hw (lookup_live hop.1 hw)
  | moveConstruct x other =>
    obtain ⟨w, hw⟩ := hheld
    have hwx := lookup_live hop.1 hw
    by_cases hother : w = .user other
    · subst hother
      have hself : s.self (.user other) = some r := self_eq_some.mpr hw
      simp only [handlesAfter, hself]
      exact .insert_other (Finmap.lookup_insert _) hwx.symm
    · refine .insert_other ?_ hother
      rw [Finmap.lookup_insert_of_ne _ hwx, hw]
  | copyAssign x other =>
    simp only [handlesAfter, target] at ht ⊢
    split
    · exact hheld
    next hsame =>
      rw [if_neg hsame] at ht
      obtain ⟨w, hwx, hw⟩ := holder_besides hs hheld ht
      exact .insert_other hw hwx
  | moveAssign x other =>
    simp only [handlesAfter, target] at ht ⊢
    split
    · exact hheld
    next hsame =>
      rw [if_neg hsame] at ht
      obtain ⟨w, hwx, hw⟩ := holder_besides hs hheld ht
      by_cases hother : w = .user other
      · -- The request moves along.
        subst hother
        rw [self_eq_some.mpr hw]
        exact .insert_other (Finmap.lookup_insert _) hwx.symm
      · refine .insert_other ?_ hother
        rw [Finmap.lookup_insert_of_ne _ hwx, hw]
  | wait x => exact hheld
  | destroy x =>
    obtain ⟨w, hwx, hw⟩ := holder_besides hs hheld ht
    exact ⟨w, by rw [handlesAfter, Finmap.lookup_erase_ne hwx, hw]⟩
  | issue x call =>
    simp only [handlesAfter, target] at ht ⊢
    split
    · exact hheld
    next hissues =>
      rw [if_neg hissues] at ht
      obtain ⟨w, hwx, hw⟩ := holder_besides hs hheld ht
      exact .insert_other hw hwx

end Holders

section Runs

variable {s t : State} {op : Operation}

/-- Opening a request changes the record of no other one. -/
theorem opened_record (s : State) (op : Operation) :
    (opened s op).callbacks = s.book.callbacks ∧
      ∀ r, Waited (opened s op) r ↔ Waited s.book r := by
  unfold opened
  split
  next x call =>
    cases himpl : call.impl with
    | none => exact ⟨rfl, fun _ => Iff.rfl⟩
    | some impl => exact ⟨rfl, fun _ => waited_issue s.book (impl_responses himpl).1⟩
  next => exact ⟨rfl, fun _ => Iff.rfl⟩

/-- A request is new, and an object holds it, or it was there before. -/
theorem opened_issued {r : RequestId} (hr : r < (opened s op).impls.length) :
    r < s.book.impls.length ∨ Held (handlesAfter s op) r := by
  unfold opened at hr
  split at hr
  next x call =>
    cases himpl : call.impl with
    | none =>
      rw [himpl] at hr
      exact Or.inl hr
    | some impl =>
      rw [himpl] at hr
      have hr : r < (s.book.impls ++ [impl]).length := hr
      rw [List.length_append, List.length_singleton] at hr
      rcases Nat.lt_succ_iff_lt_or_eq.mp hr with hlt | rfl
      · exact Or.inl hlt
      · right
        simp only [handlesAfter, himpl, reduceCtorEq, if_false]
        exact .insert_self ..
  next => exact Or.inl hr

/-- The wait of an operation returns, and it runs the callback of a request that has not been
waited for. -/
theorem settle_record (hs : Invariant s)
    (hquiet : Quiet ((opened s op).settle (target s op)).1) :
    ((opened s op).settle (target s op)).2 = .returned ∧
      (∀ r, Waited ((opened s op).settle (target s op)).1 r ↔
        Waited s.book r ∨ target s op = some r) ∧
      ∀ r, callbackRuns ((opened s op).settle (target s op)).1 r =
        if Waited ((opened s op).settle (target s op)).1 r then 1 else 0 := by
  obtain ⟨hcallbacks, hwaited⟩ := opened_record s op
  have hruns (r : RequestId) : callbackRuns (opened s op) r = if Waited s.book r then 1 else 0 := by
    rw [← hs.counted r]
    unfold callbackRuns
    rw [hcallbacks]
  cases htarget : target s op with
  | none =>
    refine ⟨rfl, fun r => ?_, fun r => ?_⟩
    · simp [Book.settle, hwaited r]
    · simp only [Book.settle, hruns r, hwaited r]
  | some q =>
    rw [htarget] at hquiet
    have hq : q < (opened s op).impls.length :=
      Nat.lt_of_lt_of_le (target_issued hs.rest htarget) (opened_length s op)
    obtain ⟨hreturned, hnew, hcount⟩ := awaited hq hquiet
    simp only [Book.settle]
    refine ⟨hreturned, fun r => ?_, fun r => ?_⟩
    · rw [hnew r, hwaited r, Option.some.injEq, eq_comm]
    · simp only [hcount r, hruns r, hnew r, hwaited]
      by_cases hr : r = q
      · subst hr
        by_cases hw : Waited s.book r <;> simp [hw]
      · simp [hr]

/-- While all callbacks return, no operation loses a request. -/
theorem step_invariant (hs : Invariant s) (h : Step s op t) (hquiet : Quiet t.book) :
    Invariant t := by
  rw [h.eq_after hs.rest] at hquiet ⊢
  obtain ⟨hreturned, hwaited, hcounted⟩ := settle_record hs hquiet
  have hrest := after_atRest hs.rest op
  have hhandles : (after s op).handles = handlesAfter s op := by
    change (if ((opened s op).settle (target s op)).2 = .returned then _ else _) = _
    rw [if_pos hreturned]
  refine ⟨hrest, hcounted, fun r hr => ?_⟩
  rw [hhandles]
  by_cases hdone : Waited s.book r ∨ target s op = some r
  · exact Or.inl ((hwaited r).mpr hdone)
  · obtain ⟨hopen, htarget⟩ := not_or.mp hdone
    right
    have hr : r < (opened s op).impls.length := settle_length (opened s op) (target s op) ▸ hr
    rcases opened_issued hr with hold | hnew
    · exact held_handlesAfter hs.rest h.2.1 ((hs.kept r hold).resolve_left hopen) htarget
    · exact hnew

theorem step_quiet (hs : AtRest s) (h : Step s op t) (hquiet : Quiet t.book) : Quiet s.book := by
  rw [h.eq_after hs] at hquiet
  intro c hc
  apply hquiet c
  apply settle_callbacks
  rw [(opened_record s op).1]
  exact hc

theorem initial_invariant : Invariant initial where
  rest := initial_atRest
  counted r := by simp [initial, callbackRuns, Waited]
  kept r hr := (Nat.not_lt_zero r hr).elim

/-- For every sequence of calls and of operations on the objects. -/
theorem callbacks_run_once {p : List (Operation × State)} (h : Run Step initial p)
    (hquiet : Quiet (final initial p).book) : Always Settled initial p := by
  have hall : Always (fun s => Quiet s.book) initial p :=
    always_of_final (I := AtRest) (fun _ _ _ hs h => h.atRest hs) (fun _ _ _ => step_quiet) h
      initial_atRest hquiet
  have hinv : Always Invariant initial p :=
    always_along (P := fun s => Quiet s.book) (fun _ _ _ => step_invariant) h initial_invariant
      hall
  exact ⟨hinv.1.settled, fun x hx => (hinv.2 x hx).settled⟩

end Runs

/-! A request is copied, the first object is used again, and it gives way to itself and then to
the second object. -/

def reused : List Operation :=
  [.construct 0, .issue 0 (.pipelineHandle true ⟨true, "", 7⟩), .copyConstruct 1 0,
    .issue 0 (.distributedPipelineHandle false [⟨true, "", 0⟩, ⟨true, "", 0⟩]), .copyAssign 0 0,
    .moveAssign 1 0, .destroy 0, .destroy 1]

theorem reused_runs_once : Always Settled initial (path next initial reused) :=
  callbacks_run_once (path_run_possible (by decide)) (by decide)

end AsyncLifetimes
