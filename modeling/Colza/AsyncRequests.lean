import Colza.FiniteCounts
import Colza.GuardedRuns
import Colza.ReplyCallbacks

/-!
# Asynchronous requests and their handles

Any number of `AsyncRequest` objects share the requests that asynchronous calls have issued.
Assignments and the destructor wait for a request when the object is the only one that holds
it. An exception that a wait throws in a destructor ends the program.
-/
namespace AsyncRequests

open FiniteCounts Interfaces GuardedRuns ReplyCallbacks

/-! ## Requests -/

abbrev RequestId := ℕ

/-- Which callback a request was issued with. -/
inductive Callback where
  | first (given : Bool)
  | all (given : Bool)
  deriving DecidableEq, Repr

def Callback.run : Callback → List Reply → Ran
  | .first given => waitFirst given
  | .all given => waitAll given

/-- `responses` are the replies that the responses will have. -/
structure AsyncRequestImpl where
  responses : List Reply
  waited : Bool := false
  callback : Callback
  deriving DecidableEq, Repr

/-- All requests that were issued, by number, with what has been done to them: the waits and
how they ended, the callbacks that were run, and the responses that were waited for. -/
structure Book where
  impls : List AsyncRequestImpl
  waits : List (RequestId × Outcome)
  callbacks : List (RequestId × Outcome)
  consumed : List (RequestId × ℕ)
  deriving DecidableEq, Repr

namespace Book

def issue (b : Book) (impl : AsyncRequestImpl) : Book := { b with impls := b.impls ++ [impl] }

/-- The callback empties the responses before it may throw. -/
def runCallback (b : Book) (r : RequestId) (impl : AsyncRequestImpl) (ran : Ran) : Book where
  impls := b.impls.set r { impl with
    responses := if ran.outcome = .outOfRange then impl.responses else []
    waited := ran.outcome = .returned }
  waits := b.waits ++ [(r, ran.outcome)]
  callbacks := b.callbacks ++ [(r, ran.outcome)]
  consumed := b.consumed ++ (List.range ran.consumed).map fun j => (r, j)

/-- `AsyncRequest::wait` on an object that holds request `r`. -/
def wait (b : Book) (r : RequestId) : Book × Outcome :=
  match b.impls[r]? with
  | none => (b, .returned)
  | some impl =>
    if impl.waited then ({ b with waits := b.waits ++ [(r, .returned)] }, .returned)
    else
      let ran := impl.callback.run impl.responses
      (b.runCallback r impl ran, ran.outcome)

end Book

/-! ## Handles -/

/-- An object of the user, or the temporary of a call that issues a request. -/
inductive Handle where
  | user (x : ℕ)
  | temporary
  deriving DecidableEq, Repr

/-- The live objects with their `self`, and the shared pointers of the call that is running. -/
@[ext] structure State where
  handles : Finmap fun _ : Handle => Option RequestId
  locals : List RequestId
  book : Book
  halted : Bool

namespace State

def self (s : State) (v : Handle) : Option RequestId := (s.handles.lookup v).join

def useCount (s : State) (r : RequestId) : ℕ :=
  countEntries (fun self => self = some r) s.handles + s.locals.count r

def set (s : State) (v : Handle) (self : Option RequestId) : State :=
  { s with handles := s.handles.insert v self }

def wait (s : State) (self : Option RequestId) : State × Outcome :=
  match self with
  | none => (s, .returned)
  | some r => ({ s with book := (s.book.wait r).1 }, (s.book.wait r).2)

/-- `if(self && self.unique()) wait();` -/
def waitIfUnique (s : State) (v : Handle) : State × Outcome :=
  match s.self v with
  | none => (s, .returned)
  | some r => if s.useCount r = 1 then s.wait (some r) else (s, .returned)

def destroy (s : State) (v : Handle) : State :=
  match s.waitIfUnique v with
  | (s, .returned) => { s with handles := s.handles.erase v }
  | (s, _) => { s with halted := true }

def copyAssign (s : State) (v other : Handle) : State × Outcome :=
  if v = other ∨ s.self v = s.self other then (s, .returned)
  else match s.waitIfUnique v with
  | (s, .returned) => (s.set v (s.self other), .returned)
  | (s, outcome) => (s, outcome)

def moveAssign (s : State) (v other : Handle) : State × Outcome :=
  if v = other ∨ s.self v = s.self other then (s, .returned)
  else match s.waitIfUnique v with
  | (s, .returned) => ((s.set v (s.self other)).set other none, .returned)
  | (s, outcome) => (s, outcome)

/-- `*req = AsyncRequest(std::move(async_request_impl));` with the local that still holds the
new request, and with the end of the temporary. -/
def issue (s : State) (v : Handle) (impl : AsyncRequestImpl) : State × Outcome :=
  let r := s.book.impls.length
  let s := { s with book := s.book.issue impl, locals := r :: s.locals }
  let (s, outcome) := (s.set .temporary (some r)).moveAssign v .temporary
  let s := s.destroy .temporary
  ({ s with locals := s.locals.erase r }, outcome)

end State

/-- An asynchronous call, with the replies that it will get. -/
inductive AsyncCall where
  | pipelineHandle (given : Bool) (reply : Reply)
  | distributedPipelineHandle (given : Bool) (replies : List Reply)
  deriving DecidableEq, Repr

/-- `stage`, `execute` and `cleanup`. A handle without pipelines issues nothing. -/
def AsyncCall.impl : AsyncCall → Option AsyncRequestImpl
  | .pipelineHandle given reply => some { responses := [reply], callback := .first given }
  | .distributedPipelineHandle given replies =>
    if replies.length = 0 then none else some { responses := replies, callback := .all given }

inductive Operation where
  | construct (x : ℕ)
  | copyConstruct (x other : ℕ)
  | moveConstruct (x other : ℕ)
  | copyAssign (x other : ℕ)
  | moveAssign (x other : ℕ)
  | wait (x : ℕ)
  | destroy (x : ℕ)
  | issue (x : ℕ) (call : AsyncCall)
  deriving DecidableEq, Repr

/-- An operation and how it ends. -/
def perform (s : State) : Operation → State × Outcome
  | .construct x => (s.set (.user x) none, .returned)
  | .copyConstruct x other => (s.set (.user x) (s.self (.user other)), .returned)
  | .moveConstruct x other =>
    ((s.set (.user x) (s.self (.user other))).set (.user other) none, .returned)
  | .copyAssign x other => s.copyAssign (.user x) (.user other)
  | .moveAssign x other => s.moveAssign (.user x) (.user other)
  | .wait x => s.wait (s.self (.user x))
  | .destroy x => (s.destroy (.user x), .returned)
  | .issue x call =>
    match call.impl with
    | none => (s, .returned)
    | some impl => s.issue (.user x) impl

/-- The object is alive. -/
def Live (s : State) (x : ℕ) : Prop := Handle.user x ∈ s.handles

instance (s : State) (x : ℕ) : Decidable (Live s x) := inferInstanceAs (Decidable (_ ∈ _))

def Allowed (s : State) : Operation → Prop
  | .construct x => ¬ Live s x
  | .copyConstruct x other | .moveConstruct x other => ¬ Live s x ∧ Live s other
  | .copyAssign x other | .moveAssign x other => Live s x ∧ Live s other
  | .wait x | .destroy x | .issue x _ => Live s x

instance (s : State) : (op : Operation) → Decidable (Allowed s op)
  | .construct x => inferInstanceAs (Decidable (¬ Live s x))
  | .copyConstruct x other | .moveConstruct x other =>
    inferInstanceAs (Decidable (¬ Live s x ∧ Live s other))
  | .copyAssign x other | .moveAssign x other =>
    inferInstanceAs (Decidable (Live s x ∧ Live s other))
  | .wait x | .destroy x | .issue x _ => inferInstanceAs (Decidable (Live s x))

/-- The user catches an exception. Nothing is said about a program after an access out of
range. -/
def next (s : State) (op : Operation) : State :=
  match perform s op with
  | (s, .outOfRange) => { s with halted := true }
  | (s, _) => s

def Step (s : State) (op : Operation) (t : State) : Prop :=
  s.halted = false ∧ Allowed s op ∧ t = next s op

def initial : State := ⟨∅, [], ⟨[], [], [], []⟩, false⟩

/-! ## What one operation does -/

/-- A wait for a request, if there is one to wait for. -/
def Book.settle (b : Book) : Option RequestId → Book × Outcome
  | none => (b, .returned)
  | some r => b.wait r

/-- The request that only this object holds. -/
def State.alone (s : State) (v : Handle) : Option RequestId :=
  match s.self v with
  | none => none
  | some r => if s.useCount r = 1 then some r else none

/-- Between two operations. -/
structure AtRest (s : State) : Prop where
  locals : s.locals = []
  temporary : .temporary ∉ s.handles
  issued : ∀ v r, s.handles.lookup v = some (some r) → r < s.book.impls.length

/-- The requests once the new one is there. -/
def opened (s : State) : Operation → Book
  | .issue _ call => (call.impl.map s.book.issue).getD s.book
  | _ => s.book

/-- The request that an operation waits for. -/
def target (s : State) : Operation → Option RequestId
  | .construct _ | .copyConstruct _ _ | .moveConstruct _ _ => none
  | .copyAssign x other | .moveAssign x other =>
    if Handle.user x = .user other ∨ s.self (.user x) = s.self (.user other) then none
    else s.alone (.user x)
  | .wait x => s.self (.user x)
  | .destroy x => s.alone (.user x)
  | .issue x call => if call.impl = none then none else s.alone (.user x)

/-- The objects afterwards, unless the wait does not return. -/
def handlesAfter (s : State) : Operation → Finmap fun _ : Handle => Option RequestId
  | .construct x => s.handles.insert (.user x) none
  | .copyConstruct x other => s.handles.insert (.user x) (s.self (.user other))
  | .moveConstruct x other =>
    (s.handles.insert (.user x) (s.self (.user other))).insert (.user other) none
  | .copyAssign x other =>
    if Handle.user x = .user other ∨ s.self (.user x) = s.self (.user other) then s.handles
    else s.handles.insert (.user x) (s.self (.user other))
  | .moveAssign x other =>
    if Handle.user x = .user other ∨ s.self (.user x) = s.self (.user other) then s.handles
    else (s.handles.insert (.user x) (s.self (.user other))).insert (.user other) none
  | .wait _ => s.handles
  | .destroy x => s.handles.erase (.user x)
  | .issue x call =>
    if call.impl = none then s.handles
    else s.handles.insert (.user x) (some s.book.impls.length)

def Operation.isDestroy : Operation → Bool
  | .destroy _ => true
  | _ => false

/-- A wait that does not return leaves the objects as they are; the program ends if it is the
one of a destructor, or undefined. -/
def after (s : State) (op : Operation) : State :=
  let (book, outcome) := (opened s op).settle (target s op)
  { handles := if outcome = .returned then handlesAfter s op else s.handles
    locals := []
    book
    halted := outcome = .outOfRange || (outcome ≠ .returned && op.isDestroy) }

section Operations

variable {s : State} {v other : Handle} {r : RequestId}

theorem self_eq_some : s.self v = some r ↔ s.handles.lookup v = some (some r) := by
  unfold State.self
  rw [Option.join_eq_some_iff]

theorem alone_eq_some : s.alone v = some r ↔ s.self v = some r ∧ s.useCount r = 1 := by
  unfold State.alone
  cases hv : s.self v with
  | none => simp
  | some q =>
    simp only [Option.ite_none_right_eq_some, Option.some.injEq]
    constructor
    · rintro ⟨hq, rfl⟩
      exact ⟨rfl, hq⟩
    · rintro ⟨rfl, hq⟩
      exact ⟨hq, rfl⟩

theorem wait_unissued {b : Book} (hr : b.impls[r]? = none) : b.wait r = (b, .returned) := by
  unfold Book.wait
  rw [hr]

theorem wait_waited {b : Book} {impl : AsyncRequestImpl} (hr : b.impls[r]? = some impl)
    (hw : impl.waited = true) :
    b.wait r = ({ b with waits := b.waits ++ [(r, .returned)] }, .returned) := by
  unfold Book.wait
  rw [hr]
  exact if_pos hw

theorem wait_open {b : Book} {impl : AsyncRequestImpl} (hr : b.impls[r]? = some impl)
    (hw : ¬ impl.waited = true) :
    b.wait r = (b.runCallback r impl (impl.callback.run impl.responses),
      (impl.callback.run impl.responses).outcome) := by
  unfold Book.wait
  rw [hr]
  exact if_neg hw

theorem wait_eq (s : State) (self : Option RequestId) :
    s.wait self = ({ s with book := (s.book.settle self).1 }, (s.book.settle self).2) := by
  cases self with
  | none | some r => rfl

theorem waitIfUnique_eq (s : State) (v : Handle) :
    s.waitIfUnique v = ({ s with book := (s.book.settle (s.alone v)).1 },
      (s.book.settle (s.alone v)).2) := by
  unfold State.waitIfUnique State.alone
  cases hv : s.self v with
  | none => rfl
  | some r =>
    by_cases hr : s.useCount r = 1
    · simp only [if_pos hr]
      rfl
    · simp only [if_neg hr]
      rfl

theorem destroy_eq (s : State) (v : Handle) :
    s.destroy v =
      let (book, outcome) := s.book.settle (s.alone v)
      if outcome = .returned then { s with book, handles := s.handles.erase v }
      else { s with book, halted := true } := by
  unfold State.destroy
  rw [waitIfUnique_eq]
  rcases s.book.settle (s.alone v) with ⟨book, outcome⟩
  cases outcome <;> rfl

/-- An object that nobody has to wait for is just removed. -/
theorem destroy_shared (h : s.alone v = none) :
    s.destroy v = { s with handles := s.handles.erase v } := by
  rw [destroy_eq, h]
  rfl

theorem copyAssign_eq (s : State) (v other : Handle) :
    s.copyAssign v other =
      if v = other ∨ s.self v = s.self other then (s, .returned)
      else
        let (book, outcome) := s.book.settle (s.alone v)
        if outcome = .returned then ({ s with book }.set v (s.self other), .returned)
        else ({ s with book }, outcome) := by
  unfold State.copyAssign
  rw [waitIfUnique_eq]
  rcases s.book.settle (s.alone v) with ⟨book, outcome⟩
  cases outcome <;> rfl

theorem moveAssign_eq (s : State) (v other : Handle) :
    s.moveAssign v other =
      if v = other ∨ s.self v = s.self other then (s, .returned)
      else
        let (book, outcome) := s.book.settle (s.alone v)
        if outcome = .returned then
          (({ s with book }.set v (s.self other)).set other none, .returned)
        else ({ s with book }, outcome) := by
  unfold State.moveAssign
  rw [waitIfUnique_eq]
  rcases s.book.settle (s.alone v) with ⟨book, outcome⟩
  cases outcome <;> rfl

/-! The temporary and the local of a call hold the new request only. -/

/-- What is left of the objects when the temporary is gone. -/
theorem erase_temporary {h : Finmap fun _ : Handle => Option RequestId}
    (habsent : .temporary ∉ h) (self : Option RequestId) :
    (h.insert .temporary self).erase .temporary = h := by
  apply Finmap.ext_lookup
  intro w
  by_cases hw : w = .temporary
  · rw [hw, Finmap.lookup_erase, Finmap.lookup_eq_none.mpr habsent]
  · rw [Finmap.lookup_erase_ne hw, Finmap.lookup_insert_of_ne _ hw]

theorem erase_temporary_moved {h : Finmap fun _ : Handle => Option RequestId}
    (habsent : .temporary ∉ h) (x : ℕ) (self moved : Option RequestId) :
    (((h.insert Handle.temporary self).insert (Handle.user x) moved).insert Handle.temporary
      none).erase Handle.temporary = h.insert (Handle.user x) moved := by
  have hinsert : Handle.temporary ∉ h.insert (.user x) moved := by
    rw [Finmap.mem_insert]
    rintro (hx | hx)
    · cases hx
    · exact habsent hx
  have hne : Handle.temporary ≠ .user x := by simp
  rw [Finmap.insert_insert_of_ne h hne, Finmap.insert_insert, erase_temporary hinsert]

/-- In a call that issues a request, once the temporary is there. -/
def State.issuing (s : State) (impl : AsyncRequestImpl) : State :=
  State.set { s with
    book := s.book.issue impl
    locals := s.book.impls.length :: s.locals } .temporary (some s.book.impls.length)

theorem issuing_useCount (hs : AtRest s) (impl : AsyncRequestImpl)
    (hr : r ≠ s.book.impls.length) : (s.issuing impl).useCount r = s.useCount r := by
  have hcount := countEntries_insert (fun self => self = some r) s.handles .temporary
    (some s.book.impls.length)
  have habsent : s.handles.lookup .temporary = none := Finmap.lookup_eq_none.mpr hs.temporary
  have hnew : ¬ some s.book.impls.length = some r := fun h => hr (Option.some.inj h).symm
  rw [if_neg hnew, habsent, if_neg (by simp)] at hcount
  change countEntries _ (s.handles.insert .temporary _) + List.count r (_ :: s.locals) = _
  rw [List.count_cons_of_ne (Ne.symm hr)]
  unfold State.useCount
  omega

theorem issuing_self (s : State) (impl : AsyncRequestImpl) (x : ℕ) :
    (s.issuing impl).self (.user x) = s.self (.user x) := by
  unfold State.self State.issuing State.set
  rw [Finmap.lookup_insert_of_ne _ (by simp)]

theorem issuing_self_temporary (s : State) (impl : AsyncRequestImpl) :
    (s.issuing impl).self .temporary = some s.book.impls.length := by
  unfold State.self State.issuing State.set
  rw [Finmap.lookup_insert]
  rfl

theorem issuing_alone (hs : AtRest s) (impl : AsyncRequestImpl) (x : ℕ) :
    (s.issuing impl).alone (.user x) = s.alone (.user x) := by
  unfold State.alone
  rw [issuing_self]
  cases hx : s.self (.user x) with
  | none => rfl
  | some r =>
    have hlt : r < s.book.impls.length := hs.issued _ _ (self_eq_some.mp hx)
    simp only [issuing_useCount hs impl (Nat.ne_of_lt hlt)]

/-- The local keeps the temporary from being the only holder. -/
theorem issuing_alone_temporary (hs : AtRest s) (impl : AsyncRequestImpl) (book : Book) :
    State.alone { s.issuing impl with book } .temporary = none := by
  have hcount := countEntries_insert (fun self => self = some s.book.impls.length) s.handles
    .temporary (some s.book.impls.length)
  have habsent : s.handles.lookup .temporary = none := Finmap.lookup_eq_none.mpr hs.temporary
  rw [if_pos rfl, habsent, if_neg (by simp)] at hcount
  have hself : State.self { s.issuing impl with book } .temporary = some s.book.impls.length :=
    issuing_self_temporary s impl
  have huse : State.useCount { s.issuing impl with book } s.book.impls.length ≠ 1 := by
    change countEntries (fun self => self = some s.book.impls.length)
      (s.handles.insert .temporary (some s.book.impls.length)) +
        List.count s.book.impls.length (s.book.impls.length :: s.locals) ≠ 1
    rw [List.count_cons_self, ← Nat.add_zero (countEntries _ (Finmap.insert _ _ _)), hcount]
    omega
  unfold State.alone
  rw [hself]
  exact if_neg huse

/-- The object that gets the new request keeps its old one until the wait has returned. -/
theorem issue_eq (hs : AtRest s) (x : ℕ) (impl : AsyncRequestImpl) :
    s.issue (.user x) impl =
      let (book, outcome) := (s.book.issue impl).settle (s.alone (.user x))
      (if outcome = .returned then
        { s with book, handles := s.handles.insert (.user x) (some s.book.impls.length) }
       else { s with book }, outcome) := by
  have hdifferent : ¬ (Handle.user x = .temporary ∨
      (s.issuing impl).self (.user x) = (s.issuing impl).self .temporary) := by
    rw [issuing_self, issuing_self_temporary]
    rintro (h | h)
    · cases h
    · exact Nat.lt_irrefl _ (hs.issued _ _ (self_eq_some.mp h))
  have hmove := moveAssign_eq (s.issuing impl) (.user x) .temporary
  rw [if_neg hdifferent, issuing_alone hs, issuing_self_temporary] at hmove
  have hbook : (s.issuing impl).book = s.book.issue impl := rfl
  rw [hbook] at hmove
  change (match State.moveAssign (s.issuing impl) (.user x) .temporary with
    | (u, outcome) => ({ u.destroy .temporary with
        locals := (u.destroy .temporary).locals.erase s.book.impls.length }, outcome)) = _
  rw [hmove]
  rcases (s.book.issue impl).settle (s.alone (.user x)) with ⟨book, outcome⟩
  by_cases hreturned : outcome = .returned
  · simp only [if_pos hreturned]
    rw [destroy_shared (by unfold State.alone State.self State.set; simp)]
    exact Prod.ext (State.ext (erase_temporary_moved hs.temporary x _ _)
      (List.erase_cons_head ..) rfl rfl) hreturned.symm
  · simp only [if_neg hreturned]
    rw [destroy_shared (issuing_alone_temporary hs impl book)]
    exact Prod.ext (State.ext (erase_temporary hs.temporary _) (List.erase_cons_head ..) rfl rfl)
      rfl

/-- An operation other than a destruction waits for its target, and changes the objects when
the wait has returned. -/
theorem perform_eq (hs : AtRest s) (op : Operation) (hop : op.isDestroy = false) :
    perform s op =
      let (book, outcome) := (opened s op).settle (target s op)
      ({ s with
        handles := if outcome = .returned then handlesAfter s op else s.handles
        book }, outcome) := by
  cases op with
  | construct x | copyConstruct x other | moveConstruct x other => rfl
  | copyAssign x other =>
    simp only [perform, opened, target, handlesAfter, copyAssign_eq]
    by_cases hsame : Handle.user x = .user other ∨ s.self (.user x) = s.self (.user other)
    · simp only [if_pos hsame]
      rfl
    · simp only [if_neg hsame]
      rcases s.book.settle (s.alone (.user x)) with ⟨book, outcome⟩
      cases outcome <;> rfl
  | moveAssign x other =>
    simp only [perform, opened, target, handlesAfter, moveAssign_eq]
    by_cases hsame : Handle.user x = .user other ∨ s.self (.user x) = s.self (.user other)
    · simp only [if_pos hsame]
      rfl
    · simp only [if_neg hsame]
      rcases s.book.settle (s.alone (.user x)) with ⟨book, outcome⟩
      cases outcome <;> rfl
  | wait x =>
    simp only [perform, opened, target, handlesAfter, wait_eq]
    exact Prod.ext (State.ext (ite_self _).symm rfl rfl rfl) rfl
  | destroy x => cases hop
  | issue x call =>
    cases himpl : call.impl with
    | none =>
      simp only [perform, opened, target, handlesAfter, himpl, if_true]
      rfl
    | some impl =>
      simp only [perform, opened, target, handlesAfter, himpl, issue_eq hs, reduceCtorEq, if_false,
        Option.map_some, Option.getD_some]
      rcases (s.book.issue impl).settle (s.alone (.user x)) with ⟨book, outcome⟩
      cases outcome <;> rfl

/-- Between two operations there are no temporaries and no locals, and an operation does one
wait at most. -/
theorem next_eq (hs : AtRest s) (hrun : s.halted = false) (op : Operation) :
    next s op = after s op := by
  cases hop : op.isDestroy with
  | false =>
    unfold next after
    rw [perform_eq hs op hop, hop]
    rcases (opened s op).settle (target s op) with ⟨book, outcome⟩
    cases outcome with
    | returned | threw e => exact State.ext rfl hs.locals rfl hrun
    | outOfRange => exact State.ext rfl hs.locals rfl rfl
  | true =>
    cases op with
    | destroy x =>
      unfold next perform after opened target handlesAfter
      simp only [destroy_eq]
      rcases s.book.settle (s.alone (.user x)) with ⟨book, outcome⟩
      cases outcome with
      | returned => exact State.ext rfl hs.locals rfl hrun
      | threw e | outOfRange => exact State.ext rfl hs.locals rfl rfl
    | construct x | copyConstruct x other | moveConstruct x other | copyAssign x other
    | moveAssign x other | wait x | issue x call => cases hop

/-! Between two operations every object holds a request that was issued, or none. -/

theorem settle_length (b : Book) (t : Option RequestId) :
    (b.settle t).1.impls.length = b.impls.length := by
  cases t with
  | none => rfl
  | some r =>
    simp only [Book.settle]
    cases hr : b.impls[r]? with
    | none => rw [wait_unissued hr]
    | some impl =>
      by_cases hw : impl.waited = true
      · rw [wait_waited hr hw]
      · rw [wait_open hr hw]
        exact List.length_set ..

theorem opened_length (s : State) (op : Operation) :
    s.book.impls.length ≤ (opened s op).impls.length := by
  unfold opened
  split
  next x call =>
    cases call.impl with
    | none => exact Nat.le_refl _
    | some impl =>
      change _ ≤ (s.book.impls ++ [impl]).length
      rw [List.length_append]
      exact Nat.le_add_right ..
  next => exact Nat.le_refl _

/-- Every object holds one of the first `n` requests, or none. -/
def HoldsBelow (n : ℕ) (h : Finmap fun _ : Handle => Option RequestId) : Prop :=
  ∀ v r, h.lookup v = some (some r) → r < n

theorem HoldsBelow.insert {n : ℕ} {h : Finmap fun _ : Handle => Option RequestId}
    {self : Option RequestId} (hh : HoldsBelow n h) (hself : ∀ r, self = some r → r < n) :
    HoldsBelow n (h.insert v self) := by
  intro w r hw
  by_cases hv : w = v
  · rw [hv, Finmap.lookup_insert] at hw
    exact hself r (Option.some.inj hw)
  · rw [Finmap.lookup_insert_of_ne _ hv] at hw
    exact hh w r hw

theorem HoldsBelow.erase {n : ℕ} {h : Finmap fun _ : Handle => Option RequestId}
    (hh : HoldsBelow n h) : HoldsBelow n (h.erase v) := by
  intro w r hw
  by_cases hv : w = v
  · rw [hv, Finmap.lookup_erase] at hw
    cases hw
  · rw [Finmap.lookup_erase_ne hv] at hw
    exact hh w r hw

theorem handlesAfter_below (hs : AtRest s) (op : Operation) :
    HoldsBelow (opened s op).impls.length (handlesAfter s op) := by
  have hold : HoldsBelow (opened s op).impls.length s.handles := by
    intro w r hw
    exact Nat.lt_of_lt_of_le (hs.issued w r hw) (opened_length s op)
  have hself (w : Handle) : ∀ r, s.self w = some r → r < (opened s op).impls.length :=
    fun r hr => hold w r (self_eq_some.mp hr)
  have hnone : ∀ r, (none : Option RequestId) = some r → r < (opened s op).impls.length :=
    fun r hr => by cases hr
  cases op with
  | construct x => exact hold.insert hnone
  | copyConstruct x other => exact hold.insert (hself _)
  | moveConstruct x other => exact (hold.insert (hself _)).insert hnone
  | copyAssign x other =>
    simp only [handlesAfter]
    split
    · exact hold
    · exact hold.insert (hself _)
  | moveAssign x other =>
    simp only [handlesAfter]
    split
    · exact hold
    · exact (hold.insert (hself _)).insert hnone
  | wait x => exact hold
  | destroy x => exact hold.erase
  | issue x call =>
    cases himpl : call.impl with
    | none =>
      simp only [handlesAfter, himpl, if_true]
      exact hold
    | some impl =>
      simp only [handlesAfter, himpl, reduceCtorEq, if_false]
      refine hold.insert ?_
      rintro r hr
      have hlen : (opened s (.issue x call)).impls.length = s.book.impls.length + 1 := by
        unfold opened
        simp only [himpl, Option.map_some, Option.getD_some]
        exact List.length_append ..
      rw [hlen, ← Option.some.inj hr]
      exact Nat.lt_succ_self _

theorem temporary_handlesAfter (hs : AtRest s) (op : Operation) :
    Handle.temporary ∉ handlesAfter s op := by
  have habsent := hs.temporary
  cases op with
  | construct x | copyConstruct x other | moveConstruct x other | wait x | destroy x =>
    simp [handlesAfter, Finmap.mem_insert, Finmap.mem_erase, habsent]
  | copyAssign x other | moveAssign x other | issue x call =>
    simp only [handlesAfter]
    split
    · exact habsent
    · simp [Finmap.mem_insert, habsent]

theorem after_atRest (hs : AtRest s) (op : Operation) : AtRest (after s op) := by
  have hlen := settle_length (opened s op) (target s op)
  unfold after
  rcases hset : (opened s op).settle (target s op) with ⟨book, outcome⟩
  rw [hset] at hlen
  refine ⟨rfl, ?_, ?_⟩
  · simp only
    split
    · exact temporary_handlesAfter hs op
    · exact hs.temporary
  · intro w r hw
    simp only at hw hlen ⊢
    rw [hlen]
    split at hw
    · exact handlesAfter_below hs op w r hw
    · exact Nat.lt_of_lt_of_le (hs.issued w r hw) (opened_length s op)

theorem initial_atRest : AtRest initial where
  locals := rfl
  temporary := Finmap.notMem_empty
  issued v r hv := by
    rw [initial, Finmap.lookup_empty] at hv
    cases hv

theorem Step.eq_after {op : Operation} {t : State} (h : Step s op t) (hs : AtRest s) :
    t = after s op := by
  obtain ⟨hrun, -, rfl⟩ := h
  exact next_eq hs hrun op

/-- An asynchronous call issues a request with responses that nobody has waited for. -/
theorem impl_responses {call : AsyncCall} {impl : AsyncRequestImpl}
    (h : call.impl = some impl) : impl.waited = false ∧ impl.responses ≠ [] := by
  unfold AsyncCall.impl at h
  split at h
  · cases h
    exact ⟨rfl, by simp⟩
  · split at h
    · cases h
    next hlen =>
      cases h
      exact ⟨rfl, fun hempty => hlen (congrArg List.length hempty)⟩

/-- The request that an operation waits for was issued before. -/
theorem target_issued (hs : AtRest s) {op : Operation} (h : target s op = some r) :
    r < s.book.impls.length := by
  have hself {w : Handle} (hw : s.self w = some r) : r < s.book.impls.length :=
    hs.issued w r (self_eq_some.mp hw)
  cases op with
  | construct x | copyConstruct x other | moveConstruct x other => cases h
  | copyAssign x other | moveAssign x other =>
    simp only [target, Option.ite_none_left_eq_some] at h
    exact hself (alone_eq_some.mp h.2).1
  | wait x => exact hself h
  | destroy x => exact hself (alone_eq_some.mp h).1
  | issue x call =>
    simp only [target, Option.ite_none_left_eq_some] at h
    exact hself (alone_eq_some.mp h.2).1

theorem Step.atRest {op : Operation} {t : State} (h : Step s op t) (hs : AtRest s) :
    AtRest t := by
  rw [h.eq_after hs]
  exact after_atRest hs op

end Operations

/-- The operation is one that a program can do next. -/
def Possible (s : State) (op : Operation) : Prop := s.halted = false ∧ Allowed s op

instance (s : State) (op : Operation) : Decidable (Possible s op) :=
  inferInstanceAs (Decidable (_ ∧ _))

theorem path_run_possible {ops : List Operation}
    (h : Guarded Possible initial (path next initial ops)) :
    Run Step initial (path next initial ops) :=
  path_run_of next (fun _ _ hp => ⟨hp.1, hp.2, rfl⟩) initial ops h

end AsyncRequests
