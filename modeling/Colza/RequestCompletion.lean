import Colza.AsyncRequests

/-!
# Testing an asynchronous request without a wait

`AsyncRequest::completed` looks at the responses that the request still holds. They are
received one by one, in any order, and a wait blocks until it has those that its callback
asks for.
-/
namespace RequestCompletion

open ReplyCallbacks GuardedRuns
open AsyncRequests (Callback AsyncRequestImpl Book RequestId)

/-- `tl::async_response`: the reply it will have, and whether it has come. -/
structure AsyncResponse where
  reply : Reply
  received : Bool
  deriving DecidableEq, Repr

/-- `AsyncRequestImpl`, with the responses that have been received. -/
structure Request where
  responses : List AsyncResponse
  waited : Bool := false
  callback : Callback
  deriving DecidableEq, Repr

/-- The same request where nothing is said of what has been received. -/
def Request.impl (r : Request) : AsyncRequestImpl :=
  ⟨r.responses.map AsyncResponse.reply, r.waited, r.callback⟩

/-- `self` of an `AsyncRequest`, which may be null. -/
abbrev AsyncRequest := Option Request

def completed : AsyncRequest → Bool
  | none => true
  | some r => r.responses.foldl (fun b x => b || x.received) true

/-- The responses that the callback waits for. -/
def Request.awaited (r : Request) : List AsyncResponse :=
  match r.callback with
  | .first _ => r.responses.take 1
  | .all _ => r.responses

def Request.blocks (r : Request) : Bool :=
  !r.waited && r.awaited.any fun x => !x.received

/-- The callback empties the responses before it may throw. -/
def Request.ran (r : Request) (outcome : Outcome) : Request :=
  { r with
    responses := if outcome = .outOfRange then r.responses else []
    waited := outcome = .returned }

/-- `none` while the wait blocks. -/
def wait : AsyncRequest → Option (AsyncRequest × Outcome)
  | none => some (none, .returned)
  | some r =>
    if r.blocks then none
    else if r.waited then some (some r, .returned)
    else
      let outcome := (r.callback.run (r.responses.map AsyncResponse.reply)).outcome
      some (some (r.ran outcome), outcome)

inductive Event where
  | arrive (i : ℕ)
  | wait
  deriving DecidableEq, Repr

def Request.arrive (r : Request) (i : ℕ) : Request :=
  { r with responses := r.responses.modify i fun x => { x with received := true } }

def step (self : AsyncRequest) : Event → Option AsyncRequest
  | .arrive i => some (self.map (·.arrive i))
  | .wait => (wait self).map Prod.fst

def Step (self : AsyncRequest) (e : Event) (self' : AsyncRequest) : Prop := step self e = some self'

def AllReceived (self : AsyncRequest) : Prop := ∀ r ∈ self, ∀ x ∈ r.responses, x.received = true

/-- A test that says when a wait does not block, and that stays true. -/
structure TestsCompletion (req : AsyncRequest) : Prop where
  received : completed req = true ↔ AllReceived req
  waits : completed req = true → ∃ after, wait req = some after
  stays : ∀ p, Run Step req p → completed req = true → completed (final req p) = true

/-- The wait is that of `AsyncRequests`, once it does not block. -/
theorem wait_book {b : Book} {k : RequestId} {r : Request} {self : AsyncRequest}
    {outcome : Outcome} (hk : b.impls[k]? = some r.impl)
    (h : wait (some r) = some (self, outcome)) :
    (b.wait k).2 = outcome ∧ (b.wait k).1.impls[k]? = self.map Request.impl := by
  have hlt := (List.getElem?_eq_some_iff.mp hk).1
  simp only [wait] at h
  split at h
  · cases h
  split at h
  · next hw =>
    have hw' : r.impl.waited = true := hw
    cases h
    simp [Book.wait, hk, hw']
  · next hw =>
    have hw' : r.impl.waited = false := by simpa [Request.impl] using hw
    cases h
    simp only [Book.wait, hk, hw', Bool.false_eq_true, if_false, Book.runCallback]
    refine ⟨rfl, ?_⟩
    rw [List.getElem?_set_self hlt]
    simp only [Option.map_some, Request.impl, Request.ran]
    rw [apply_ite (List.map AsyncResponse.reply)]
    rfl

/-- The loop starts from `true` and goes on with a disjunction. -/
theorem completed_eq (self : AsyncRequest) : completed self = true := by
  cases self with
  | none => rfl
  | some r =>
    change r.responses.foldl (fun b x => b || x.received) true = true
    induction r.responses with
    | nil => rfl
    | cons x responses ih => exact ih

theorem wait_of_allReceived {self : AsyncRequest} (h : AllReceived self) :
    ∃ after, wait self = some after := by
  cases self with
  | none => exact ⟨_, rfl⟩
  | some r =>
    have hany : (r.awaited.any fun x => !x.received) = false := by
      rw [List.any_eq_false]
      intro x hx
      have hmem : x ∈ r.responses := by
        unfold Request.awaited at hx
        split at hx
        · exact List.mem_of_mem_take hx
        · exact hx
      simp [h r rfl x hmem]
    have hb : r.blocks = false := by simp [Request.blocks, hany]
    unfold wait
    simp only [hb, Bool.false_eq_true, if_false]
    split <;> exact ⟨_, rfl⟩

/-- The test is right about the requests that have nothing left to receive. -/
theorem tests_completion_iff (self : AsyncRequest) : TestsCompletion self ↔ AllReceived self := by
  constructor
  · intro h
    exact h.received.mp (completed_eq self)
  · intro h
    exact ⟨iff_of_true (completed_eq self) h, fun _ => wait_of_allReceived h,
      fun p _ _ => completed_eq (final self p)⟩

/-- A request whose only response has not come is reported as completed. -/
theorem pending_request_completed : ¬ ∀ self : AsyncRequest, TestsCompletion self := by
  intro h
  have hall := (h (some ⟨[⟨⟨true, "", 0⟩, false⟩], false, .first false⟩)).received.mp rfl
  cases hall _ rfl _ (List.mem_singleton_self _)

end RequestCompletion
