import Colza.Interfaces

/-!
# What a client makes of replies

The callbacks with which asynchronous requests are waited for. `PipelineHandle` has one
response; `DistributedPipelineHandle` has one of each server, and it folds them into a result
that starts without a value.
-/
namespace ReplyCallbacks

open Interfaces

/-- A reply as it was received, with a value in every case. -/
structure Reply where
  success : Bool
  error : String
  value : Int32
  deriving DecidableEq, Repr

def Reply.result (reply : Reply) : RequestResult Int32 :=
  { success := reply.success, error := reply.error, value := some reply.value }

def Reply.exception (reply : Reply) : Exception := ⟨some reply.value, reply.error⟩

/-- How a wait ends. `outOfRange` is the undefined access to the first element of an empty
vector. -/
inductive Outcome where
  | returned
  | threw (e : Exception)
  | outOfRange
  deriving DecidableEq, Repr

/-- What a callback has done: how it ended, what it stored in `*result` if it did (an
uninitialised value is `none`), and how many responses it waited for. -/
structure Ran where
  outcome : Outcome
  stored : Option (Option Int32) := none
  consumed : ℕ
  deriving DecidableEq, Repr

/-- The end of every callback. `given` tells whether there is a `result` pointer. -/
def conclude (given : Bool) (consumed : ℕ) (response : RequestResult Int32) : Ran :=
  if response.success then
    { outcome := .returned, stored := if given then some response.value else none, consumed }
  else { outcome := .threw ⟨response.value, response.error⟩, consumed }

/-- A synchronous call of `PipelineHandle`. -/
def callOne (given : Bool) (reply : Reply) : Ran := conclude given 1 reply.result

/-- The callback of `PipelineHandle`. -/
def waitFirst (given : Bool) : List Reply → Ran
  | [] => { outcome := .outOfRange, consumed := 0 }
  | reply :: _ => callOne given reply

/-- The loop of `DistributedPipelineHandle` over the responses. -/
def foldResponses (response : RequestResult Int32) : List Reply → RequestResult Int32
  | [] => response
  | reply :: replies =>
    foldResponses (if !reply.success then reply.result else response) replies

/-- The callback of `DistributedPipelineHandle`. -/
def waitAll (given : Bool) (replies : List Reply) : Ran :=
  conclude given replies.length (foldResponses {} replies)

/-- A wait tells what the replies are, and a list of one reply is treated as a
`PipelineHandle` does. -/
structure Reports (given : Bool) (replies : List Reply) : Prop where
  failure : (∃ r ∈ replies, r.success = false) →
    ∃ r ∈ replies, r.success = false ∧ (waitAll given replies).outcome = .threw r.exception
  success : (∀ r ∈ replies, r.success = true) →
    (waitAll given replies).outcome = .returned ∧
      (given = true → ∃ r ∈ replies, (waitAll given replies).stored = some (some r.value))
  single : ∀ r, replies = [r] → waitAll given replies = callOne given r

section Folding

variable {replies : List Reply}

theorem all_succeeded (h : ¬ ∃ r ∈ replies, r.success = false) :
    ∀ r ∈ replies, r.success = true := by
  intro r hr
  by_contra hf
  exact h ⟨r, hr, by simpa using hf⟩

/-- Successful replies leave the accumulator as it is. -/
theorem foldResponses_succeeded (h : ∀ r ∈ replies, r.success = true)
    (response : RequestResult Int32) : foldResponses response replies = response := by
  induction replies generalizing response with
  | nil => rfl
  | cons r replies ih =>
    have hr : r.success = true := h r (List.mem_cons_self ..)
    rw [foldResponses, hr]
    exact ih (fun x hx => h x (List.mem_cons_of_mem _ hx)) response

/-- The last failed reply overwrites everything before it. -/
theorem foldResponses_failed (h : ∃ r ∈ replies, r.success = false)
    (response : RequestResult Int32) :
    ∃ r ∈ replies, r.success = false ∧ foldResponses response replies = r.result := by
  induction replies generalizing response with
  | nil => simp at h
  | cons r replies ih =>
    by_cases hlater : ∃ x ∈ replies, x.success = false
    · obtain ⟨x, hx, hf, he⟩ := ih hlater (if !r.success then r.result else response)
      exact ⟨x, List.mem_cons_of_mem _ hx, hf, he⟩
    · have hall := all_succeeded hlater
      obtain ⟨x, hx, hf⟩ := h
      rcases List.mem_cons.mp hx with rfl | hx
      · refine ⟨x, List.mem_cons_self .., hf, ?_⟩
        rw [foldResponses, foldResponses_succeeded hall, hf]
        rfl
      · exact (hlater ⟨x, hx, hf⟩).elim

theorem waitAll_succeeded (given : Bool) (h : ∀ r ∈ replies, r.success = true) :
    waitAll given replies =
      { outcome := .returned, stored := if given then some none else none,
        consumed := replies.length } := by
  rw [waitAll, foldResponses_succeeded h]
  rfl

theorem conclude_failed {reply : Reply} (given : Bool) (consumed : ℕ)
    (h : reply.success = false) :
    conclude given consumed reply.result = { outcome := .threw reply.exception, consumed } := by
  unfold conclude
  have hr : reply.result.success = false := h
  rw [hr]
  rfl

theorem waitAll_failed (given : Bool) (h : ∃ r ∈ replies, r.success = false) :
    ∃ r ∈ replies, r.success = false ∧
      waitAll given replies = { outcome := .threw r.exception, consumed := replies.length } := by
  obtain ⟨r, hr, hf, he⟩ := foldResponses_failed h {}
  exact ⟨r, hr, hf, by rw [waitAll, he, conclude_failed given _ hf]⟩

end Folding

/-- For every list of replies of any length and content. -/
theorem reports_iff (given : Bool) {replies : List Reply} (hne : replies ≠ []) :
    Reports given replies ↔ given = false ∨ ∃ r ∈ replies, r.success = false := by
  by_cases hfail : ∃ r ∈ replies, r.success = false
  · refine iff_of_true ⟨fun _ => ?_, fun hall => ?_, fun r hr => ?_⟩ (Or.inr hfail)
    · obtain ⟨r, hr, hf, he⟩ := waitAll_failed given hfail
      exact ⟨r, hr, hf, by rw [he]⟩
    · obtain ⟨r, hr, hf⟩ := hfail
      rw [hall r hr] at hf
      cases hf
    · subst hr
      obtain ⟨x, hx, hf, he⟩ := waitAll_failed given hfail
      rw [List.mem_singleton.mp hx] at hf he
      rw [he, callOne, conclude_failed given 1 hf]
      rfl
  · have hall := all_succeeded hfail
    have hran := waitAll_succeeded given hall
    simp only [hfail, or_false]
    constructor
    · intro h
      by_contra hgiven
      have hgiven : given = true := by simpa using hgiven
      obtain ⟨r, -, hr⟩ := (h.success hall).2 hgiven
      rw [hran, hgiven] at hr
      cases hr
    · rintro rfl
      refine ⟨fun h => (hfail h).elim, fun _ => ⟨by rw [hran], fun h => by cases h⟩, fun r hr => ?_⟩
      subst hr
      have hr : r.result.success = true := hall r (List.mem_cons_self ..)
      rw [hran, callOne, conclude, hr]
      rfl

/-- Two servers, of which the second one refuses. -/
def refusedBySecond : List Reply :=
  [⟨true, "", 0⟩, ⟨false, "Pipeline is not active", ErrorCode.pipelineNotActive.value⟩]

theorem refused_execute_reports : Reports true refusedBySecond :=
  (reports_iff true (by decide)).mpr (Or.inr (by decide))

/-- A server returns 42, and the result that the callback stores is none of its making. -/
theorem value_not_stored :
    ¬ ∀ (given : Bool) (replies : List Reply), replies ≠ [] → Reports given replies := by
  intro h
  obtain ⟨-, hstored⟩ := (h true [⟨true, "", 42⟩] (by decide)).success (by decide)
  obtain ⟨r, -, hr⟩ := hstored rfl
  cases hr

end ReplyCallbacks
