import Colza.ClientHandles
import Colza.CollectiveNetwork
import Colza.ProviderHandlers
import Mathlib.Data.List.TakeWhile

/-!
# DistributedPipelineHandle::start

One attempt of rank 0 is a loop that sends the start RPCs, a loop that waits for them, a
broadcast and the two loops of the aborts. Around it are the program of rank 0, which
refreshes its handle between attempts, and the program of the other ranks. Log messages
and the sleep before a third attempt are left out.
-/
namespace DistributedStart

open Interfaces ClientHandles CollectiveNetwork

/-! ## One attempt of rank 0 -/

/-- The reply has the code of a stale group hash. -/
def isHashRefusal (result : RequestResult Int32) : Bool :=
  !result.success && result.value == some ErrorCode.invalidGroupHash.value

section Loops

variable {σ : Type} (rpc : σ → Rpc)

/-- The loop that sends: the servers sent to, and the exception that ended it. -/
def sendStarts : List σ → List σ × Option String
  | [] => ([], none)
  | x :: rest =>
    match rpc x with
    | .sendThrows what => ([], some what)
    | _ => (x :: (sendStarts rest).1, (sendStarts rest).2)

/-- The variables of the loop that waits. -/
structure Waited (σ : Type) where
  ok : Bool := true
  retry : Bool := false
  started : List σ := []
  thrown : Option String := none

def waitStarts : List σ → Waited σ → Waited σ
  | [], w => w
  | x :: rest, w =>
    match rpc x with
    | .reply result =>
      if !result.success then
        waitStarts rest { w with ok := false, retry := w.retry || isHashRefusal result }
      else waitStarts rest { w with started := w.started ++ [x] }
    | .waitThrows what | .sendThrows what => { w with thrown := some what }

def isSendThrows : Rpc → Bool
  | .sendThrows _ => true
  | _ => false

/-- The loop that sends the aborts catches every exception. -/
def sendAborts (started : List σ) : List σ := started.filter fun x => !isSendThrows (rpc x)

/-- The loop that waits for the aborts ends with the first exception. -/
def waitAborts : List σ → Option String
  | [] => none
  | x :: rest =>
    match rpc x with
    | .waitThrows what => some what
    | _ => waitAborts rest

end Loops

inductive Exit where
  | returned
  | retry
  | threw (e : Exception)

/-- An attempt ends before its broadcast, with an exception, or it broadcasts `ok`. -/
inductive Attempt (σ : Type) where
  | threw (sent : List σ) (e : Exception)
  | decided (sent : List σ) (ok : Bool) (aborted : List σ) (exit : Exit)

namespace Attempt

variable {σ : Type}

/-- The servers the start RPC was sent to. -/
def sent : Attempt σ → List σ
  | .threw sent _ | .decided sent _ _ _ => sent

/-- The servers an abort was sent to. -/
def aborted : Attempt σ → List σ
  | .threw _ _ => []
  | .decided _ _ aborted _ => aborted

def exit : Attempt σ → Exit
  | .threw _ e => .threw e
  | .decided _ _ _ exit => exit

end Attempt

def runAttempt {σ : Type} (start abort : σ → Rpc) (servers : List σ) : Attempt σ :=
  let (sent, thrown) := sendStarts start servers
  match thrown with
  | some what => .threw sent (Exception.foreign what)
  | none =>
    let w := waitStarts start servers {}
    match w.thrown with
    | some what => .threw sent (Exception.foreign what)
    | none =>
      let next := if w.retry then Exit.retry else .returned
      if w.ok then .decided sent true [] next
      else
        let aborted := sendAborts abort w.started
        match waitAborts abort aborted with
        | some what => .decided sent false aborted (.threw (Exception.foreign what))
        | none => .decided sent false aborted next

/-- What an attempt meets: SSG and the engine for the refresh before it, and the RPCs to a
server, given with its place in the list. -/
structure AttemptEnv where
  client : ClientEnv
  start : UInt64 → PipelineHandle × ℕ → UInt64 → Rpc
  abort : PipelineHandle × ℕ → UInt64 → Rpc

/-- The servers of an attempt with their places. -/
def servers (h : DistributedPipelineHandle) : List (PipelineHandle × ℕ) := h.pipelines.zipIdx

def attempt (env : AttemptEnv) (h : DistributedPipelineHandle) (iteration : UInt64) :
    Attempt (PipelineHandle × ℕ) :=
  runAttempt (fun p => env.start h.groupHash p iteration) (fun p => env.abort p iteration)
    (servers h)

/-- The refresh of rank 0 before attempt `k`. -/
def refresh (env : ℕ → AttemptEnv) (h : DistributedPipelineHandle) (k : ℕ) : Made :=
  makeOnMaster (env k).client h.ssgGroupFile h.providerId h.name false

/-- Attempt `k` of a call on handle `h₀` begins with handle `h`. -/
inductive Begins (env : ℕ → AttemptEnv) (h₀ : DistributedPipelineHandle) (iteration : UInt64) :
    ℕ → DistributedPipelineHandle → Prop where
  | first : Begins env h₀ iteration 0 h₀
  | again {k h h'} : Begins env h₀ iteration k h →
      (attempt (env k) h iteration).exit = .retry → (refresh env h (k + 1)).result = .ok h' →
      Begins env h₀ iteration (k + 1) h'

/-! ## The loops of one attempt -/

def accepted : Rpc → Bool
  | .reply result => result.success
  | _ => false

/-- The server refused the start because of the group hash. -/
def hashRefused : Rpc → Bool
  | .reply result => isHashRefusal result
  | _ => false

def throws : Rpc → Bool
  | .reply _ => false
  | _ => true

theorem throws_of_isSendThrows {o : Rpc} (h : isSendThrows o = true) : throws o = true := by
  cases o with
  | sendThrows what => rfl
  | _ => cases h

theorem not_accepted_of_hashRefused {o : Rpc} (h : hashRefused o = true) : accepted o = false := by
  cases o with
  | reply result =>
    simp only [hashRefused, isHashRefusal, Bool.and_eq_true, Bool.not_eq_true'] at h
    exact h.1
  | _ => rfl

section Loops

variable {σ : Type} {start abort : σ → Rpc} {xs : List σ}

theorem sendStarts_sent (xs : List σ) :
    (sendStarts start xs).1 = xs.takeWhile fun x => !isSendThrows (start x) := by
  induction xs with
  | nil => rfl
  | cons x xs ih => cases h : start x <;> simp [sendStarts, h, isSendThrows, ih]

theorem throws_of_sendStarts {what : String} (h : (sendStarts start xs).2 = some what) :
    ∃ x ∈ xs, throws (start x) = true := by
  induction xs with
  | nil => cases h
  | cons x xs ih =>
    cases ho : start x with
    | sendThrows _ => exact ⟨x, List.mem_cons_self .., by rw [ho]; rfl⟩
    | _ =>
      simp only [sendStarts, ho] at h
      obtain ⟨y, hy, ht⟩ := ih h
      exact ⟨y, List.mem_cons_of_mem _ hy, ht⟩

/-- The loop that waits, where every RPC is answered. -/
theorem waitStarts_answered (h : ∀ x ∈ xs, throws (start x) = false) (w : Waited σ) :
    waitStarts start xs w =
      { ok := w.ok && xs.all fun x => accepted (start x)
        retry := w.retry || xs.any fun x => hashRefused (start x)
        started := w.started ++ xs.filter fun x => accepted (start x)
        thrown := w.thrown } := by
  induction xs generalizing w with
  | nil => simp [waitStarts]
  | cons x xs ih =>
    have hx := h x (List.mem_cons_self ..)
    have hrest := ih fun y hy => h y (List.mem_cons_of_mem _ hy)
    cases ho : start x with
    | sendThrows what => simp [ho, throws] at hx
    | waitThrows what => simp [ho, throws] at hx
    | reply result =>
      cases hs : result.success with
      | true => simp [waitStarts, ho, hs, hrest, accepted, hashRefused, isHashRefusal]
      | false => simp [waitStarts, ho, hs, hrest, accepted, hashRefused, Bool.or_assoc]

/-- Where every RPC is answered the start is sent to all servers. -/
theorem takeWhile_of_answered (h : ∀ x ∈ xs, throws (start x) = false) :
    xs.takeWhile (fun x => !isSendThrows (start x)) = xs := by
  rw [List.takeWhile_eq_self_iff]
  intro x hx
  cases hst : isSendThrows (start x) with
  | false => rfl
  | true =>
    have ht := throws_of_isSendThrows hst
    rw [h x hx] at ht
    cases ht

theorem waitStarts_thrown (h : ∃ x ∈ xs, throws (start x) = true) (w : Waited σ) :
    (waitStarts start xs w).thrown ≠ none := by
  induction xs generalizing w with
  | nil => simp at h
  | cons x xs ih =>
    cases ho : start x with
    | sendThrows what => simp [waitStarts, ho]
    | waitThrows what => simp [waitStarts, ho]
    | reply result =>
      have hrest : ∃ y ∈ xs, throws (start y) = true := by
        simpa [ho, throws] using h
      cases hs : result.success with
      | true => simpa [waitStarts, ho, hs] using ih hrest _
      | false => simpa [waitStarts, ho, hs] using ih hrest _

/-- How an attempt ends, from the outcomes of its RPCs. -/
inductive Outcome (start abort : σ → Rpc) (xs : List σ) : Attempt σ → Prop where
  | threw (e : Exception) : (∃ x ∈ xs, throws (start x) = true) →
      Outcome start abort xs (.threw (xs.takeWhile fun x => !isSendThrows (start x)) e)
  | accepted : (∀ x ∈ xs, accepted (start x) = true) →
      Outcome start abort xs (.decided xs true [] .returned)
  | refused (exit : Exit) : (∀ x ∈ xs, throws (start x) = false) →
      (∃ x ∈ xs, accepted (start x) = false) →
      (waitAborts abort (sendAborts abort (xs.filter fun x => accepted (start x))) = none →
        exit = if xs.any (fun x => hashRefused (start x)) then .retry else .returned) →
      Outcome start abort xs
        (.decided xs false (sendAborts abort (xs.filter fun x => accepted (start x))) exit)

theorem runAttempt_outcome (start abort : σ → Rpc) (xs : List σ) :
    Outcome start abort xs (runAttempt start abort xs) := by
  have hsent : (sendStarts start xs).1 = xs.takeWhile fun x => !isSendThrows (start x) :=
    sendStarts_sent xs
  unfold runAttempt
  cases hs : (sendStarts start xs).2 with
  | some what =>
    simp only [hs, hsent]
    exact .threw _ (throws_of_sendStarts hs)
  | none =>
    by_cases hw : ∃ x ∈ xs, throws (start x) = true
    · obtain ⟨what, hthrown⟩ := Option.ne_none_iff_exists'.mp (waitStarts_thrown hw {})
      simp only [hs, hsent, hthrown]
      exact .threw _ hw
    · have hall : ∀ x ∈ xs, throws (start x) = false := by
        intro x hx
        by_contra ht
        exact hw ⟨x, hx, by simpa using ht⟩
      simp only [hs, hsent, takeWhile_of_answered hall, waitStarts_answered hall, Bool.true_and,
        Bool.false_or, List.nil_append]
      by_cases hacc : ∀ x ∈ xs, accepted (start x) = true
      · have hok : (xs.all fun x => accepted (start x)) = true := List.all_eq_true.mpr hacc
        have hretry : (xs.any fun x => hashRefused (start x)) = false := by
          rw [List.any_eq_false]
          intro x hx hh
          exact Bool.false_ne_true ((not_accepted_of_hashRefused hh).symm.trans (hacc x hx))
        simp only [hok, hretry, if_true, Bool.false_eq_true, if_false]
        exact .accepted hacc
      · have hok : (xs.all fun x => accepted (start x)) = false := by
          rw [Bool.eq_false_iff]
          exact fun h => hacc (List.all_eq_true.mp h)
        have hrefused : ∃ x ∈ xs, accepted (start x) = false := by
          simpa using hacc
        simp only [hok, Bool.false_eq_true, if_false]
        cases ha : waitAborts abort (sendAborts abort (xs.filter fun x => accepted (start x))) with
        | some what => exact .refused _ hall hrefused fun h => by rw [ha] at h; cases h
        | none => exact .refused _ hall hrefused fun _ => rfl

end Loops

/-! ## Which aborts an attempt sends -/

/-- The servers that accepted the start in this attempt. -/
def AcceptedBy {σ : Type} (start : σ → Rpc) (a : Attempt σ) (x : σ) : Prop :=
  x ∈ a.sent ∧ accepted (start x) = true

/-- Every server of the attempt accepted, or an abort was sent to those that did and to no
other. -/
def AllOrNothing {σ : Type} (start : σ → Rpc) (xs : List σ) (a : Attempt σ) : Prop :=
  (∀ x ∈ xs, AcceptedBy start a x) ∨ ∀ x, x ∈ a.aborted ↔ AcceptedBy start a x

/-- Every server accepts, or none of those that are sent the start does, or no start RPC
throws and no abort throws when it is sent to a server that accepted. -/
def AbortsArrive {σ : Type} (start abort : σ → Rpc) (xs : List σ) : Prop :=
  (∀ x ∈ xs, accepted (start x) = true) ∨
  (∀ x ∈ xs.takeWhile (fun x => !isSendThrows (start x)), accepted (start x) = false) ∨
  ((∀ x ∈ xs, throws (start x) = false) ∧
    ∀ x ∈ xs, accepted (start x) = true → isSendThrows (abort x) = false)

section Aborts

variable {σ : Type} {start abort : σ → Rpc} {xs : List σ}

theorem not_accepted_of_throws {o : Rpc} (h : throws o = true) : accepted o = false := by
  cases o with
  | reply result => cases h
  | _ => rfl

theorem allOrNothing_iff (start abort : σ → Rpc) (xs : List σ) :
    AllOrNothing start xs (runAttempt start abort xs) ↔ AbortsArrive start abort xs := by
  generalize ha : runAttempt start abort xs = a
  have ho : Outcome start abort xs a := ha ▸ runAttempt_outcome start abort xs
  cases ho with
  | threw e hthrows =>
    obtain ⟨y, hy, hty⟩ := hthrows
    have hno := not_accepted_of_throws hty
    constructor
    · rintro (h | h)
      · exact absurd (h y hy).2 (by simp [hno])
      · refine Or.inr (Or.inl fun x hx => ?_)
        by_contra hacc
        exact List.not_mem_nil ((h x).mpr ⟨hx, by simpa using hacc⟩)
    · rintro (h | h | ⟨h, -⟩)
      · exact absurd (h y hy) (by simp [hno])
      · refine Or.inr fun x => iff_of_false List.not_mem_nil ?_
        rintro ⟨hx, hacc⟩
        rw [h x hx] at hacc
        cases hacc
      · exact absurd (h y hy) (by simp [hty])
  | accepted hacc => exact iff_of_true (Or.inl fun x hx => ⟨hx, hacc x hx⟩) (Or.inl hacc)
  | refused exit hall hrefused hexit =>
    obtain ⟨y, hy, hny⟩ := hrefused
    unfold AbortsArrive
    rw [takeWhile_of_answered hall]
    constructor
    · rintro (h | h)
      · exact absurd (h y hy).2 (by simp [hny])
      · refine Or.inr (Or.inr ⟨hall, fun x hx hacc => ?_⟩)
        have hx := (List.mem_filter.mp ((h x).mpr ⟨hx, hacc⟩)).2
        simpa using hx
    · intro h
      refine Or.inr fun x => ?_
      change x ∈ sendAborts abort _ ↔ x ∈ xs ∧ _
      unfold sendAborts
      rw [List.mem_filter, List.mem_filter]
      refine ⟨fun hx => hx.1, fun hx => ⟨hx, ?_⟩⟩
      rcases h with h | h | ⟨-, h⟩
      · exact absurd (h y hy) (by simp [hny])
      · rw [h x hx.1] at hx
        cases hx.2
      · rw [h x hx.1 hx.2]
        rfl

/-- All servers answer alike. -/
theorem runAttempt_accepted (abort : σ → Rpc) (h : ∀ x ∈ xs, accepted (start x) = true) :
    runAttempt start abort xs = .decided xs true [] .returned := by
  have ho := runAttempt_outcome start abort xs
  generalize runAttempt start abort xs = a at ho ⊢
  cases ho with
  | threw e hthrows =>
    obtain ⟨x, hx, ht⟩ := hthrows
    have hno := not_accepted_of_throws ht
    rw [h x hx] at hno
    cases hno
  | accepted _ => rfl
  | refused exit _ hrefused _ =>
    obtain ⟨x, hx, hno⟩ := hrefused
    rw [h x hx] at hno
    cases hno

theorem runAttempt_hashRefused (abort : σ → Rpc) (hne : xs ≠ [])
    (h : ∀ x ∈ xs, hashRefused (start x) = true) :
    runAttempt start abort xs = .decided xs false [] .retry := by
  obtain ⟨y, hy⟩ := List.exists_mem_of_ne_nil xs hne
  have hnone : xs.filter (fun x => accepted (start x)) = [] := by
    rw [List.filter_eq_nil_iff]
    intro x hx
    rw [not_accepted_of_hashRefused (h x hx)]
    exact Bool.false_ne_true
  have hany : (xs.any fun x => hashRefused (start x)) = true := List.any_eq_true.mpr ⟨y, hy, h y hy⟩
  have ho := runAttempt_outcome start abort xs
  generalize runAttempt start abort xs = a at ho ⊢
  cases ho with
  | threw e hthrows =>
    obtain ⟨x, hx, ht⟩ := hthrows
    have hr := h x hx
    cases hs : start x <;> rw [hs] at ht hr
    · cases hr
    · cases hr
    · cases ht
  | accepted hacc =>
    have hno := not_accepted_of_hashRefused (h y hy)
    rw [hacc y hy] at hno
    cases hno
  | refused exit _ _ hexit =>
    rw [hnone] at hexit ⊢
    rw [hexit rfl, hany]
    rfl

end Aborts

/-- In a call with any number of attempts, whatever the RPCs and SSG do. -/
theorem all_or_nothing_iff_aborts_arrive (env : ℕ → AttemptEnv) (h₀ : DistributedPipelineHandle)
    (iteration : UInt64) :
    (∀ k h, Begins env h₀ iteration k h →
      AllOrNothing (fun p => (env k).start h.groupHash p iteration) (servers h)
        (attempt (env k) h iteration)) ↔
    ∀ k h, Begins env h₀ iteration k h →
      AbortsArrive (fun p => (env k).start h.groupHash p iteration)
        (fun p => (env k).abort p iteration) (servers h) := by
  constructor
  · intro ha k h hb
    exact (allOrNothing_iff _ _ _).mp (ha k h hb)
  · intro ha k h hb
    exact (allOrNothing_iff _ _ _).mpr (ha k h hb)

/-- Two servers: the first accepts, and waiting for the second throws. -/
def secondServerLost : AttemptEnv where
  client := .ofView []
  start _ p _ := if p.2 = 1 then .waitThrows "HG_TIMEOUT" else .reply {}
  abort _ _ := .reply {}

def twoServers : DistributedPipelineHandle where
  name := "p"
  pipelines := [⟨"p", [97], 0⟩, ⟨"p", [98], 0⟩]
  ssgGroupFile := "colza.ssg"
  gid := some 0
  groupHash := 3
  providerId := 0

theorem accepted_start_is_not_aborted :
    ¬ ∀ (env : ℕ → AttemptEnv) (h₀ : DistributedPipelineHandle) (iteration : UInt64) (k : ℕ)
      (h : DistributedPipelineHandle), Begins env h₀ iteration k h →
        AllOrNothing (fun p => (env k).start h.groupHash p iteration) (servers h)
          (attempt (env k) h iteration) := by
  intro hall
  rcases hall (fun _ => secondServerLost) twoServers 1 0 twoServers .first with h | h
  · have hlost := (h (⟨"p", [98], 0⟩, 1) (by decide)).2
    exact Bool.false_ne_true hlost
  · have hfirst : AcceptedBy (fun p => secondServerLost.start twoServers.groupHash p 1)
        (attempt secondServerLost twoServers 1) (⟨"p", [97], 0⟩, 0) := ⟨by decide, rfl⟩
    exact List.not_mem_nil ((h _).mpr hfirst)

/-! ## How the call of rank 0 ends -/

/-- Every RPC is answered: server `j` answers the start of attempt `k` with `replies k j`. -/
def answeredBy (clients : ℕ → ClientEnv) (replies aborts : ℕ → ℕ → RequestResult Int32) (k : ℕ) :
    AttemptEnv where
  client := clients k
  start _ p _ := .reply (replies k p.2)
  abort p _ := .reply (aborts k p.2)

/-- One of the first `size` servers refuses because of the group hash. -/
def RefusesHash (replies : ℕ → RequestResult Int32) (size : ℕ) : Prop :=
  ∃ j < size, isHashRefusal (replies j) = true

def AllAccept (replies : ℕ → RequestResult Int32) (size : ℕ) : Prop :=
  ∀ j < size, (replies j).success = true

/-- The handle of attempt `k` when every refresh before it succeeds. -/
def handleAt (env : ℕ → AttemptEnv) (h₀ : DistributedPipelineHandle) :
    ℕ → Option DistributedPipelineHandle
  | 0 => some h₀
  | k + 1 => (handleAt env h₀ k).bind fun h => (refresh env h (k + 1)).result.toOption

section Ends

variable (env : ℕ → AttemptEnv) (h₀ : DistributedPipelineHandle) (iteration : UInt64)

/-- The call returns. -/
def Returns : Prop :=
  ∃ k h, Begins env h₀ iteration k h ∧ (attempt (env k) h iteration).exit = .returned

/-- The call ends with an exception, of an attempt or of a refresh. -/
def Throws : Prop :=
  ∃ k h e, Begins env h₀ iteration k h ∧ ((attempt (env k) h iteration).exit = .threw e ∨
    (attempt (env k) h iteration).exit = .retry ∧ (refresh env h (k + 1)).result = .error e)

/-- There is a last attempt, and every server accepts in it. -/
def LastAccepted : Prop :=
  ∃ k h, Begins env h₀ iteration k h ∧ (∀ h', ¬ Begins env h₀ iteration (k + 1) h') ∧
    ∀ p ∈ servers h, AcceptedBy (fun p => (env k).start h.groupHash p iteration)
      (attempt (env k) h iteration) p

end Ends

section Answered

variable {clients : ℕ → ClientEnv} {replies aborts : ℕ → ℕ → RequestResult Int32}
  {h₀ h : DistributedPipelineHandle} {iteration : UInt64} {k : ℕ}

theorem forall_servers (h : DistributedPipelineHandle) (P : ℕ → Prop) :
    (∀ p ∈ servers h, P p.2) ↔ ∀ j < h.pipelines.length, P j := by
  constructor
  · intro hall j hj
    have hmem : (h.pipelines[j], j) ∈ servers h := by
      rw [servers, List.mem_zipIdx_iff_getElem?]
      exact List.getElem?_eq_getElem hj
    exact hall _ hmem
  · intro hall p hp
    rw [servers, List.mem_zipIdx_iff_getElem?] at hp
    exact hall p.2 (List.getElem?_eq_some_iff.mp hp).1

theorem exists_servers (h : DistributedPipelineHandle) (P : ℕ → Prop) :
    (∃ p ∈ servers h, P p.2) ↔ ∃ j < h.pipelines.length, P j := by
  have hnot := not_congr (forall_servers h fun j => ¬ P j)
  simpa only [not_forall, not_not, exists_prop] using hnot

theorem waitAborts_answered {σ : Type} {replies : σ → RequestResult Int32} (xs : List σ) :
    waitAborts (fun x => .reply (replies x)) xs = none := by
  induction xs with
  | nil => rfl
  | cons x xs ih => exact ih

/-- An attempt in which every RPC is answered: what it sends and broadcasts, and how it
goes on. -/
theorem attempt_answered (clients : ℕ → ClientEnv) (replies aborts : ℕ → ℕ → RequestResult Int32)
    (h : DistributedPipelineHandle) (iteration : UInt64) (k : ℕ) :
    ∃ ok aborted exit, attempt (answeredBy clients replies aborts k) h iteration =
        .decided (servers h) ok aborted exit ∧
      (ok = true ↔ AllAccept (replies k) h.pipelines.length) ∧
      (RefusesHash (replies k) h.pipelines.length → exit = .retry) ∧
      (¬ RefusesHash (replies k) h.pipelines.length → exit = .returned) := by
  have ho := runAttempt_outcome (fun p => Rpc.reply (replies k p.2))
    (fun p => Rpc.reply (aborts k p.2)) (servers h)
  change Outcome _ _ _ (attempt (answeredBy clients replies aborts k) h iteration) at ho
  unfold RefusesHash AllAccept
  rw [← exists_servers h fun j => isHashRefusal (replies k j) = true,
    ← forall_servers h fun j => (replies k j).success = true]
  generalize attempt (answeredBy clients replies aborts k) h iteration = a at ho ⊢
  cases ho with
  | threw e hthrows =>
    obtain ⟨p, -, hp⟩ := hthrows
    cases hp
  | accepted hacc =>
    refine ⟨true, [], .returned, rfl, iff_of_true rfl hacc, ?_, fun _ => rfl⟩
    rintro ⟨p, hp, hpr⟩
    have hpa := not_accepted_of_hashRefused (o := .reply (replies k p.2)) hpr
    rw [hacc p hp] at hpa
    cases hpa
  | refused exit _ hrefused hexit =>
    obtain ⟨p, hp, hpa⟩ := hrefused
    have hexit := hexit (waitAborts_answered _)
    refine ⟨false, _, exit, rfl, iff_of_false Bool.false_ne_true ?_, ?_, ?_⟩
    · intro hall
      exact Bool.false_ne_true (hpa.symm.trans (hall p hp))
    · intro hr
      rw [hexit]
      exact if_pos (List.any_eq_true.mpr hr)
    · intro hr
      rw [hexit]
      exact if_neg fun hany => hr (List.any_eq_true.mp hany)

theorem exit_returned_iff (h : DistributedPipelineHandle) (k : ℕ) :
    (attempt (answeredBy clients replies aborts k) h iteration).exit = .returned ↔
      ¬ RefusesHash (replies k) h.pipelines.length := by
  obtain ⟨ok, aborted, exit, he, -, hretry, hreturned⟩ := attempt_answered clients replies
    aborts h iteration k
  rw [he]
  refine ⟨fun hexit hr => ?_, hreturned⟩
  rw [Attempt.exit, hretry hr] at hexit
  cases hexit

theorem exit_retry_iff (h : DistributedPipelineHandle) (k : ℕ) :
    (attempt (answeredBy clients replies aborts k) h iteration).exit = .retry ↔
      RefusesHash (replies k) h.pipelines.length := by
  obtain ⟨ok, aborted, exit, he, -, hretry, hreturned⟩ := attempt_answered clients replies
    aborts h iteration k
  rw [he]
  refine ⟨fun hexit => ?_, hretry⟩
  by_contra hr
  rw [Attempt.exit, hreturned hr] at hexit
  cases hexit

theorem exit_ne_threw (h : DistributedPipelineHandle) (k : ℕ) (e : Exception) :
    (attempt (answeredBy clients replies aborts k) h iteration).exit ≠ .threw e := by
  intro hexit
  by_cases hr : RefusesHash (replies k) h.pipelines.length
  · rw [(exit_retry_iff h k).mpr hr] at hexit
    cases hexit
  · rw [(exit_returned_iff h k).mpr hr] at hexit
    cases hexit

/-- Attempt `k` begins when every earlier one is refused because of the group hash and every
refresh succeeds. -/
theorem begins_iff : Begins (answeredBy clients replies aborts) h₀ iteration k h ↔
    handleAt (answeredBy clients replies aborts) h₀ k = some h ∧
      ∀ j < k, ∃ h', handleAt (answeredBy clients replies aborts) h₀ j = some h' ∧
        RefusesHash (replies j) h'.pipelines.length := by
  constructor
  · intro hb
    induction hb with
    | first => exact ⟨rfl, fun j hj => (Nat.not_lt_zero j hj).elim⟩
    | @again k h h' _ hexit hrefresh ih =>
      obtain ⟨hh, hearlier⟩ := ih
      refine ⟨by simp [handleAt, hh, hrefresh, Except.toOption], fun j hj => ?_⟩
      rcases Nat.lt_succ_iff_lt_or_eq.mp hj with hlt | rfl
      · exact hearlier j hlt
      · exact ⟨h, hh, (exit_retry_iff h j).mp hexit⟩
  · rintro ⟨hh, hearlier⟩
    induction k generalizing h with
    | zero =>
      obtain rfl : h₀ = h := Option.some.inj hh
      exact .first
    | succ k ih =>
      obtain ⟨h', hh', hr⟩ := hearlier k (Nat.lt_succ_self k)
      have hb := ih hh' fun j hj => hearlier j (Nat.lt_succ_of_lt hj)
      rw [handleAt, hh', Option.bind_some] at hh
      cases hrefresh : (refresh (answeredBy clients replies aborts) h' (k + 1)).result with
      | error e =>
        rw [hrefresh] at hh
        cases hh
      | ok h'' =>
        rw [hrefresh] at hh
        obtain rfl : h'' = h := Option.some.inj hh
        exact .again hb ((exit_retry_iff h' k).mpr hr) hrefresh

theorem begins_unique {h' : DistributedPipelineHandle}
    (hb : Begins (answeredBy clients replies aborts) h₀ iteration k h)
    (hb' : Begins (answeredBy clients replies aborts) h₀ iteration k h') : h = h' :=
  Option.some.inj ((begins_iff.mp hb).1.symm.trans (begins_iff.mp hb').1)

/-- An attempt that is followed by another one is refused because of the group hash, and the
refresh after it succeeds. -/
theorem refused_of_later {j : ℕ} {h' : DistributedPipelineHandle}
    (hb : Begins (answeredBy clients replies aborts) h₀ iteration k h)
    (hb' : Begins (answeredBy clients replies aborts) h₀ iteration j h') (hjk : j < k) :
    RefusesHash (replies j) h'.pipelines.length ∧
      ∃ h'', (refresh (answeredBy clients replies aborts) h' (j + 1)).result = .ok h'' := by
  induction hb with
  | first => exact (Nat.not_lt_zero j hjk).elim
  | @again k h h'' hb hexit hrefresh ih =>
    rcases Nat.lt_succ_iff_lt_or_eq.mp hjk with hlt | rfl
    · exact ih hlt
    · obtain rfl := begins_unique hb' hb
      exact ⟨(exit_retry_iff h' j).mp hexit, h'', hrefresh⟩

theorem not_refusesHash_of_allAccept {replies : ℕ → RequestResult Int32} {size : ℕ}
    (h : AllAccept replies size) : ¬ RefusesHash replies size := by
  rintro ⟨j, hj, hr⟩
  simp [isHashRefusal, h j hj] at hr

theorem lastAccepted_iff : LastAccepted (answeredBy clients replies aborts) h₀ iteration ↔
    ∃ k h, Begins (answeredBy clients replies aborts) h₀ iteration k h ∧
      AllAccept (replies k) h.pipelines.length := by
  constructor
  · rintro ⟨k, h, hb, -, hacc⟩
    refine ⟨k, h, hb, ?_⟩
    exact (forall_servers h fun j => (replies k j).success = true).mp fun p hp => (hacc p hp).2
  · rintro ⟨k, h, hb, hacc⟩
    refine ⟨k, h, hb, fun h' hb' => ?_, fun p hp => ⟨?_, ?_⟩⟩
    · exact not_refusesHash_of_allAccept hacc (refused_of_later hb' hb (Nat.lt_succ_self k)).1
    · obtain ⟨ok, aborted, exit, he, -⟩ := attempt_answered clients replies
        aborts h iteration k
      rw [he]
      exact hp
    · exact (forall_servers h fun j => (replies k j).success = true).mpr hacc p hp

end Answered

/-- The call returns exactly when every server accepted in its last attempt, and throws in
every other case. -/
def ReturnsWhenAccepted (env : ℕ → AttemptEnv) (h₀ : DistributedPipelineHandle)
    (iteration : UInt64) : Prop :=
  (Returns env h₀ iteration ↔ LastAccepted env h₀ iteration) ∧
    (¬ LastAccepted env h₀ iteration → Throws env h₀ iteration)

/-- After attempts refused because of the group hash, each with a refresh that succeeds,
there is one that every server accepts, or one after which the refresh fails. -/
def Settles (env : ℕ → AttemptEnv) (replies : ℕ → ℕ → RequestResult Int32)
    (h₀ : DistributedPipelineHandle) : Prop :=
  ∃ k h, handleAt env h₀ k = some h ∧
    (∀ j < k, ∃ h', handleAt env h₀ j = some h' ∧
      RefusesHash (replies j) h'.pipelines.length) ∧
    (AllAccept (replies k) h.pipelines.length ∨
      RefusesHash (replies k) h.pipelines.length ∧ ∃ e, (refresh env h (k + 1)).result = .error e)

section Answered

variable {clients : ℕ → ClientEnv} {replies aborts : ℕ → ℕ → RequestResult Int32}
  {h₀ : DistributedPipelineHandle} {iteration : UInt64}

theorem settles_iff (iteration : UInt64) : Settles (answeredBy clients replies aborts) replies h₀ ↔
    ∃ k h, Begins (answeredBy clients replies aborts) h₀ iteration k h ∧
      (AllAccept (replies k) h.pipelines.length ∨
        RefusesHash (replies k) h.pipelines.length ∧
          ∃ e, (refresh (answeredBy clients replies aborts) h (k + 1)).result = .error e) := by
  unfold Settles
  simp only [begins_iff, and_assoc]

/-- Where a refresh fails, every attempt is refused because of the group hash. -/
theorem refused_of_refresh_fails {j k : ℕ} {h h' : DistributedPipelineHandle} {e : Exception}
    (hb : Begins (answeredBy clients replies aborts) h₀ iteration k h)
    (hr : RefusesHash (replies k) h.pipelines.length)
    (he : (refresh (answeredBy clients replies aborts) h (k + 1)).result = .error e)
    (hb' : Begins (answeredBy clients replies aborts) h₀ iteration j h') :
    RefusesHash (replies j) h'.pipelines.length := by
  rcases Nat.lt_trichotomy j k with hlt | rfl | hgt
  · exact (refused_of_later hb hb' hlt).1
  · obtain rfl := begins_unique hb hb'
    exact hr
  · obtain ⟨-, h'', hok⟩ := refused_of_later hb' hb hgt
    rw [he] at hok
    cases hok

theorem returnsWhenAccepted_of_settles
    (hs : Settles (answeredBy clients replies aborts) replies h₀) :
    ReturnsWhenAccepted (answeredBy clients replies aborts) h₀ iteration := by
  unfold ReturnsWhenAccepted
  rw [lastAccepted_iff]
  obtain ⟨k, h, hb, hacc | ⟨hr, e, he⟩⟩ := (settles_iff iteration).mp hs
  · have hreturned : (attempt (answeredBy clients replies aborts k) h iteration).exit = .returned :=
      (exit_returned_iff h k).mpr (not_refusesHash_of_allAccept hacc)
    exact ⟨iff_of_true ⟨k, h, hb, hreturned⟩ ⟨k, h, hb, hacc⟩, fun hn => (hn ⟨k, h, hb, hacc⟩).elim⟩
  · refine ⟨iff_of_false ?_ ?_, fun _ => ?_⟩
    · rintro ⟨j, h', hb', hexit⟩
      exact (exit_returned_iff h' j).mp hexit (refused_of_refresh_fails hb hr he hb')
    · rintro ⟨j, h', hb', hacc⟩
      exact not_refusesHash_of_allAccept hacc (refused_of_refresh_fails hb hr he hb')
    · exact ⟨k, h, e, hb, Or.inr ⟨(exit_retry_iff h k).mpr hr, he⟩⟩

theorem settles_of_returnsWhenAccepted
    (h : ReturnsWhenAccepted (answeredBy clients replies aborts) h₀ iteration) :
    Settles (answeredBy clients replies aborts) replies h₀ := by
  rw [settles_iff iteration]
  by_cases hl : LastAccepted (answeredBy clients replies aborts) h₀ iteration
  · obtain ⟨k, h, hb, hacc⟩ := lastAccepted_iff.mp hl
    exact ⟨k, h, hb, Or.inl hacc⟩
  · obtain ⟨k, h, e, hb, hthrew | ⟨hretry, he⟩⟩ := h.2 hl
    · exact (exit_ne_threw h k e hthrew).elim
    · exact ⟨k, h, hb, Or.inr ⟨(exit_retry_iff h k).mp hretry, e, he⟩⟩

/-- The pipeline is active at iteration `i` on a provider that accepts the start. -/
theorem active_of_succeeded {β : Type} {env : ProviderHandlers.Environment β}
    {s : ProviderHandlers.Provider β} {groupHash : UInt64} {name : String} {i : UInt64}
    (h : (ProviderHandlers.start env s groupHash name i).succeeded) :
    ∃ st, (ProviderHandlers.start env s groupHash name i).provider.pipelines.lookup name = some st ∧
      st.active = true ∧ st.iteration = i := by
  obtain ⟨st, r, b, hl, ha, hi, hr, he⟩ :=
    ProviderHandlers.start_accepted (ProviderHandlers.start_succeeded.mp h)
  refine ⟨{ st.setBackend b with iteration := i, active := true }, ?_, rfl, rfl⟩
  rw [he]
  simp [ProviderHandlers.Provider.activate, ProviderHandlers.Provider.setState]

end Answered

/-- Whatever the servers answer in each attempt and whatever the refreshes find. The second
part is what an accepted start leaves behind on its provider. -/
theorem returns_when_accepted_iff_settles (clients : ℕ → ClientEnv)
    (replies aborts : ℕ → ℕ → RequestResult Int32) (h₀ : DistributedPipelineHandle)
    (iteration : UInt64) :
    (ReturnsWhenAccepted (answeredBy clients replies aborts) h₀ iteration ↔
      Settles (answeredBy clients replies aborts) replies h₀) ∧
    ∀ (β : Type) (env : ProviderHandlers.Environment β) (s : ProviderHandlers.Provider β)
      (groupHash : UInt64) (name : String),
      (ProviderHandlers.start env s groupHash name iteration).succeeded →
        ∃ st, (ProviderHandlers.start env s groupHash name iteration).provider.pipelines.lookup
          name = some st ∧ st.active = true ∧ st.iteration = iteration := by
  refine ⟨⟨settles_of_returnsWhenAccepted, returnsWhenAccepted_of_settles⟩, ?_⟩
  intro β env s groupHash name hs
  exact active_of_succeeded hs

def oneServer : DistributedPipelineHandle := { twoServers with pipelines := [⟨"p", [97], 0⟩] }

/-- Another client has an iteration open on the only server. -/
def activeElsewhere : RequestResult Int32 :=
  .failure .pipelineIsActive "Pipeline is already active"

theorem refused_start_returns :
    ¬ ∀ (clients : ℕ → ClientEnv) (replies aborts : ℕ → ℕ → RequestResult Int32)
      (h₀ : DistributedPipelineHandle) (iteration : UInt64),
      ReturnsWhenAccepted (answeredBy clients replies aborts) h₀ iteration := by
  intro hall
  have h := (hall (fun _ => .ofView []) (fun _ _ => activeElsewhere) (fun _ _ => {}) oneServer 1).1
  have hreturns := h.mp ⟨0, oneServer, .first, rfl⟩
  obtain ⟨k, h, hb, hacc⟩ := lastAccepted_iff.mp hreturns
  cases k with
  | zero =>
    obtain rfl := begins_unique hb .first
    exact Bool.false_ne_true (hacc 0 (by decide))
  | succ k =>
    obtain ⟨⟨j, -, hr⟩, -⟩ := refused_of_later hb .first (Nat.succ_pos k)
    exact Bool.false_ne_true hr

end DistributedStart
