import Colza.AsyncRequests

/-!
# Waiting for a request more than once

A wait that throws leaves a request without responses that does not count as waited for. The
next wait for it reads an empty vector, or folds no reply and returns.
-/
namespace AsyncWaits

open Interfaces GuardedRuns ReplyCallbacks AsyncRequests

/-- Each response is waited for once at most, no vector is read out of range, and all waits for
a request end in the same way. -/
structure Sound (b : Book) : Prop where
  once : b.consumed.Nodup
  inRange : ∀ r, (r, Outcome.outOfRange) ∉ b.waits
  same : ∀ r o o', (r, o) ∈ b.waits → (r, o') ∈ b.waits → o = o'

/-- The responses are gone, and the request does not count as waited for. -/
def Failed (b : Book) (r : RequestId) : Prop :=
  ∃ impl ∈ b.impls[r]?, impl.waited = false ∧ impl.responses = []

/-- The operation does not wait for a request that has failed. -/
def Guard (s : State) (op : Operation) : Prop :=
  ∀ r ∈ target s op, ¬ Failed s.book r

instance (b : Book) (r : RequestId) : Decidable (Failed b r) :=
  inferInstanceAs (Decidable (∃ _ ∈ _, _))

instance (s : State) (op : Operation) : Decidable (Guard s op) :=
  inferInstanceAs (Decidable (∀ _ ∈ _, _))

/-- What is on record for a request. -/
inductive Tracked (b : Book) (r : RequestId) (impl : AsyncRequestImpl) : Prop where
  | untouched (hw : impl.waited = false) (hr : impl.responses ≠ [])
      (hwaits : ∀ o, (r, o) ∉ b.waits) (hconsumed : ∀ j, (r, j) ∉ b.consumed)
  | returned (hw : impl.waited = true) (hwaits : ∀ o, (r, o) ∈ b.waits → o = .returned)
  | threw (e : Exception) (hw : impl.waited = false) (hr : impl.responses = [])
      (hlogged : (r, .threw e) ∈ b.waits) (hwaits : ∀ o, (r, o) ∈ b.waits → o = .threw e)

structure Invariant (b : Book) : Prop where
  tracked : ∀ r impl, b.impls[r]? = some impl → Tracked b r impl
  waited : ∀ w ∈ b.waits, w.1 < b.impls.length
  consumed : ∀ c ∈ b.consumed, c.1 < b.impls.length
  once : b.consumed.Nodup

section Callbacks

theorem run_inRange (callback : Callback) {replies : List Reply} (h : replies ≠ []) :
    (callback.run replies).outcome ≠ .outOfRange := by
  have hconclude (given : Bool) (n : ℕ) (response : RequestResult Int32) :
      (conclude given n response).outcome ≠ .outOfRange := by
    unfold conclude
    split <;> simp
  cases callback with
  | first given =>
    cases replies with
    | nil => exact (h rfl).elim
    | cons reply replies => exact hconclude _ _ _
  | all given => exact hconclude _ _ _

/-- On no responses, neither callback throws. -/
theorem run_nil (callback : Callback) (e : Exception) :
    (callback.run []).outcome ≠ .threw e := by
  cases callback with
  | first given | all given => simp [Callback.run, waitFirst, waitAll, conclude, foldResponses]

end Callbacks

section Books

variable {b b' : Book} {r : RequestId} {impl : AsyncRequestImpl}

/-- Nothing of the record of a request is about another one. -/
theorem Tracked.frame (h : Tracked b r impl)
    (hwaits : ∀ o, (r, o) ∈ b'.waits ↔ (r, o) ∈ b.waits)
    (hconsumed : ∀ j, (r, j) ∈ b'.consumed → (r, j) ∈ b.consumed) : Tracked b' r impl := by
  cases h with
  | untouched hw hr hnone hunused =>
    exact .untouched hw hr (fun o ho => hnone o ((hwaits o).mp ho))
      (fun j hj => hunused j (hconsumed j hj))
  | returned hw hall => exact .returned hw fun o ho => hall o ((hwaits o).mp ho)
  | threw e hw hr hlogged hall =>
    exact .threw e hw hr ((hwaits _).mpr hlogged) fun o ho => hall o ((hwaits o).mp ho)

theorem Tracked.same (h : Tracked b r impl) {o o' : Outcome} (ho : (r, o) ∈ b.waits)
    (ho' : (r, o') ∈ b.waits) : o = o' ∧ o ≠ .outOfRange := by
  cases h with
  | untouched _ _ hnone => exact (hnone o ho).elim
  | returned _ hall => exact ⟨by rw [hall o ho, hall o' ho'], by simp [hall o ho]⟩
  | threw e _ _ _ hall => exact ⟨by rw [hall o ho, hall o' ho'], by simp [hall o ho]⟩

theorem Invariant.sound (hb : Invariant b) : Sound b := by
  have hissued {r : RequestId} {o : Outcome} (ho : (r, o) ∈ b.waits) :
      ∃ impl, Tracked b r impl :=
    ⟨_, hb.tracked r _ (List.getElem?_eq_getElem (hb.waited _ ho))⟩
  refine ⟨hb.once, fun r ho => ?_, fun r o o' ho ho' => ?_⟩
  · obtain ⟨impl, h⟩ := hissued ho
    exact (h.same ho ho).2 rfl
  · obtain ⟨impl, h⟩ := hissued ho
    exact (h.same ho ho').1

theorem Invariant.issue (hb : Invariant b) (hw : impl.waited = false)
    (hr : impl.responses ≠ []) : Invariant (b.issue impl) := by
  have hlen : (b.issue impl).impls.length = b.impls.length + 1 := List.length_append ..
  constructor
  case tracked =>
    intro r other hother
    rcases Nat.lt_trichotomy r b.impls.length with hlt | rfl | hgt
    · rw [Book.issue, List.getElem?_append_left hlt] at hother
      exact (hb.tracked r other hother).frame (fun o => Iff.rfl) (fun j hj => hj)
    · rw [Book.issue, List.getElem?_concat_length] at hother
      cases hother
      exact .untouched hw hr (fun o ho => Nat.lt_irrefl _ (hb.waited _ ho))
        (fun j hj => Nat.lt_irrefl _ (hb.consumed _ hj))
    · have hnone : (b.issue impl).impls[r]? = none := List.getElem?_eq_none (by omega)
      rw [hnone] at hother
      cases hother
  case waited =>
    intro w hw
    rw [hlen]
    exact Nat.lt_succ_of_lt (hb.waited w hw)
  case consumed =>
    intro c hc
    rw [hlen]
    exact Nat.lt_succ_of_lt (hb.consumed c hc)
  case once => exact hb.once

/-- A wait changes the record of its own request only. -/
theorem Invariant.logged (hb : Invariant b) (hr : r < b.impls.length) {o : Outcome} {k : ℕ}
    (himpls : b'.impls = b.impls.set r impl) (hwaits : b'.waits = b.waits ++ [(r, o)])
    (hconsumed : b'.consumed = b.consumed ++ (List.range k).map fun j => (r, j))
    (hk : k = 0 ∨ ∀ j, (r, j) ∉ b.consumed) (htracked : Tracked b' r impl) : Invariant b' := by
  have hlen : b'.impls.length = b.impls.length := by rw [himpls, List.length_set]
  have hnew {c : RequestId × ℕ} (hc : c ∈ (List.range k).map fun j => (r, j)) : c.1 = r := by
    obtain ⟨j, -, rfl⟩ := List.mem_map.mp hc
    rfl
  constructor
  case tracked =>
    intro q other hother
    by_cases hq : q = r
    · subst hq
      rw [himpls, List.getElem?_set_self hr] at hother
      cases hother
      exact htracked
    · rw [himpls, List.getElem?_set_ne (Ne.symm hq)] at hother
      apply (hb.tracked q other hother).frame
      · intro o'
        rw [hwaits, List.mem_append, List.mem_singleton]
        exact or_iff_left fun h => hq (congrArg Prod.fst h)
      · intro j hj
        rw [hconsumed, List.mem_append] at hj
        exact hj.resolve_right fun h => hq (hnew h)
  case waited =>
    intro w hw
    rw [hlen]
    rw [hwaits, List.mem_append, List.mem_singleton] at hw
    rcases hw with hw | rfl
    · exact hb.waited w hw
    · exact hr
  case consumed =>
    intro c hc
    rw [hlen]
    rw [hconsumed, List.mem_append] at hc
    rcases hc with hc | hc
    · exact hb.consumed c hc
    · exact (hnew hc).symm ▸ hr
  case once =>
    rw [hconsumed, List.nodup_append]
    refine ⟨hb.once, List.nodup_range.map fun i j h => congrArg Prod.snd h, ?_⟩
    rintro c hc d hd rfl
    obtain ⟨j, hj, rfl⟩ := List.mem_map.mp hd
    rcases hk with rfl | hk
    · simp at hj
    · exact hk j hc

/-- A wait that is not the first one runs no callback. -/
theorem Invariant.wait_returned (hb : Invariant b) (hr : b.impls[r]? = some impl)
    (hw : impl.waited = true) : Invariant (b.wait r).1 := by
  rw [wait_waited hr hw]
  obtain ⟨hlt, heq⟩ := List.getElem?_eq_some_iff.mp hr
  have himpls : b.impls = b.impls.set r impl := by rw [← heq, List.set_getElem_self]
  refine hb.logged (k := 0) hlt himpls rfl (by simp) (Or.inl rfl) ?_
  refine .returned hw fun o ho => ?_
  rcases List.mem_append.mp ho with ho | ho
  · cases hb.tracked r impl hr with
    | returned _ hall => exact hall o ho
    | untouched hfalse | threw _ hfalse =>
      rw [hw] at hfalse
      cases hfalse
  · exact congrArg Prod.snd (List.mem_singleton.mp ho)

/-- The first wait decides how the later ones have to end. -/
theorem Invariant.wait_first (hb : Invariant b) (hr : b.impls[r]? = some impl)
    (hw : impl.waited = false) (hne : impl.responses ≠ []) : Invariant (b.wait r).1 := by
  rw [wait_open hr (by simp [hw])]
  obtain ⟨hlt, -⟩ := List.getElem?_eq_some_iff.mp hr
  have hin := run_inRange impl.callback hne
  cases hb.tracked r impl hr with
  | returned htrue =>
    rw [hw] at htrue
    cases htrue
  | threw _ _ hempty => exact (hne hempty).elim
  | untouched _ _ hnone hunused =>
    refine hb.logged hlt rfl rfl rfl (Or.inr hunused) ?_
    generalize impl.callback.run impl.responses = ran at hin ⊢
    have hall : ∀ o, (r, o) ∈ b.waits ++ [(r, ran.outcome)] → o = ran.outcome := by
      intro o ho
      rcases List.mem_append.mp ho with ho | ho
      · exact (hnone o ho).elim
      · exact congrArg Prod.snd (List.mem_singleton.mp ho)
    cases hout : ran.outcome with
    | outOfRange => exact (hin hout).elim
    | returned => exact .returned (by simp) fun o ho => (hall o ho).trans hout
    | threw e =>
      refine .threw e (by simp) (by simp) ?_ fun o ho => (hall o ho).trans hout
      rw [← hout]
      exact List.mem_append_right _ (List.mem_singleton_self _)

/-- A request that has failed neither throws again nor keeps within its vector. -/
theorem Invariant.wait_failed (hb : Invariant b) (hfailed : Failed b r) :
    ¬ Sound (b.wait r).1 := by
  obtain ⟨impl, hr, hw, hempty⟩ := hfailed
  intro hsound
  rw [wait_open hr (by simp [hw]), hempty] at hsound
  cases hb.tracked r impl hr with
  | returned htrue =>
    rw [hw] at htrue
    cases htrue
  | untouched _ hne => exact hne hempty
  | threw e _ _ hlogged =>
    have hsame := hsound.same r _ _ (List.mem_append_left _ hlogged)
      (List.mem_append_right _ (List.mem_singleton_self _))
    exact run_nil impl.callback e hsame.symm

/-- One wait is harmless exactly when it is not for a request that has failed. -/
theorem Invariant.wait_exact (hb : Invariant b) (hr : r < b.impls.length) :
    (Sound (b.wait r).1 ↔ ¬ Failed b r) ∧ (¬ Failed b r → Invariant (b.wait r).1) := by
  have hkeep : ¬ Failed b r → Invariant (b.wait r).1 := by
    intro hfailed
    have himpl := List.getElem?_eq_getElem hr
    cases hw : b.impls[r].waited with
    | true => exact hb.wait_returned himpl hw
    | false => exact hb.wait_first himpl hw fun hempty => hfailed ⟨_, himpl, hw, hempty⟩
  exact ⟨⟨fun hsound hfailed => hb.wait_failed hfailed hsound, fun h => (hkeep h).sound⟩, hkeep⟩

end Books

section Runs

variable {s t : State} {op : Operation}

theorem opened_invariant (hb : Invariant s.book) (op : Operation) : Invariant (opened s op) := by
  unfold opened
  split
  next x call =>
    cases himpl : call.impl with
    | none => exact hb
    | some impl =>
      obtain ⟨hw, hne⟩ := impl_responses himpl
      exact hb.issue hw hne
  next => exact hb

/-- A request that was there before is in the same place. -/
theorem opened_getElem? (op : Operation) {r : RequestId} (hr : r < s.book.impls.length) :
    (opened s op).impls[r]? = s.book.impls[r]? := by
  unfold opened
  split
  next x call =>
    cases call.impl with
    | none => rfl
    | some impl => exact List.getElem?_append_left hr
  next => rfl

/-- What one operation does to the record. -/
theorem step_exact (hs : AtRest s ∧ Invariant s.book) (h : Step s op t) :
    (Sound t.book ↔ Guard s op) ∧ (Guard s op → AtRest t ∧ Invariant t.book) := by
  obtain ⟨hrest, hb⟩ := hs
  have hopened := opened_invariant hb op
  have hnext := h.atRest hrest
  have hbook : t.book = ((opened s op).settle (target s op)).1 := by
    rw [h.eq_after hrest]
    rfl
  rw [hbook]
  cases htarget : target s op with
  | none =>
    have hguard : Guard s op := by
      unfold Guard
      rw [htarget]
      simp
    exact ⟨iff_of_true hopened.sound hguard, fun _ => ⟨hnext, hopened⟩⟩
  | some r =>
    have hr := target_issued hrest htarget
    have hguard : Guard s op ↔ ¬ Failed (opened s op) r := by
      unfold Guard Failed
      rw [opened_getElem? op hr, htarget]
      simp
    have hexact := hopened.wait_exact (Nat.lt_of_lt_of_le hr (opened_length s op))
    rw [hguard]
    exact ⟨hexact.1, fun hf => ⟨hnext, hexact.2 hf⟩⟩

theorem initial_invariant : Invariant initial.book := by
  constructor <;> simp [initial]

/-- For every sequence of operations on any number of objects, and for every reply. -/
theorem always_sound_iff_guarded {p : List (Operation × State)} (h : Run Step initial p) :
    Always (fun s => Sound s.book) initial p ↔ Guarded Guard initial p :=
  always_iff_guarded_of (I := fun s => AtRest s ∧ Invariant s.book) (fun _ _ _ => step_exact) h
    ⟨initial_atRest, initial_invariant⟩ initial_invariant.sound

end Runs

/-! Two servers execute, and two objects wait for them. -/

def twoWaits (replies : List Reply) : List Operation :=
  [.construct 0, .issue 0 (.distributedPipelineHandle false replies), .copyConstruct 1 0,
    .wait 0, .wait 1, .destroy 0, .destroy 1]

theorem two_waits_sound :
    Always (fun s => Sound s.book) initial
      (path next initial (twoWaits [⟨true, "", 0⟩, ⟨true, "", 0⟩])) :=
  (always_sound_iff_guarded (path_run_possible (by decide))).mpr (by decide)

/-- The second server refuses. The first wait throws, and the second one returns. -/
theorem failed_request_returns :
    ¬ ∀ p, Run Step initial p → Always (fun s => Sound s.book) initial p := by
  intro h
  have hrun : Run Step initial (path next initial (twoWaits refusedBySecond)) :=
    path_run_possible (by decide)
  have hlast := (h _ hrun).last
  have hsame := hlast.same 0 (.threw ⟨some ErrorCode.pipelineNotActive.value,
    "Pipeline is not active"⟩) .returned (by decide) (by decide)
  cases hsame

end AsyncWaits
