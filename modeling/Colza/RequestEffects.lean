import Colza.CommitPoints
import Colza.CounterRaces

/-!
# The event with which a handler takes effect

A handler that is refused takes effect with its first segment, `leave` with the pass that goes
ahead, and the others when their call on the backend object returns or, where the iteration is
closed, with the critical section after it. Each handler takes effect once, and what it responds
is then fixed.
-/
namespace RequestEffects

open Interfaces GuardedRuns CommitPoints ProviderInterleaving
open ProviderHandlers (invalidToken pipelineNotFound)

variable {n : ℕ}

/-- The requests that arrive, and what the calls on the backend object return to each of them:
`executed` is the result of `Backend::execute`, and `result` that of any other call, of which a
handler makes at most one. `args` is what a `stage` hands on. -/
structure Arrivals (n : ℕ) where
  handlers : Fin n → Handler
  args : Fin n → StageArgs
  executed : Fin n → RequestResult Int32
  result : Fin n → RequestResult Int32

/-- Whether the call that a handler is in succeeds; `Backend::abort` returns nothing. -/
def Arrivals.succeeds (a : Arrivals n) (k : Fin n) : Pc → Option Bool
  | .inBackend _ (.execute _ _) => some (a.executed k).success
  | .inBackend _ (.abort _) => none
  | .inBackend _ _ => some (a.result k).success
  | _ => none

/-- The calls on the backend object return these results. -/
def Arrivals.Tells (a : Arrivals n) (s : State n) : Event n → Prop
  | .returns k success => (a.succeeds k (s.pc k)).getD success = success
  | _ => True

instance (a : Arrivals n) (s : State n) : (e : Event n) → Decidable (a.Tells s e)
  | .returns _ _ => inferInstanceAs (Decidable (_ = _))
  | .acquire _ | .notify _ | .wake _ => inferInstanceAs (Decidable True)

/-- The refusal of `stage`, `execute`, `cleanup` and `abort`, with the flags that they find. -/
def refusalInside (name : String) (i : UInt64) (flags : Option PipelineFlags) :
    Option (RequestResult Int32) :=
  flags.elim (some (pipelineNotFound name)) fun st =>
    if !st.active then some (.failure .pipelineNotActive "Pipeline is not active")
    else if st.iteration ≠ i then some (.failure .invalidIteration "Invalid iteration")
    else none

/-- What a handler responds whose checks fail. -/
def refusal (c : Config) (s : State n) : Handler → Option (RequestResult Int32)
  | .start groupHash name i =>
    if groupHash ≠ c.groupHash then some (.failure .invalidGroupHash "Inconsistent group view")
    else (s.find name).elim (some (pipelineNotFound name)) fun st =>
      if st.active then some (.failure .pipelineIsActive "Pipeline is already active")
      else if st.iteration ≠ 0 ∧ st.iteration ≥ i then some (.failure .invalidIteration
        "Pipeline cannot be started at an inferior iteration number")
      else none
  | .stage name i | .execute name i _ | .cleanup name i | .abort name i =>
    refusalInside name i (s.find name)
  | .destroyPipeline token name =>
    if c.Refuses token then some invalidToken
    else (s.find name).elim
      (some (.failure .invalidPipelineName ("Pipeline " ++ name ++ " not found"))) fun st =>
      if st.active then some (.failure .pipelineIsActive "Cannot destroy a pipeline while active")
      else none
  | .leave => none

/-- A handler that takes effect, and what it responds; `leave` has no response. -/
structure Effect (n : ℕ) where
  handler : Fin n
  reply : Option (RequestResult Int32)
  deriving DecidableEq, Repr

/-- The handler that takes effect with an event. -/
def commit (c : Config) (a : Arrivals n) (s : State n) (e : Event n) : Option (Effect n) :=
  match step c s e, e with
  | none, _ => none
  | some _, .acquire k =>
    match s.pc k with
    | .arrived .leave | .woken => if s.numActivePipelines = 0 then some ⟨k, none⟩ else none
    | .arrived h => (refusal c s h).map fun r => ⟨k, some r⟩
    | .cleaned _ => some ⟨k, some (a.result k)⟩
    | .aborted _ => some ⟨k, some {}⟩
    | _ => none
  | some _, .returns k success =>
    match s.pc k with
    | .inBackend _ (.start _) | .inBackend _ (.stage _) | .inBackend _ .destroy =>
      some ⟨k, some (a.result k)⟩
    | .inBackend _ (.execute _ auto) =>
      if success && auto then none else some ⟨k, some (a.executed k)⟩
    | .inBackend _ (.cleanup _ _) => if success then none else some ⟨k, some (a.result k)⟩
    | _ => none
  | some _, _ => none

/-- The handler has taken effect, and only its second critical section or its notification may
be ahead. -/
def ended : Pc → Bool
  | .startFailed | .notifying | .done => true
  | _ => false

/-- The handlers that have ended after the event are those that had, and the one that takes
effect with it. -/
structure Marks (c : Config) (a : Arrivals n) (s : State n) (e : Event n) : Prop where
  fresh : ∀ x, commit c a s e = some x → ended (s.pc x.handler) = false
  ended_iff : ∀ j, ended ((next c s e).pc j) = true ↔
    ended (s.pc j) = true ∨ ∃ x, commit c a s e = some x ∧ x.handler = j

/-! ## The first segment -/

/-- What the first segment of a handler other than `leave` can do. -/
inductive Entered (c : Config) (s : State n) (k : Fin n) : Handler → State n → Prop where
  | refused {h r} : refusal c s h = some r → Entered c s k h (s.goto k .done)
  | starting {name i st} : s.find name = some st → st.active = false →
      (st.iteration = 0 ∨ st.iteration < i) →
      Entered c s k (.start c.groupHash name i) (s.goto k (.starting name i))
  | opened {h name i call} : h.opens = some (name, i, call) → s.find name = some ⟨true, i⟩ →
      Entered c s k h (s.goto k (.inBackend name call))
  | destroying {token name st} : ¬ c.Refuses token → s.lock = none → s.find name = some st →
      st.active = false → Entered c s k (.destroyPipeline token name)
        { s.goto k (.inBackend name .destroy) with
          lock := some k, destroyed := insert name s.destroyed }

section Entering

variable {c : Config} {s t : State n} {k : Fin n} {g : Handler} {name : String} {i : UInt64}
  {call : Call}

/-- The handlers that need an open iteration begin with the same checks. -/
theorem enter_opens (ho : g.opens = some (name, i, call)) :
    s.enter c k g = if s.lock ≠ none then none else some (s.onActive k name i call) := by
  cases g <;> cases ho <;> rfl

theorem refusal_opens (ho : g.opens = some (name, i, call)) :
    refusal c s g = refusalInside name i (s.find name) := by
  cases g <;> cases ho <;> rfl

theorem opens_entered (ho : g.opens = some (name, i, call)) (he : s.enter c k g = some t) :
    Entered c s k g t := by
  rw [enter_opens ho] at he
  obtain ⟨-, rfl⟩ := unlocked he
  have hrefusal := refusal_opens (c := c) (s := s) ho
  unfold State.onActive
  cases hf : s.find name with
  | none =>
    rw [hf] at hrefusal
    exact .refused hrefusal
  | some st =>
    rw [hf] at hrefusal
    obtain ⟨active, j⟩ := st
    cases active with
    | false => exact .refused hrefusal
    | true =>
      by_cases hj : j = i
      · subst hj
        simp only [Bool.not_true, Bool.false_eq_true, ne_eq, not_true_eq_false, if_false]
        exact .opened ho hf
      · have hrefused : refusal c s g = some (.failure .invalidIteration "Invalid iteration") :=
          hrefusal.trans (by simp [refusalInside, hj])
        simp only [Bool.not_true, Bool.false_eq_true, ne_eq, hj, not_false_eq_true, if_false,
          if_true]
        exact .refused hrefused

theorem start_entered {groupHash : UInt64} (he : s.enter c k (.start groupHash name i) = some t) :
    Entered c s k (.start groupHash name i) t := by
  simp only [State.enter] at he
  split at he
  · next hg =>
    cases he
    exact .refused (if_pos hg)
  next hg =>
  split at he
  · cases he
  have hrefusal : refusal c s (.start groupHash name i) = _ := if_neg hg
  obtain rfl : groupHash = c.groupHash := by simpa using hg
  split at he
  · next hf =>
    cases he
    rw [hf] at hrefusal
    exact .refused hrefusal
  next st hf =>
  rw [hf, Option.elim_some] at hrefusal
  split at he
  · next ha =>
    cases he
    exact .refused (hrefusal.trans (if_pos ha))
  next ha =>
  rw [if_neg ha] at hrefusal
  split at he
  · next hi =>
    cases he
    exact .refused (hrefusal.trans (if_pos hi))
  next hi =>
  cases he
  refine .starting hf (by simpa using ha) ?_
  by_cases h0 : st.iteration = 0
  · exact Or.inl h0
  · exact Or.inr (UInt64.not_le.mp fun hle => hi ⟨h0, hle⟩)

theorem destroyPipeline_entered {token : String}
    (he : s.enter c k (.destroyPipeline token name) = some t) :
    Entered c s k (.destroyPipeline token name) t := by
  simp only [State.enter] at he
  split at he
  · next ht =>
    cases he
    exact .refused (if_pos ht)
  next ht =>
  split at he
  · cases he
  next hlock =>
  have hrefusal : refusal c s (.destroyPipeline token name) = _ := if_neg ht
  split at he
  · next hf =>
    cases he
    rw [hf] at hrefusal
    exact .refused hrefusal
  next st hf =>
  rw [hf, Option.elim_some] at hrefusal
  split at he
  · next ha =>
    cases he
    exact .refused (hrefusal.trans (if_pos ha))
  next ha =>
  cases he
  exact .destroying ht (by simpa using hlock) hf (by simpa using ha)

theorem enter_entered (hg : g ≠ .leave) (he : s.enter c k g = some t) : Entered c s k g t := by
  cases g with
  | start groupHash name i => exact start_entered he
  | stage name i => exact opens_entered rfl he
  | execute name i auto => exact opens_entered rfl he
  | cleanup name i => exact opens_entered rfl he
  | abort name i => exact opens_entered rfl he
  | destroyPipeline token name => exact destroyPipeline_entered he
  | leave => exact (hg rfl).elim

/-- A handler takes effect with its first segment where it is refused, and only there. -/
theorem commit_arrived (a : Arrivals n) (hg : g ≠ .leave) (hk : s.pc k = .arrived g)
    (hstep : step c s (.acquire k) = some t) :
    commit c a s (.acquire k) = (refusal c s g).map fun r => ⟨k, some r⟩ := by
  cases g with
  | leave => exact (hg rfl).elim
  | _ => simp only [commit, hstep, hk]

/-- A handler whose first segment goes on is not refused. -/
theorem refusal_start {st : PipelineFlags} (hf : s.find name = some st) (ha : st.active = false)
    (hi : st.iteration = 0 ∨ st.iteration < i) :
    refusal c s (.start c.groupHash name i) = none := by
  have hn : ¬ (st.iteration ≠ 0 ∧ st.iteration ≥ i) := by
    rintro ⟨h0, hle⟩
    exact UInt64.not_le.mpr (hi.resolve_left h0) hle
  simp only [refusal, ne_eq, not_true_eq_false, if_false, hf, Option.elim_some, ha,
    Bool.false_eq_true]
  exact if_neg hn

theorem refusal_opened (ho : g.opens = some (name, i, call)) (hf : s.find name = some ⟨true, i⟩) :
    refusal c s g = none := by
  rw [refusal_opens ho, hf]
  simp [refusalInside]

theorem refusal_destroying {token : String} {st : PipelineFlags} (ht : ¬ c.Refuses token)
    (hf : s.find name = some st) (ha : st.active = false) :
    refusal c s (.destroyPipeline token name) = none := by
  simp [refusal, ht, hf, ha]

end Entering

/-! ## One event -/

section Marking

variable {c : Config} {a : Arrivals n} {s t : State n} {e : Event n} {k : Fin n} {q : Pc}
  {x : Effect n}

theorem marks_silent (hstep : step c s e = some t) (hc : commit c a s e = none)
    (hended : ∀ j, ended (t.pc j) = ended (s.pc j)) : Marks c a s e := by
  refine ⟨fun x hx => ?_, fun j => ?_⟩
  · rw [hc] at hx
    cases hx
  · rw [next_of_step hstep, hended, hc]
    simp

theorem marks_goto (hstep : step c s e = some t) (hc : commit c a s e = none)
    (hpc : t.pc = (s.goto k q).pc) (hq : ended q = ended (s.pc k)) : Marks c a s e := by
  refine marks_silent hstep hc fun j => ?_
  rw [hpc]
  by_cases hj : j = k
  · rw [hj, goto_pc_self, hq]
  · rw [goto_pc_of_ne s q hj]

theorem marks_commit (hstep : step c s e = some t) (hc : commit c a s e = some x)
    (hpc : t.pc = (s.goto x.handler q).pc) (hx : ended (s.pc x.handler) = false)
    (hq : ended q = true) : Marks c a s e := by
  refine ⟨fun y hy => ?_, fun j => ?_⟩
  · rw [hc] at hy
    rw [← Option.some.inj hy]
    exact hx
  · rw [next_of_step hstep, hpc, hc]
    by_cases hj : j = x.handler
    · subst hj
      rw [goto_pc_self, hq]
      simp
    · rw [goto_pc_of_ne s q hj]
      simp [Ne.symm hj]

theorem marks_leave (hk : Leaving s k) (hstep : step c s (.acquire k) = some (s.leave k)) :
    Marks c a s (.acquire k) := by
  have hnot : ended (s.pc k) = false := by rcases hk with hk | hk <;> rw [hk] <;> rfl
  have hcommit : commit c a s (.acquire k) =
      if s.numActivePipelines = 0 then some ⟨k, none⟩ else none := by
    rcases hk with hk | hk <;> simp only [commit, hstep, hk]
  unfold State.leave at hstep
  by_cases h0 : s.numActivePipelines = 0
  · rw [if_pos h0] at hcommit
    rw [if_neg (not_not.mpr h0)] at hstep
    exact marks_commit hstep hcommit (q := .done) rfl hnot rfl
  · rw [if_neg h0] at hcommit
    rw [if_pos h0] at hstep
    exact marks_goto hstep hcommit rfl hnot.symm

theorem marks_arrived {g : Handler} (hk : s.pc k = .arrived g)
    (hstep : step c s (.acquire k) = some t) : Marks c a s (.acquire k) := by
  have henter : s.enter c k g = some t := by
    simpa only [step, State.acquire, hk] using hstep
  by_cases hg : g = .leave
  · subst hg
    obtain ⟨-, rfl⟩ := unlocked henter
    exact marks_leave (Or.inl hk) hstep
  have hcommit := commit_arrived a hg hk hstep
  have hnot : ended (s.pc k) = false := by rw [hk]; rfl
  cases enter_entered hg henter with
  | refused hr =>
    rw [hr] at hcommit
    exact marks_commit hstep hcommit rfl hnot rfl
  | starting hf ha hi =>
    rw [refusal_start hf ha hi] at hcommit
    exact marks_goto hstep hcommit rfl hnot.symm
  | opened ho hf =>
    rw [refusal_opened ho hf] at hcommit
    exact marks_goto hstep hcommit rfl hnot.symm
  | destroying ht hlock hf ha =>
    rw [refusal_destroying ht hf ha] at hcommit
    exact marks_goto hstep hcommit rfl hnot.symm

theorem marks_acquire (hstep : step c s (.acquire k) = some t) : Marks c a s (.acquire k) := by
  have hacquire : s.acquire c k = some t := hstep
  unfold State.acquire at hacquire
  split at hacquire
  · next hk => exact marks_arrived hk hstep
  · next hk =>
    obtain ⟨-, rfl⟩ := unlocked hacquire
    exact marks_goto hstep (by simp only [commit, hstep, hk]) rfl (by rw [hk]; rfl)
  · next hk =>
    obtain ⟨-, rfl⟩ := unlocked hacquire
    exact marks_goto hstep (by simp only [commit, hstep, hk]) rfl (by rw [hk]; rfl)
  · next hk =>
    obtain ⟨-, rfl⟩ := unlocked hacquire
    exact marks_commit (x := ⟨k, some (a.result k)⟩) (q := .notifying) hstep
      (by simp only [commit, hstep, hk]) rfl (by rw [hk]; rfl) rfl
  · next hk =>
    obtain ⟨-, rfl⟩ := unlocked hacquire
    exact marks_commit (x := ⟨k, some {}⟩) (q := .notifying) hstep
      (by simp only [commit, hstep, hk]) rfl (by rw [hk]; rfl) rfl
  · next hk =>
    obtain ⟨-, rfl⟩ := unlocked hacquire
    exact marks_leave (Or.inr hk) hstep
  · cases hacquire

theorem marks_returns {success : Bool} (hstep : step c s (.returns k success) = some t) :
    Marks c a s (.returns k success) := by
  have hreturns : s.returns k success = some t := hstep
  unfold State.returns at hreturns
  split at hreturns
  · next hk =>
    have hcommit : commit c a s (.returns k success) = some ⟨k, some (a.result k)⟩ := by
      simp only [commit, hstep, hk]
    cases success with
    | true =>
      cases hreturns
      exact marks_commit (q := .done) hstep hcommit rfl (by rw [hk]; rfl) rfl
    | false =>
      cases hreturns
      exact marks_commit (q := .startFailed) hstep hcommit rfl (by rw [hk]; rfl) rfl
  · next hk =>
    cases hreturns
    exact marks_commit (x := ⟨k, some (a.result k)⟩) (q := .done) hstep
      (by simp only [commit, hstep, hk]) rfl (by rw [hk]; rfl) rfl
  · next auto hk =>
    have hcommit : commit c a s (.returns k success) =
        if success && auto then none else some ⟨k, some (a.executed k)⟩ := by
      simp only [commit, hstep, hk]
    cases hauto : success && auto with
    | true =>
      rw [hauto] at hreturns hcommit
      cases hreturns
      exact marks_goto hstep hcommit rfl (by rw [hk]; rfl)
    | false =>
      rw [hauto] at hreturns hcommit
      cases hreturns
      exact marks_commit (q := .done) hstep hcommit rfl (by rw [hk]; rfl) rfl
  · next auto hk =>
    have hcommit : commit c a s (.returns k success) =
        if success then none else some ⟨k, some (a.result k)⟩ := by
      simp only [commit, hstep, hk]
    cases success with
    | true =>
      cases hreturns
      exact marks_goto hstep hcommit rfl (by rw [hk]; rfl)
    | false =>
      cases auto with
      | true =>
        cases hreturns
        exact marks_commit (q := .notifying) hstep hcommit rfl (by rw [hk]; rfl) rfl
      | false =>
        cases hreturns
        exact marks_commit (q := .done) hstep hcommit rfl (by rw [hk]; rfl) rfl
  · next hk =>
    cases hreturns
    exact marks_goto hstep (by simp only [commit, hstep, hk]) rfl (by rw [hk]; rfl)
  · next hk =>
    cases hreturns
    exact marks_commit (x := ⟨k, some (a.result k)⟩) (q := .done) hstep
      (by simp only [commit, hstep, hk]) rfl (by rw [hk]; rfl) rfl
  · cases hreturns

theorem ended_wake (q : Pc) : ended q.wake = ended q := by
  cases q <;> rfl

theorem marks (c : Config) (a : Arrivals n) (s : State n) (e : Event n) : Marks c a s e := by
  cases hstep : step c s e with
  | none =>
    have hnext : next c s e = s := by rw [next, hstep]; rfl
    have hcommit : commit c a s e = none := by simp only [commit, hstep]
    refine ⟨fun x hx => ?_, fun j => ?_⟩
    · rw [hcommit] at hx
      cases hx
    · rw [hnext, hcommit]
      simp
  | some t =>
    cases e with
    | acquire k => exact marks_acquire hstep
    | returns k success => exact marks_returns hstep
    | notify k =>
      by_cases hk : s.pc k = .notifying
      · obtain rfl : s.notifyAll.goto k .done = t := by simpa [step, hk] using hstep
        refine marks_silent hstep (by simp only [commit, hstep]) fun j => ?_
        by_cases hj : j = k
        · rw [hj, goto_pc_self, hk]
          rfl
        · rw [goto_pc_of_ne _ _ hj, notifyAll_pc, ended_wake]
      · simp [step, hk] at hstep
    | wake k =>
      by_cases hk : s.pc k = .waiting
      · obtain rfl : s.goto k .woken = t := by simpa [step, hk] using hstep
        exact marks_goto hstep (by simp only [commit, hstep]) rfl (by rw [hk]; rfl)
      · simp [step, hk] at hstep

end Marking

/-- The handlers that take effect in a run are those that have ended. -/
theorem commits_listed (c : Config) (a : Arrivals n) {s₀ : State n}
    (hs : ∀ k, ended (s₀.pc k) = false) (events : List (Event n)) :
    Listed (fun s k => ended (s.pc k) = true) (events.foldl (next c) s₀)
      ((commits (next c) (commit c a) s₀ events).map Effect.handler) := by
  refine commits_once (fun s e => (marks c a s e).ended_iff) (fun s e x hx => ?_)
    (fun k => ?_) events
  · rw [(marks c a s e).fresh x hx]
    exact Bool.false_ne_true
  · rw [hs k]
    exact Bool.false_ne_true

end RequestEffects
