import Colza.ProviderRuns

/-!
# Requests that a provider refuses

What a request leaves of the provider when its answer is a failure, and what a client
without the security token can do through the requests of `Admin`.
-/
namespace RefusedRequests

open Interfaces ProviderHandlers ProviderRuns

variable {β : Type} {env : Environment β} {s t : Provider β} {name : String}
  {st st' : PipelineState β}

/-! ## Failures -/

/-- What the provider keeps of a pipeline, apart from the state of its backend object. -/
def record (st : PipelineState β) : BackendId × Bool × UInt64 :=
  (st.pipeline.id, st.active, st.iteration)

/-- The backend objects may have changed their own state. -/
structure Unchanged (s t : Provider β) : Prop where
  pipelines : ∀ name, (t.pipelines.lookup name).map record = (s.pipelines.lookup name).map record
  others : t = { s with pipelines := t.pipelines }

/-- If the answer is a failure, the provider is as it was. -/
def KeepsOnFailure (o : Outcome β) (s : Provider β) : Prop :=
  ∀ r, o.reply = some r → r.success = false → Unchanged s o.provider

def FailureKeeps (env : Environment β) (s : Provider β) (r : Request) : Prop :=
  KeepsOnFailure (process env s r) s

/-- The request destroys an inactive pipeline, and the backend object answers with a failure. -/
def DestroyFails (env : Environment β) (s : Provider β) : Request → Prop
  | .destroyPipeline token name => ¬ badToken s token ∧
    ∃ st, s.pipelines.lookup name = some st ∧ st.active = false ∧
      (env.backend.destroy st.pipeline.state).1.success = false
  | _ => False

theorem Unchanged.refl (s : Provider β) : Unchanged s s := ⟨fun _ => rfl, rfl⟩

theorem Unchanged.setState (hl : s.pipelines.lookup name = some st) (hr : record st' = record st) :
    Unchanged s (s.setState name st') := by
  refine ⟨fun other => ?_, rfl⟩
  by_cases ho : other = name
  · subst ho
    rw [Provider.setState, Finmap.lookup_insert, hl, Option.map_some, Option.map_some, hr]
  · rw [Provider.setState, Finmap.lookup_insert_of_ne _ ho]

theorem respond_keeps (s : Provider β) (r : RequestResult Int32) :
    KeepsOnFailure (respond s r) s := fun _ _ _ => .refl s

/-- There is nothing to keep after a success. -/
theorem succeed_keeps {o : Outcome β} {r : RequestResult Int32} (hr : o.reply = some r)
    (hs : r.success = true) (s : Provider β) : KeepsOnFailure o s := by
  intro other hother hf
  rw [hr] at hother
  rw [← Option.some.inj hother, hs] at hf
  cases hf

theorem createPipeline_keeps (env : Environment β) (s : Provider β)
    (token name type config library : String) :
    KeepsOnFailure (createPipeline env s token name type config library) s := by
  by_cases h : CreateAccepted env s token type config library
  · obtain ⟨b, hb⟩ := createPipeline_accepted name h
    rw [hb]
    exact succeed_keeps rfl rfl s
  · unfold createPipeline _createPipeline
    split
    · exact respond_keeps s _
    · next ht =>
      split
      · exact respond_keeps s _
      · next json hp =>
        cases hm : makeBackend env s type json library with
        | error e => cases e <;> exact fun _ _ _ => .refl s
        | ok b => exact (h ⟨ht, json, b, hp, hm⟩).elim

theorem start_keeps (env : Environment β) (s : Provider β) (groupHash : UInt64) (name : String)
    (i : UInt64) : KeepsOnFailure (start env s groupHash name i) s := by
  unfold start
  split
  · exact respond_keeps s _
  · split
    · exact respond_keeps s _
    · next st hl =>
      split
      · exact respond_keeps s _
      · split
        · exact respond_keeps s _
        · dsimp only
          split
          · next hs => exact succeed_keeps rfl hs s
          · -- the counter is raised before the call and lowered after it
            have hc : s.numActivePipelines + 1 - 1 = s.numActivePipelines := by simp
            rw [hc]
            exact fun _ _ _ => .setState hl rfl

theorem onActive_keeps {i : UInt64} {body : PipelineState β → Outcome β}
    (h : ∀ st, s.pipelines.lookup name = some st → KeepsOnFailure (body st) s) :
    KeepsOnFailure (onActive s name i body) s := by
  rcases onActive_cases s name i body with ⟨r, hr, -⟩ | ⟨st, hl, -, -, hb⟩
  · rw [hr]
    exact respond_keeps s r
  · rw [hb]
    exact h st hl

theorem stage_keeps (env : Environment β) (s : Provider β) (name : String) (i : UInt64)
    (args : StageArgs) : KeepsOnFailure (stage env s name i args) s := by
  apply onActive_keeps
  intro st hl r _ _
  exact .setState hl rfl

theorem execute_keeps (env : Environment β) (s : Provider β) (name : String) (i : UInt64)
    (autoCleanup : Bool) : KeepsOnFailure (execute env s name i autoCleanup) s := by
  apply onActive_keeps
  intro st hl
  dsimp only
  split
  · split
    · next hs => exact succeed_keeps rfl hs s
    · exact fun _ _ _ => .setState hl rfl
  · exact fun _ _ _ => .setState hl rfl

theorem cleanup_keeps (env : Environment β) (s : Provider β) (name : String) (i : UInt64) :
    KeepsOnFailure (cleanup env s name i) s := by
  apply onActive_keeps
  intro st hl
  dsimp only
  split
  · next hs => exact succeed_keeps rfl hs s
  · exact fun _ _ _ => .setState hl rfl

theorem abort_keeps (env : Environment β) (s : Provider β) (name : String) (i : UInt64) :
    KeepsOnFailure (abort env s name i) s := by
  apply onActive_keeps
  intro st hl
  exact succeed_keeps rfl rfl s

/-- A pipeline is gone once `destroy` has been called on its backend object. -/
theorem destroyPipeline_inactive (env : Environment β) {token : String} (ht : ¬ badToken s token)
    (hl : s.pipelines.lookup name = some st) (ha : st.active = false) :
    (destroyPipeline env s token name).reply = some (env.backend.destroy st.pipeline.state).1 ∧
      (destroyPipeline env s token name).provider.pipelines = s.pipelines.erase name := by
  unfold destroyPipeline
  rw [if_neg ht, hl]
  simp only [ha, Bool.false_eq_true, if_false, and_self]

theorem destroyPipeline_keeps_iff (token name : String) :
    KeepsOnFailure (destroyPipeline env s token name) s ↔
      ¬ DestroyFails env s (.destroyPipeline token name) := by
  constructor
  · rintro hkeep ⟨ht, st, hl, ha, hf⟩
    obtain ⟨hreply, hp⟩ := destroyPipeline_inactive env ht hl ha
    have hn := (hkeep _ hreply hf).pipelines name
    rw [hp, hl, Finmap.lookup_erase] at hn
    cases hn
  · intro hd
    unfold destroyPipeline
    split
    · exact respond_keeps s _
    · next ht =>
      split
      · exact respond_keeps s _
      · next st hl =>
        split
        · exact respond_keeps s _
        · next ha =>
          intro r hr hf
          rw [← Option.some.inj hr] at hf
          exact (hd ⟨ht, st, hl, by simpa using ha, hf⟩).elim

/-- For every request, every provider and everything that the libraries may answer. -/
theorem failure_keeps_iff (env : Environment β) (s : Provider β) (r : Request) :
    FailureKeeps env s r ↔ ¬ DestroyFails env s r := by
  cases r with
  | destroyPipeline token name => exact destroyPipeline_keeps_iff token name
  | createPipeline token name type config library =>
    exact iff_of_true (createPipeline_keeps env s token name type config library) id
  | checkPipeline name =>
    refine iff_of_true ?_ id
    change KeepsOnFailure (checkPipeline s name) s
    unfold checkPipeline
    split <;> exact respond_keeps s _
  | start groupHash name i => exact iff_of_true (start_keeps env s groupHash name i) id
  | stage name i args => exact iff_of_true (stage_keeps env s name i args) id
  | execute name i autoCleanup => exact iff_of_true (execute_keeps env s name i autoCleanup) id
  | cleanup name i => exact iff_of_true (cleanup_keeps env s name i) id
  | abort name i => exact iff_of_true (abort_keeps env s name i) id
  | leave =>
    refine iff_of_true (fun r hr => ?_) id
    change (leave s).reply = some r at hr
    unfold leave at hr
    split at hr <;> cases hr

/-- A backend class whose `destroy` fails. -/
def keepingEnvironment : Environment Unit :=
  { acceptingEnvironment with
    backend := { acceptingEnvironment.backend with
      destroy := fun b => (.failure .otherError "Could not be destroyed", b) } }

/-- The pipeline is erased although its destruction has failed. -/
theorem failed_destruction_erases :
    ¬ ∀ (events : List (Event Unit)) (env : Environment Unit) (r : Request),
      FailureKeeps env (events.foldl next (initial "" 0 [])) r := by
  intro h
  have hk := (h [(acceptingEnvironment, .createPipeline "" "p" "dummy" "" "")] keepingEnvironment
    (.destroyPipeline "" "p") _ rfl rfl).pipelines "p"
  revert hk
  decide

/-! ## Requests of Admin without the token -/

def IsAdmin : Request → Prop
  | .createPipeline .. | .destroyPipeline .. | .leave => True
  | _ => False

/-- The token in the request. `leave` has none. -/
def tokenOf : Request → Option String
  | .createPipeline token .. | .destroyPipeline token _ => some token
  | _ => none

def replies (s : Provider β) : List (Event β) → List (Option (RequestResult Int32))
  | [] => []
  | e :: events => (process e.1 s e.2).reply :: replies (next s e) events

/-- `ssg_group_leave` has not been called. -/
def InGroup (s : Provider β) : Prop := s.groupLeaves = 0

/-- The requests change nothing, and what is answered says nothing about the pipelines. -/
structure Protected (s : Provider β) (events : List (Event β)) : Prop where
  pipelines : (events.foldl next s).pipelines = s.pipelines
  numActivePipelines : (events.foldl next s).numActivePipelines = s.numActivePipelines
  member : InGroup (events.foldl next s) ↔ InGroup s
  replies : ∀ s' : Provider β, s'.token = s.token → replies s' events = replies s events

/-- A `leave` among the requests does not wait and finds something to give up. -/
def LeaveGoesAhead (s : Provider β) (events : List (Event β)) : Prop :=
  (∃ e ∈ events, e.2 = .leave) ∧ s.numActivePipelines = 0 ∧ (InGroup s ∨ s.pipelines ≠ ∅)

/-- No request has the token of the provider, which is not empty. -/
structure WithoutToken (s : Provider β) (events : List (Event β)) : Prop where
  token : s.token ≠ ""
  admin : ∀ e ∈ events, IsAdmin e.2
  other : ∀ e ∈ events, tokenOf e.2 ≠ some s.token

section Token

variable {e : Event β} {events : List (Event β)}

/-- Where the token is wrong, only `leave` gets past the first check. -/
theorem process_without_token (h : WithoutToken s (e :: events)) :
    (e.2 = .leave ∧ process e.1 s e.2 = leave s) ∨
      (e.2 ≠ .leave ∧ process e.1 s e.2 = respond s invalidToken) := by
  obtain ⟨env, r⟩ := e
  have hadmin := h.admin _ (List.mem_cons_self ..)
  have hother := h.other _ (List.mem_cons_self ..)
  have hbad (token : String) (ht : tokenOf r = some token) : badToken s token := by
    refine ⟨h.token, fun he => hother ?_⟩
    rw [he]
    exact ht
  cases r with
  | createPipeline token name type config library =>
    exact Or.inr ⟨by simp, if_pos (hbad token rfl)⟩
  | destroyPipeline token name => exact Or.inr ⟨by simp, if_pos (hbad token rfl)⟩
  | leave => exact Or.inl ⟨rfl, rfl⟩
  | _ => exact hadmin.elim

theorem leave_token (s : Provider β) : (leave s).provider.token = s.token := by
  unfold leave
  split <;> rfl

theorem leave_reply (s : Provider β) : (leave s).reply = none := by
  unfold leave
  split <;> rfl

theorem leave_waits (h : s.numActivePipelines ≠ 0) : (leave s).provider = s := by
  unfold leave
  rw [if_pos h]

theorem leave_goes_ahead (h : s.numActivePipelines = 0) :
    (leave s).provider = { s with groupLeaves := s.groupLeaves + 1, pipelines := ∅ } := by
  unfold leave
  rw [if_neg (not_not_intro h)]

theorem WithoutToken.next (h : WithoutToken s (e :: events)) : WithoutToken (next s e) events := by
  have ht : (ProviderRuns.next s e).token = s.token := by
    unfold ProviderRuns.next
    rcases process_without_token h with ⟨-, hp⟩ | ⟨-, hp⟩
    · rw [hp]
      exact leave_token s
    · rw [hp]
      rfl
  refine ⟨ht ▸ h.token, fun x hx => h.admin x (List.mem_cons_of_mem _ hx), fun x hx => ?_⟩
  rw [ht]
  exact h.other x (List.mem_cons_of_mem _ hx)

theorem WithoutToken.congr {s' : Provider β} (ht : s'.token = s.token) (h : WithoutToken s events) :
    WithoutToken s' events :=
  ⟨ht ▸ h.token, h.admin, ht ▸ h.other⟩

/-- The answers are those of the token check, whatever the provider holds. -/
theorem replies_without_token (h : WithoutToken s events) :
    replies s events =
      events.map fun e => if e.2 = .leave then none else some invalidToken := by
  induction events generalizing s with
  | nil => rfl
  | cons e events ih =>
    rw [replies, List.map_cons, ih h.next]
    congr 1
    rcases process_without_token h with ⟨he, hp⟩ | ⟨he, hp⟩
    · rw [hp, if_pos he, leave_reply]
    · rw [hp, if_neg he]
      rfl

/-- While a pipeline is counted as active, nothing happens. -/
theorem run_waits (h : WithoutToken s events)
    (hs : s.numActivePipelines ≠ 0 ∨ ∀ e ∈ events, e.2 ≠ .leave) : events.foldl next s = s := by
  induction events with
  | nil => rfl
  | cons e events ih =>
    have hn : next s e = s := by
      unfold next
      rcases process_without_token h with ⟨he, hp⟩ | ⟨-, hp⟩
      · rw [hp]
        rcases hs with hs | hs
        · exact leave_waits hs
        · exact (hs e (List.mem_cons_self ..) he).elim
      · rw [hp]
        rfl
    have hnext := h.next
    rw [hn] at hnext
    rw [List.foldl_cons, hn]
    exact ih hnext (hs.imp_right fun hs x hx => hs x (List.mem_cons_of_mem _ hx))

/-- When none is, the first `leave` takes the provider out of the group, and no request
brings it back. -/
theorem run_leaves (h : WithoutToken s events) (h0 : s.numActivePipelines = 0)
    (hl : (∃ e ∈ events, e.2 = .leave) ∨ (¬ InGroup s ∧ s.pipelines = ∅)) :
    ¬ InGroup (events.foldl next s) ∧ (events.foldl next s).pipelines = ∅ ∧
      (events.foldl next s).numActivePipelines = 0 := by
  induction events generalizing s with
  | nil =>
    rcases hl with ⟨e, he, -⟩ | hl
    · cases he
    · exact ⟨hl.1, hl.2, h0⟩
  | cons e events ih =>
    rw [List.foldl_cons]
    rcases process_without_token h with ⟨he, hp⟩ | ⟨he, hp⟩
    · have hn : next s e = { s with groupLeaves := s.groupLeaves + 1, pipelines := ∅ } := by
        unfold next
        rw [hp]
        exact leave_goes_ahead h0
      have hnext := h.next
      rw [hn] at hnext ⊢
      exact ih hnext h0 (Or.inr ⟨Nat.succ_ne_zero _, rfl⟩)
    · have hn : next s e = s := by
        unfold next
        rw [hp]
        rfl
      have hnext := h.next
      rw [hn] at hnext ⊢
      refine ih hnext h0 (hl.imp_left ?_)
      rintro ⟨x, hx, hxl⟩
      rcases List.mem_cons.mp hx with rfl | hx
      · exact (he hxl).elim
      · exact ⟨x, hx, hxl⟩

end Token

/-- For every state of the provider and every sequence of requests. -/
theorem protected_iff {events : List (Event β)} (h : WithoutToken s events) :
    Protected s events ↔ ¬ LeaveGoesAhead s events := by
  have hreplies (s' : Provider β) (ht : s'.token = s.token) :
      replies s' events = replies s events := by
    rw [replies_without_token h, replies_without_token (h.congr ht)]
  constructor
  · rintro hp ⟨hleave, h0, hsomething⟩
    obtain ⟨hout, hempty, -⟩ := run_leaves h h0 (Or.inl hleave)
    rcases hsomething with hin | hne
    · exact hout (hp.member.mpr hin)
    · exact hne (hp.pipelines.symm.trans hempty)
  · intro hn
    by_cases hwait : s.numActivePipelines ≠ 0 ∨ ∀ e ∈ events, e.2 ≠ .leave
    · have hrun := run_waits h hwait
      exact ⟨by rw [hrun], by rw [hrun], by rw [hrun], hreplies⟩
    · -- the provider has left before and has nothing to lose
      push Not at hwait
      obtain ⟨h0, hleave⟩ := hwait
      have hgone : ¬ InGroup s ∧ s.pipelines = ∅ := by
        by_contra hc
        refine hn ⟨hleave, h0, ?_⟩
        by_contra hc'
        push Not at hc'
        exact hc ⟨hc'.1, hc'.2⟩
      obtain ⟨hout, hempty, hzero⟩ := run_leaves h h0 (Or.inl hleave)
      exact ⟨hempty.trans hgone.2.symm, hzero.trans h0.symm, iff_of_false hout hgone.1, hreplies⟩

/-- A provider with a token and one pipeline. -/
def guardedProvider : Provider Unit := (initial "secret" 0 []).register "p" ()

theorem protected_from_destruction :
    Protected guardedProvider [(acceptingEnvironment, .destroyPipeline "guess" "p")] := by
  apply (protected_iff ⟨by decide, by simp [IsAdmin], ?_⟩).mpr
  · rintro ⟨⟨e, he, hl⟩, -⟩
    rw [List.mem_singleton.mp he] at hl
    cases hl
  · simp [tokenOf, guardedProvider, initial, Provider.register]

/-- Without the token a client makes the provider leave its group. -/
theorem leave_without_token :
    ¬ ∀ (token : String) (events : List (Event Unit)) (requests : List (Event Unit)),
      WithoutToken (events.foldl next (initial token 0 [])) requests →
        Protected (events.foldl next (initial token 0 [])) requests := by
  intro h
  have hp := h "secret" [(acceptingEnvironment, .createPipeline "secret" "p" "dummy" "" "")]
    [(acceptingEnvironment, .leave)]
    ⟨by decide, by simp [IsAdmin], by simp [tokenOf]⟩
  have hin := hp.member
  revert hin
  simp only [InGroup]
  decide

end RefusedRequests
