import Colza.Noninterference
import Colza.OpenIterations
import Colza.ProviderRuns

/-!
# Requests of one pipeline and of the others

The pipelines of a provider share its map, its token, its group hash and the counter. A request
writes to the pipeline it names and reads nothing of the others, except for `leave`: while none
goes ahead, the requests of a pipeline are answered as if there were no other.
-/
namespace PipelineIsolation

open GuardedRuns Noninterference Interfaces ProviderHandlers OpenIterations ProviderRuns

variable {β : Type}

/-- The pipeline that a request names. -/
def pipelineOf : Request → Option String
  | .createPipeline _ name _ _ _ | .destroyPipeline _ name | .checkPipeline name |
    .start _ name _ | .stage name _ _ | .execute name _ _ | .cleanup name _ | .abort name _ =>
    some name
  | .leave => none

/-! ## What a request leaves as it is -/

/-- Nothing but the pipeline of this name and the counter has changed. -/
structure Within (name : String) (s t : Provider β) : Prop where
  token : t.token = s.token
  groupHash : t.groupHash = s.groupHash
  addresses : t.monaAddresses = s.monaAddresses
  groupLeaves : t.groupLeaves = s.groupLeaves
  others : ∀ other, other ≠ name → t.pipelines.lookup other = s.pipelines.lookup other

section Within

variable {env : Environment β} {s t : Provider β} {name : String} {i : UInt64}

theorem Within.refl (name : String) (s : Provider β) : Within name s s :=
  ⟨rfl, rfl, rfl, rfl, fun _ _ => rfl⟩

theorem within_setState (s : Provider β) (name : String) (st : PipelineState β) :
    Within name s (s.setState name st) :=
  ⟨rfl, rfl, rfl, rfl, fun _ hne => Finmap.lookup_insert_of_ne _ hne⟩

theorem within_deactivate (s : Provider β) (name : String) (st : PipelineState β) :
    Within name s (s.deactivate name st) :=
  ⟨rfl, rfl, rfl, rfl, fun _ hne => Finmap.lookup_insert_of_ne _ hne⟩

theorem within_onActive {body : PipelineState β → Outcome β}
    (hbody : ∀ st, Within name s (body st).provider) :
    Within name s (onActive s name i body).provider := by
  rcases onActive_cases s name i body with ⟨r, hr, -⟩ | ⟨st, -, -, -, hb⟩
  · rw [hr]
    exact .refl name s
  · rw [hb]
    exact hbody st

theorem within_createPipeline (env : Environment β) (s : Provider β)
    (token name type config library : String) :
    Within name s (createPipeline env s token name type config library).provider := by
  unfold createPipeline _createPipeline
  split
  · exact .refl name s
  · split
    · exact .refl name s
    · cases makeBackend env s type _ library with
      | error e => cases e <;> exact .refl name s
      | ok b => exact ⟨rfl, rfl, rfl, rfl, fun _ hne => Finmap.lookup_insert_of_ne _ hne⟩

theorem within_destroyPipeline (env : Environment β) (s : Provider β) (token name : String) :
    Within name s (destroyPipeline env s token name).provider := by
  unfold destroyPipeline
  repeat' split
  any_goals exact .refl name s
  exact ⟨rfl, rfl, rfl, rfl, fun _ hne => Finmap.lookup_erase_ne hne⟩

theorem within_start (env : Environment β) (s : Provider β) (groupHash : UInt64) (name : String)
    (i : UInt64) : Within name s (start env s groupHash name i).provider := by
  unfold start
  repeat' split
  any_goals exact .refl name s
  all_goals exact ⟨rfl, rfl, rfl, rfl, fun _ hne => Finmap.lookup_insert_of_ne _ hne⟩

theorem within_execute (env : Environment β) (s : Provider β) (name : String) (i : UInt64)
    (autoCleanup : Bool) : Within name s (execute env s name i autoCleanup).provider := by
  refine within_onActive fun st => ?_
  dsimp only
  split
  · split
    · exact within_deactivate s name _
    · exact within_setState s name _
  · exact within_setState s name _

theorem within_cleanup (env : Environment β) (s : Provider β) (name : String) (i : UInt64) :
    Within name s (cleanup env s name i).provider := by
  refine within_onActive fun st => ?_
  dsimp only
  split
  · exact within_deactivate s name _
  · exact within_setState s name _

theorem process_within (env : Environment β) (s : Provider β) {r : Request}
    (hr : pipelineOf r = some name) : Within name s (process env s r).provider := by
  cases r with
  | leave => cases hr
  | createPipeline token other type config library =>
    obtain rfl := Option.some.inj hr
    exact within_createPipeline env s token other type config library
  | destroyPipeline token other =>
    obtain rfl := Option.some.inj hr
    exact within_destroyPipeline env s token other
  | checkPipeline other =>
    obtain rfl := Option.some.inj hr
    simp only [process, checkPipeline]
    split <;> exact .refl other s
  | start groupHash other i =>
    obtain rfl := Option.some.inj hr
    exact within_start env s groupHash other i
  | stage other i args =>
    obtain rfl := Option.some.inj hr
    exact within_onActive fun st => within_setState s other _
  | execute other i autoCleanup =>
    obtain rfl := Option.some.inj hr
    exact within_execute env s other i autoCleanup
  | cleanup other i =>
    obtain rfl := Option.some.inj hr
    exact within_cleanup env s other i
  | abort other i =>
    obtain rfl := Option.some.inj hr
    exact within_onActive fun st => within_deactivate s other _

end Within

/-! ## What a request reads -/

/-- A pipeline without the identity of its backend object. -/
def contents (st : PipelineState β) : β × Bool × UInt64 :=
  (st.pipeline.state, st.active, st.iteration)

/-- The two providers differ in other pipelines, in the counter and in the identities of backend
objects only. -/
structure Alike (name : String) (s t : Provider β) : Prop where
  token : s.token = t.token
  groupHash : s.groupHash = t.groupHash
  addresses : s.monaAddresses = t.monaAddresses
  pipeline : (s.pipelines.lookup name).map contents = (t.pipelines.lookup name).map contents

/-- A reply, and the calls on the backend object of the pipeline. -/
def answer (o : Outcome β) : Option (RequestResult Int32) × List BackendCall :=
  (o.reply, o.calls.map Prod.snd)

structure SameOutcome (name : String) (o o' : Outcome β) : Prop where
  answer : answer o = answer o'
  provider : Alike name o.provider o'.provider

section Alike

variable {env : Environment β} {s t u : Provider β} {name : String} {st st' : PipelineState β}

theorem Alike.refl (name : String) (s : Provider β) : Alike name s s := ⟨rfl, rfl, rfl, rfl⟩

theorem Alike.within {other : String} (h : Alike name s t) (hw : Within other s u)
    (hne : name ≠ other) : Alike name u t where
  token := hw.token.trans h.token
  groupHash := hw.groupHash.trans h.groupHash
  addresses := hw.addresses.trans h.addresses
  pipeline := by rw [hw.others name hne, h.pipeline]

/-- The pipeline is registered on both providers or on neither. -/
theorem Alike.cases (h : Alike name s t) :
    s.pipelines.lookup name = none ∧ t.pipelines.lookup name = none ∨
    ∃ b active i id id', s.pipelines.lookup name = some ⟨⟨id, b⟩, active, i⟩ ∧
      t.pipelines.lookup name = some ⟨⟨id', b⟩, active, i⟩ := by
  have hp := h.pipeline
  cases hs : s.pipelines.lookup name with
  | none =>
    rw [hs] at hp
    exact Or.inl ⟨rfl, Option.map_eq_none_iff.mp hp.symm⟩
  | some st =>
    rw [hs] at hp
    obtain ⟨st', ht, hc⟩ := Option.map_eq_some_iff.mp hp.symm
    obtain ⟨⟨id, b⟩, active, i⟩ := st
    obtain ⟨⟨id', b'⟩, active', i'⟩ := st'
    obtain ⟨rfl, rfl, rfl⟩ : b' = b ∧ active' = active ∧ i' = i := by simpa [contents] using hc
    exact Or.inr ⟨b', active', i', id, id', rfl, ht⟩

theorem Alike.setState (h : Alike name s t) (hc : contents st = contents st') :
    Alike name (s.setState name st) (t.setState name st') where
  token := h.token
  groupHash := h.groupHash
  addresses := h.addresses
  pipeline := by
    rw [lookup_setState, lookup_setState, Option.map_some, Option.map_some, hc]

theorem Alike.deactivate (h : Alike name s t) (hc : contents st = contents st') :
    Alike name (s.deactivate name st) (t.deactivate name st') := by
  have hc' : contents { st with active := false } = contents { st' with active := false } := by
    simp only [contents, Prod.mk.injEq] at hc ⊢
    exact ⟨hc.1, trivial, hc.2.2⟩
  have hset := h.setState hc'
  exact ⟨hset.token, hset.groupHash, hset.addresses, hset.pipeline⟩

theorem Alike.register (h : Alike name s t) (b : β) :
    Alike name (s.register name b) (t.register name b) where
  token := h.token
  groupHash := h.groupHash
  addresses := h.addresses
  pipeline := by
    have hnew (u : Provider β) : (u.register name b).pipelines.lookup name =
        some ⟨⟨u.nextBackend, b⟩, false, 0⟩ := Finmap.lookup_insert _
    rw [hnew, hnew]
    rfl

/-- A request that answers before it looks at the pipeline. -/
theorem Alike.respond (h : Alike name s t) (r : RequestResult Int32) :
    SameOutcome name (respond s r) (respond t r) := ⟨rfl, h⟩

theorem Alike.onActive (h : Alike name s t) {i : UInt64} {body body' : PipelineState β → Outcome β}
    (hbody : ∀ b id id', SameOutcome name (body ⟨⟨id, b⟩, true, i⟩) (body' ⟨⟨id', b⟩, true, i⟩)) :
    SameOutcome name (onActive s name i body) (onActive t name i body') := by
  unfold ProviderHandlers.onActive
  rcases h.cases with ⟨hs, ht⟩ | ⟨b, active, j, id, id', hs, ht⟩
  · rw [hs, ht]
    exact h.respond _
  · rw [hs, ht]
    cases active with
    | false => exact h.respond _
    | true =>
      by_cases hj : j = i
      · subst hj
        simpa using hbody b id id'
      · simpa [hj] using h.respond _

theorem Alike.badToken_iff (h : Alike name s t) {token : String} :
    badToken s token ↔ badToken t token := by
  unfold badToken
  rw [h.token]

theorem Alike.createPipeline (h : Alike name s t) (env : Environment β)
    (token type config library : String) :
    SameOutcome name (createPipeline env s token name type config library)
      (createPipeline env t token name type config library) := by
  have hmake (json : Json) : makeBackend env s type json library = makeBackend env t type json
      library := by
    unfold makeBackend
    rw [h.addresses]
  unfold ProviderHandlers.createPipeline _createPipeline
  by_cases hbad : badToken t token
  · rw [if_pos (h.badToken_iff.mpr hbad), if_pos hbad]
    exact h.respond _
  · rw [if_neg fun hs => hbad (h.badToken_iff.mp hs), if_neg hbad]
    split
    · exact h.respond _
    · next json _ =>
      rw [hmake json]
      cases makeBackend env t type json library with
      | error e => cases e <;> exact ⟨rfl, h⟩
      | ok b => exact ⟨rfl, h.register b⟩

theorem Alike.destroyPipeline (h : Alike name s t) (env : Environment β) (token : String) :
    SameOutcome name (destroyPipeline env s token name) (destroyPipeline env t token name) := by
  unfold ProviderHandlers.destroyPipeline
  by_cases hbad : badToken t token
  · rw [if_pos (h.badToken_iff.mpr hbad), if_pos hbad]
    exact h.respond _
  · rw [if_neg fun hs => hbad (h.badToken_iff.mp hs), if_neg hbad]
    rcases h.cases with ⟨hs, ht⟩ | ⟨b, active, j, id, id', hs, ht⟩
    · rw [hs, ht]
      exact h.respond _
    · rw [hs, ht]
      cases active with
      | true => exact h.respond _
      | false =>
        have herase (u : Provider β) : (u.pipelines.erase name).lookup name = none :=
          Finmap.lookup_erase ..
        refine ⟨rfl, h.token, h.groupHash, h.addresses, ?_⟩
        exact congrArg (Option.map contents) ((herase s).trans (herase t).symm)

theorem Alike.start (h : Alike name s t) (env : Environment β) (groupHash i : UInt64) :
    SameOutcome name (start env s groupHash name i) (start env t groupHash name i) := by
  unfold ProviderHandlers.start
  by_cases hg : groupHash ≠ t.groupHash
  · rw [if_pos (h.groupHash ▸ hg), if_pos hg]
    exact h.respond _
  · rw [if_neg (h.groupHash ▸ hg), if_neg hg]
    rcases h.cases with ⟨hs, ht⟩ | ⟨b, active, j, id, id', hs, ht⟩
    · rw [hs, ht]
      exact h.respond _
    · cases active with
      | true =>
        rw [hs, ht]
        exact h.respond _
      | false =>
        by_cases hj : j ≠ 0 ∧ j ≥ i
        · simp only [hs, ht, if_pos hj, Bool.false_eq_true, if_false]
          exact h.respond _
        · simp only [hs, ht, if_neg hj, Bool.false_eq_true, if_false]
          split
          · have hset : Alike name
                (s.setState name ⟨⟨id, (env.backend.start b i).2⟩, true, i⟩)
                (t.setState name ⟨⟨id', (env.backend.start b i).2⟩, true, i⟩) := h.setState rfl
            exact ⟨rfl, hset.token, hset.groupHash, hset.addresses, hset.pipeline⟩
          · have hset : Alike name
                (s.setState name ⟨⟨id, (env.backend.start b i).2⟩, false, j⟩)
                (t.setState name ⟨⟨id', (env.backend.start b i).2⟩, false, j⟩) := h.setState rfl
            exact ⟨rfl, hset.token, hset.groupHash, hset.addresses, hset.pipeline⟩

theorem Alike.execute (h : Alike name s t) (env : Environment β) (i : UInt64)
    (autoCleanup : Bool) :
    SameOutcome name (execute env s name i autoCleanup) (execute env t name i autoCleanup) := by
  refine h.onActive fun b id id' => ?_
  dsimp only
  split
  · split
    · exact ⟨rfl, h.deactivate rfl⟩
    · exact ⟨rfl, h.setState rfl⟩
  · exact ⟨rfl, h.setState rfl⟩

theorem Alike.cleanup (h : Alike name s t) (env : Environment β) (i : UInt64) :
    SameOutcome name (cleanup env s name i) (cleanup env t name i) := by
  refine h.onActive fun b id id' => ?_
  dsimp only
  split
  · exact ⟨rfl, h.deactivate rfl⟩
  · exact ⟨rfl, h.setState rfl⟩

/-- A request is answered from what it reads. -/
theorem Alike.process (h : Alike name s t) (env : Environment β) {r : Request}
    (hr : pipelineOf r = some name) : SameOutcome name (process env s r) (process env t r) := by
  cases r with
  | leave => cases hr
  | createPipeline token other type config library =>
    obtain rfl := Option.some.inj hr
    exact h.createPipeline env token type config library
  | destroyPipeline token other =>
    obtain rfl := Option.some.inj hr
    exact h.destroyPipeline env token
  | checkPipeline other =>
    obtain rfl := Option.some.inj hr
    simp only [ProviderHandlers.process, checkPipeline]
    rcases h.cases with ⟨hs, ht⟩ | ⟨b, active, j, id, id', hs, ht⟩
    · rw [hs, ht]
      exact h.respond _
    · rw [hs, ht]
      exact h.respond _
  | start groupHash other i =>
    obtain rfl := Option.some.inj hr
    exact h.start env groupHash i
  | stage other i args =>
    obtain rfl := Option.some.inj hr
    exact h.onActive fun b id id' => ⟨rfl, h.setState rfl⟩
  | execute other i autoCleanup =>
    obtain rfl := Option.some.inj hr
    exact h.execute env i autoCleanup
  | cleanup other i =>
    obtain rfl := Option.some.inj hr
    exact h.cleanup env i
  | abort other i =>
    obtain rfl := Option.some.inj hr
    exact h.onActive fun b id id' => ⟨rfl, h.deactivate rfl⟩

end Alike

/-! ## Runs -/

/-- The request is about this pipeline. -/
def About (name : String) (e : Event β) : Prop := pipelineOf e.2 = some name

instance (name : String) : DecidablePred (About name : Event β → Prop) :=
  fun _ => inferInstanceAs (Decidable (_ = _))

/-- A leave that arrives waits. -/
def Waits (s : Provider β) (e : Event β) : Prop := e.2 = .leave → s.numActivePipelines ≠ 0

/-- No leave goes ahead: from the arrival of one on the counter of active pipelines is never 0, so
that it is not let go by a later request either. -/
def Stays (s : Provider β) : List (Event β) → Prop
  | [] => True
  | e :: events =>
    (e.2 = .leave → Always (fun t => t.numActivePipelines ≠ 0) s (path next s (e :: events))) ∧
      Stays (next s e) events

instance Stays.decidable : (s : Provider β) → (events : List (Event β)) → Decidable (Stays s events)
  | _, [] => inferInstanceAs (Decidable True)
  | s, e :: events =>
    have : Decidable (Stays (next s e) events) := Stays.decidable (next s e) events
    inferInstanceAs (Decidable ((_ → _ ∧ ∀ x ∈ _, _ ≠ _) ∧ _))

theorem Stays.waits {s : Provider β} {events : List (Event β)} (h : Stays s events) :
    Guarded Waits s (path next s events) := by
  induction events generalizing s with
  | nil => trivial
  | cons e events ih => exact ⟨fun he => (h.1 he).first, ih h.2⟩

def answerTo (s : Provider β) (e : Event β) : Option (RequestResult Int32) × List BackendCall :=
  answer (process e.1 s e.2)

theorem unwinding (name : String) :
    Unwinding (next : Provider β → _) answerTo (About name) Waits (Alike name) where
  unseen {s t e} h hwaits he := by
    obtain ⟨env, r⟩ := e
    cases hr : pipelineOf r with
    | none =>
      cases r with
      | leave =>
        have hsame : next s (env, .leave) = s := by
          simp [next, process, leave, hwaits rfl]
        rw [hsame]
        exact h
      | _ => cases hr
    | some other =>
      refine h.within (process_within env s hr) ?_
      rintro rfl
      exact he hr
  seen {s t e} h he := by
    obtain ⟨hanswer, hprovider⟩ := h.process e.1 he
    exact ⟨hanswer, hprovider⟩

/-- While no leave goes ahead, whatever the backends do: the replies to the requests about a
pipeline, the calls on its backend objects and what it is in the end are those of a provider
that receives no other requests. -/
theorem pipelines_do_not_interfere (name : String) (s : Provider β) (events : List (Event β))
    (hs : Stays s events) :
    observed next answerTo (About name) s events =
        observed next answerTo (About name) s (events.filter fun e => About name e) ∧
      Alike name (events.foldl next s) ((events.filter fun e => About name e).foldl next s) :=
  observed_purged (unwinding name) (.refl name s) hs.waits

/-- Two pipelines, and a leave that waits for the first one to the end. -/
def interleaved : List (Event Unit) :=
  [.createPipeline "" "p" "dummy" "" "", .createPipeline "" "q" "dummy" "" "", .start 0 "p" 1,
    .start 0 "q" 4, .leave, .execute "q" 4 true, .execute "p" 1 false, .start 0 "q" 5].map fun r =>
    (acceptingEnvironment, r)

theorem second_pipeline_is_alone :
    let s := initial "" 0 []
    let alone := interleaved.filter fun e => About "q" e
    observed next answerTo (About "q") s interleaved = observed next answerTo (About "q") s alone ∧
      Alike "q" (interleaved.foldl next s) (alone.foldl next s) :=
  pipelines_do_not_interfere "q" _ interleaved (by decide)

end PipelineIsolation
