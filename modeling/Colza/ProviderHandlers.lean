import Colza.Interfaces
import Mathlib.Data.Finmap

/-!
# The request handlers of a provider

Every handler of `ProviderImpl` as a function from the provider and the request to
the provider afterwards, the reply and the calls made on backend objects. Requests
are handled one at a time here; suspended handlers are the subject of
`ProviderInterleaving`. Log messages and the responses' transport are left out.
-/
namespace ProviderHandlers

open Interfaces

/-- A JSON document; numbers keep their text. -/
inductive Json where
  | null
  | bool (b : Bool)
  | number (text : String)
  | string (s : String)
  | array (elements : List Json)
  | object (members : List (String × Json))

abbrev BackendId := ℕ

/-- A `Backend` created by the factory: `id` tells the objects apart. -/
structure BackendObject (β : Type) where
  id : BackendId
  state : β
  deriving DecidableEq, Repr

structure PipelineState (β : Type) where
  pipeline : BackendObject β
  active : Bool := false
  iteration : UInt64 := 0
  deriving DecidableEq, Repr

variable {β : Type}

def PipelineState.setBackend (st : PipelineState β) (b : β) : PipelineState β :=
  { st with pipeline := ⟨st.pipeline.id, b⟩ }

/-- `groupLeaves` counts the calls to `ssg_group_leave`, and `nextBackend` is the
identity of the next backend object. The map of MoNA addresses is in key order. -/
structure Provider (β : Type) where
  token : String
  groupHash : UInt64
  monaAddresses : List (UInt64 × NaAddr)
  pipelines : Finmap fun _ : String => PipelineState β
  numActivePipelines : UInt64
  nextBackend : BackendId
  groupLeaves : ℕ

/-- A provider that has just been constructed. -/
def initial (token : String) (groupHash : UInt64) (addresses : List (UInt64 × NaAddr)) :
    Provider β :=
  ⟨token, groupHash, addresses, ∅, 0, 0, 0⟩

def Provider.setState (s : Provider β) (name : String) (st : PipelineState β) : Provider β :=
  { s with pipelines := s.pipelines.insert name st }

def Provider.register (s : Provider β) (name : String) (b : β) : Provider β :=
  { s with pipelines := s.pipelines.insert name { pipeline := ⟨s.nextBackend, b⟩ }
           nextBackend := s.nextBackend + 1 }

/-- What a registered creation function does with its arguments. -/
inductive Made (β : Type) where
  | backend (b : β)
  | null
  | exception (e : Exception)
  | stdException (what : String)
  | unknownException

/-- The libraries a handler calls: the backend classes, the JSON parser, `dlopen`
(`some e` when it fails with `dlerror` equal to `e`) and the registered factories. -/
structure Environment (β : Type) where
  backend : Backend β
  parse : String → Except String Json
  dlopen : String → Option String
  createFn : String → Option (Json → Made β)

def PipelineFactory.createPipeline (env : Environment β) (backendName : String)
    (config : Json) : Made β :=
  match env.createFn backendName with
  | none => .null
  | some f => f config

inductive Thrown where
  | exception (e : Exception)
  | unknown

/-- The part of `_createPipeline` before it registers the new pipeline. -/
def makeBackend (env : Environment β) (s : Provider β) (type : String) (config : Json)
    (library : String) : Except Thrown β :=
  match if library = "" then none else env.dlopen library with
  | some dlerror => .error (.exception (.of .invalidLibrary dlerror))
  | none =>
    match PipelineFactory.createPipeline env type config with
    | .exception e => .error (.exception e)
    | .stdException what => .error (.exception (.of .otherError what))
    | .unknownException => .error .unknown
    | .null => .error (.exception (.of .pipelineCreateError ("Unknown pipeline type " ++ type)))
    | .backend b => .ok (env.backend.updateMonaAddresses b (s.monaAddresses.map Prod.snd))

def _createPipeline (env : Environment β) (s : Provider β) (name type : String) (config : Json)
    (library : String) : Except Thrown (Provider β) :=
  (makeBackend env s type config library).map (s.register name)

/-- `reply` is `none` when the handler has not responded: `leave` has no response, and an
exception of an unknown type leaves `createPipeline` without one. -/
structure Outcome (β : Type) where
  provider : Provider β
  reply : Option (RequestResult Int32)
  calls : List (BackendId × BackendCall) := []

def respond (s : Provider β) (result : RequestResult Int32) : Outcome β := ⟨s, some result, []⟩

@[simp] theorem respond_provider (s : Provider β) (result : RequestResult Int32) :
    (respond s result).provider = s := rfl

def Outcome.succeeded (o : Outcome β) : Prop := ∃ r, o.reply = some r ∧ r.success = true

instance (o : Outcome β) : Decidable o.succeeded :=
  inferInstanceAs (Decidable (∃ r ∈ o.reply, r.success = true))

def badToken (s : Provider β) (token : String) : Prop := s.token ≠ "" ∧ s.token ≠ token

instance (s : Provider β) (token : String) : Decidable (badToken s token) :=
  inferInstanceAs (Decidable (_ ∧ _))

def invalidToken : RequestResult Int32 :=
  .failure .invalidSecurityToken "Invalid security token"

/-- The refusal of `FIND_PIPELINE`. -/
def pipelineNotFound (name : String) : RequestResult Int32 :=
  .failure .invalidPipelineName ("Pipeline with name " ++ name ++ " not found")

/-- An empty configuration is the null document. -/
def parseConfig (env : Environment β) (config : String) : Except String Json :=
  if config = "" then .ok .null else env.parse config

def createPipeline (env : Environment β) (s : Provider β)
    (token pipelineName pipelineType pipelineConfig library : String) : Outcome β :=
  if badToken s token then respond s invalidToken
  else match parseConfig env pipelineConfig with
  | .error what => respond s (.failure .jsonParseError what)
  | .ok config =>
    match _createPipeline env s pipelineName pipelineType config library with
    | .error (.exception e) => respond s { success := false, error := e.what, value := e.code }
    | .error .unknown => ⟨s, none, []⟩
    | .ok s' => respond s' {}

def destroyPipeline (env : Environment β) (s : Provider β) (token pipelineName : String) :
    Outcome β :=
  if badToken s token then respond s invalidToken
  else match s.pipelines.lookup pipelineName with
  | none =>
    respond s (.failure .invalidPipelineName ("Pipeline " ++ pipelineName ++ " not found"))
  | some state =>
    if state.active then
      respond s (.failure .pipelineIsActive "Cannot destroy a pipeline while active")
    else
      let (result, _) := env.backend.destroy state.pipeline.state
      ⟨{ s with pipelines := s.pipelines.erase pipelineName }, some result,
        [(state.pipeline.id, .destroy result.success)]⟩

def checkPipeline (s : Provider β) (pipelineName : String) : Outcome β :=
  match s.pipelines.lookup pipelineName with
  | none => respond s (pipelineNotFound pipelineName)
  | some _ => respond s {}

def start (env : Environment β) (s : Provider β) (groupHash : UInt64) (pipelineName : String)
    (iteration : UInt64) : Outcome β :=
  if groupHash ≠ s.groupHash then
    respond s (.failure .invalidGroupHash "Inconsistent group view")
  else match s.pipelines.lookup pipelineName with
  | none => respond s (pipelineNotFound pipelineName)
  | some state =>
    if state.active then
      respond s (.failure .pipelineIsActive "Pipeline is already active")
    else if state.iteration ≠ 0 ∧ state.iteration ≥ iteration then
      respond s (.failure .invalidIteration
        "Pipeline cannot be started at an inferior iteration number")
    else
      let s := { s with numActivePipelines := s.numActivePipelines + 1 }
      let (result, b) := env.backend.start state.pipeline.state iteration
      let state := state.setBackend b
      let calls := [(state.pipeline.id, .start iteration result.success)]
      if result.success then
        ⟨s.setState pipelineName { state with iteration := iteration, active := true },
          some result, calls⟩
      else
        let s := { s with numActivePipelines := s.numActivePipelines - 1 }
        ⟨s.setState pipelineName state, some result, calls⟩

/-- What `stage`, `execute`, `cleanup` and `abort` check before they reach the backend. -/
def onActive (s : Provider β) (pipelineName : String) (iteration : UInt64)
    (body : PipelineState β → Outcome β) : Outcome β :=
  match s.pipelines.lookup pipelineName with
  | none => respond s (pipelineNotFound pipelineName)
  | some state =>
    if !state.active then respond s (.failure .pipelineNotActive "Pipeline is not active")
    else if state.iteration ≠ iteration then
      respond s (.failure .invalidIteration "Invalid iteration")
    else body state

def stage (env : Environment β) (s : Provider β) (pipelineName : String) (iteration : UInt64)
    (args : StageArgs) : Outcome β :=
  onActive s pipelineName iteration fun state =>
    let (result, b) := env.backend.stage state.pipeline.state iteration args
    ⟨s.setState pipelineName (state.setBackend b), some result,
      [(state.pipeline.id, .stage iteration args result.success)]⟩

/-- `state->active = false` and the decrement, under the lock. -/
def Provider.deactivate (s : Provider β) (name : String) (st : PipelineState β) : Provider β :=
  { s.setState name { st with active := false } with
    numActivePipelines := s.numActivePipelines - 1 }

def execute (env : Environment β) (s : Provider β) (pipelineName : String) (iteration : UInt64)
    (autoCleanup : Bool) : Outcome β :=
  onActive s pipelineName iteration fun state =>
    let (result, b) := env.backend.execute state.pipeline.state iteration
    let call := (state.pipeline.id, BackendCall.execute iteration result.success)
    if result.success && autoCleanup then
      let (cleaned, b) := env.backend.cleanup b iteration
      let calls := [call, (state.pipeline.id, .cleanup iteration cleaned.success)]
      if cleaned.success then
        ⟨s.deactivate pipelineName (state.setBackend b), some cleaned, calls⟩
      else ⟨s.setState pipelineName (state.setBackend b), some cleaned, calls⟩
    else ⟨s.setState pipelineName (state.setBackend b), some result, [call]⟩

def cleanup (env : Environment β) (s : Provider β) (pipelineName : String)
    (iteration : UInt64) : Outcome β :=
  onActive s pipelineName iteration fun state =>
    let (result, b) := env.backend.cleanup state.pipeline.state iteration
    let calls := [(state.pipeline.id, .cleanup iteration result.success)]
    if result.success then
      ⟨s.deactivate pipelineName (state.setBackend b), some result, calls⟩
    else ⟨s.setState pipelineName (state.setBackend b), some result, calls⟩

def abort (env : Environment β) (s : Provider β) (pipelineName : String)
    (iteration : UInt64) : Outcome β :=
  onActive s pipelineName iteration fun state =>
    let b := env.backend.abort state.pipeline.state iteration
    let state := { state.setBackend b with iteration := state.iteration - 1 }
    ⟨s.deactivate pipelineName state, some {}, [(state.pipeline.id, .abort iteration)]⟩

/-- One pass of `leave` through its loop: while the counter is not 0 the handler waits,
and the provider is as it was. The pass after a waiting leave is woken is a further leave in a
run of requests. -/
def leave (s : Provider β) : Outcome β :=
  if s.numActivePipelines ≠ 0 then ⟨s, none, []⟩
  else ⟨{ s with groupLeaves := s.groupLeaves + 1, pipelines := ∅ }, none, []⟩

inductive Request where
  | createPipeline (token pipelineName pipelineType pipelineConfig library : String)
  | destroyPipeline (token pipelineName : String)
  | checkPipeline (pipelineName : String)
  | start (groupHash : UInt64) (pipelineName : String) (iteration : UInt64)
  | stage (pipelineName : String) (iteration : UInt64) (args : StageArgs)
  | execute (pipelineName : String) (iteration : UInt64) (autoCleanup : Bool)
  | cleanup (pipelineName : String) (iteration : UInt64)
  | abort (pipelineName : String) (iteration : UInt64)
  | leave
  deriving DecidableEq, Repr

def process (env : Environment β) (s : Provider β) : Request → Outcome β
  | .createPipeline token name type config library =>
    createPipeline env s token name type config library
  | .destroyPipeline token name => destroyPipeline env s token name
  | .checkPipeline name => checkPipeline s name
  | .start groupHash name iteration => start env s groupHash name iteration
  | .stage name iteration args => stage env s name iteration args
  | .execute name iteration autoCleanup => execute env s name iteration autoCleanup
  | .cleanup name iteration => cleanup env s name iteration
  | .abort name iteration => abort env s name iteration
  | .leave => leave s

/-- Calls on one backend object. -/
def callsOf (st : PipelineState β) (cs : List BackendCall) : List (BackendId × BackendCall) :=
  cs.map fun c => (st.pipeline.id, c)

/-- What a request can do other than create a pipeline or start an iteration, with the
state that the handler found. -/
inductive Quiet (s : Provider β) : Provider β → List (BackendId × BackendCall) → Prop where
  | unchanged : Quiet s s []
  | destroyed {name st} (ok : Bool) : s.pipelines.lookup name = some st → st.active = false →
      Quiet s { s with pipelines := s.pipelines.erase name } (callsOf st [.destroy ok])
  | startFailed {name st} (i : UInt64) (b : β) : s.pipelines.lookup name = some st →
      st.active = false → Quiet s (s.setState name (st.setBackend b)) (callsOf st [.start i false])
  | used {name st} (b : β) (cs : List BackendCall) : s.pipelines.lookup name = some st →
      st.active = true → (∀ c ∈ cs, c ∈ protocol.inner st.iteration) →
      Quiet s (s.setState name (st.setBackend b)) (callsOf st cs)
  | cleaned {name st} (b : β) (cs : List BackendCall) : s.pipelines.lookup name = some st →
      st.active = true → (∀ c ∈ cs, c ∈ protocol.inner st.iteration) →
      Quiet s (s.deactivate name (st.setBackend b)) (callsOf st (cs ++ [.cleanup st.iteration true]))
  | aborted {name st} (b : β) : s.pipelines.lookup name = some st → st.active = true →
      Quiet s (s.deactivate name { st.setBackend b with iteration := st.iteration - 1 })
        (callsOf st [.abort st.iteration])
  | left : s.numActivePipelines = 0 →
      Quiet s { s with groupLeaves := s.groupLeaves + 1, pipelines := ∅ } []

/-- The provider after `start` has opened iteration `i`. -/
def Provider.activate (s : Provider β) (name : String) (st : PipelineState β) (i : UInt64) :
    Provider β :=
  { s.setState name { st with iteration := i, active := true } with
    numActivePipelines := s.numActivePipelines + 1 }

/-- Everything one request can do to the provider and to the backend objects. -/
inductive Effect (s : Provider β) : Provider β → List (BackendId × BackendCall) → Prop where
  | quiet {t cs} : Quiet s t cs → Effect s t cs
  | registered (name : String) (b : β) : Effect s (s.register name b) []
  | started {name st} (i : UInt64) (b : β) : s.pipelines.lookup name = some st →
      st.active = false → (st.iteration = 0 ∨ st.iteration < i) →
      Effect s (s.activate name (st.setBackend b) i) (callsOf st [.start i true])

def Outcome.IsQuiet (o : Outcome β) (s : Provider β) : Prop := Quiet s o.provider o.calls

theorem respond_quiet (s : Provider β) (r : RequestResult Int32) : (respond s r).IsQuiet s :=
  .unchanged

theorem respond_succeeded (s : Provider β) (r : RequestResult Int32) :
    (respond s r).succeeded ↔ r.success = true := by
  simp [Outcome.succeeded, respond]

/-- A creation request that the provider carries out. -/
def CreateAccepted (env : Environment β) (s : Provider β)
    (token pipelineType pipelineConfig library : String) : Prop :=
  ¬ badToken s token ∧ ∃ config b, parseConfig env pipelineConfig = .ok config ∧
    makeBackend env s pipelineType config library = .ok b

/-- A start request that the provider carries out. -/
def StartAccepted (env : Environment β) (s : Provider β) (groupHash : UInt64)
    (pipelineName : String) (iteration : UInt64) : Prop :=
  groupHash = s.groupHash ∧ ∃ st, s.pipelines.lookup pipelineName = some st ∧
    st.active = false ∧ (st.iteration = 0 ∨ st.iteration < iteration) ∧
    (env.backend.start st.pipeline.state iteration).1.success = true

theorem createPipeline_accepted {env : Environment β} {s : Provider β}
    {token type config library : String} (name : String)
    (h : CreateAccepted env s token type config library) :
    ∃ b, createPipeline env s token name type config library = respond (s.register name b) {} := by
  obtain ⟨ht, json, b, hp, hm⟩ := h
  exact ⟨b, by simp [createPipeline, _createPipeline, ht, hp, hm, Except.map]⟩

theorem createPipeline_refused {env : Environment β} {s : Provider β}
    {token name type config library : String}
    (h : ¬ CreateAccepted env s token type config library) :
    (createPipeline env s token name type config library).IsQuiet s := by
  unfold createPipeline _createPipeline
  split
  · exact respond_quiet s _
  · next ht =>
    split
    · exact respond_quiet s _
    · next json hp =>
      cases hm : makeBackend env s type json library with
      | error e => cases e <;> exact .unchanged
      | ok b => exact (h ⟨ht, json, b, hp, hm⟩).elim

theorem start_accepted {env : Environment β} {s : Provider β} {groupHash : UInt64}
    {name : String} {i : UInt64} (h : StartAccepted env s groupHash name i) :
    ∃ st r b, s.pipelines.lookup name = some st ∧ st.active = false ∧
      (st.iteration = 0 ∨ st.iteration < i) ∧ r.success = true ∧
      start env s groupHash name i =
        ⟨s.activate name (st.setBackend b) i, some r, callsOf st [.start i true]⟩ := by
  obtain ⟨hg, st, hl, ha, hi, hr⟩ := h
  refine ⟨st, (env.backend.start st.pipeline.state i).1,
    (env.backend.start st.pipeline.state i).2, hl, ha, hi, hr, ?_⟩
  have hn : ¬ (st.iteration ≠ 0 ∧ st.iteration ≥ i) := by
    rintro ⟨h0, hle⟩
    exact UInt64.not_le.mpr (hi.resolve_left h0) hle
  unfold start
  simp only [hg, hl, ha, hn, hr, ne_eq, not_true_eq_false, if_false, if_true, Bool.false_eq_true]
  rfl

theorem start_refused {env : Environment β} {s : Provider β} {groupHash : UInt64}
    {name : String} {i : UInt64} (h : ¬ StartAccepted env s groupHash name i) :
    (start env s groupHash name i).IsQuiet s ∧ ¬ (start env s groupHash name i).succeeded := by
  have refusal {code : ErrorCode} {error : String} :
      (respond s (.failure code error)).IsQuiet s ∧
        ¬ (respond s (.failure code error)).succeeded :=
    ⟨respond_quiet s _, by simp [respond_succeeded]⟩
  unfold start
  split
  · exact refusal
  · next hg =>
    split
    · exact refusal
    · next st hl =>
      split
      · exact refusal
      · next ha =>
        have ha : st.active = false := by simpa using ha
        split
        · exact refusal
        · next hi =>
          have hi : st.iteration = 0 ∨ st.iteration < i := by
            by_cases h0 : st.iteration = 0
            · exact Or.inl h0
            · exact Or.inr (UInt64.not_le.mp fun hle => hi ⟨h0, hle⟩)
          have hr : (env.backend.start st.pipeline.state i).1.success = false := by
            by_contra hr
            exact h ⟨by simpa using hg, st, hl, ha, hi, by simpa using hr⟩
          have hc : s.numActivePipelines + 1 - 1 = s.numActivePipelines := by simp
          simp only [hr, hc, Bool.false_eq_true, if_false]
          refine ⟨.startFailed i _ hl ha, ?_⟩
          rintro ⟨r, he, hs⟩
          rw [← Option.some.inj he] at hs
          exact Bool.false_ne_true (hr.symm.trans hs)

theorem start_succeeded {env : Environment β} {s : Provider β} {groupHash : UInt64}
    {name : String} {i : UInt64} :
    (start env s groupHash name i).succeeded ↔ StartAccepted env s groupHash name i := by
  constructor
  · intro h
    by_contra hn
    exact (start_refused hn).2 h
  · intro h
    obtain ⟨st, r, b, -, -, -, hr, he⟩ := start_accepted h
    exact ⟨r, by rw [he], hr⟩

theorem destroyPipeline_quiet (env : Environment β) (s : Provider β) (token name : String) :
    (destroyPipeline env s token name).IsQuiet s := by
  unfold destroyPipeline
  split
  · exact respond_quiet s _
  · split
    · exact respond_quiet s _
    · next st hl =>
      split
      · exact respond_quiet s _
      · next ha => exact .destroyed _ hl (by simpa using ha)

/-- `onActive` either refuses or runs its body on an active pipeline at that iteration. -/
theorem onActive_cases (s : Provider β) (name : String) (i : UInt64)
    (body : PipelineState β → Outcome β) :
    (∃ r, onActive s name i body = respond s r ∧ r.success = false) ∨
    ∃ st, s.pipelines.lookup name = some st ∧ st.active = true ∧ st.iteration = i ∧
      onActive s name i body = body st := by
  unfold onActive
  cases hl : s.pipelines.lookup name with
  | none => exact Or.inl ⟨_, rfl, rfl⟩
  | some st =>
    by_cases ha : st.active
    · by_cases hi : st.iteration = i
      · exact Or.inr ⟨st, rfl, ha, hi, by simp [ha, hi]⟩
      · exact Or.inl ⟨_, by simp [ha, hi]; rfl, rfl⟩
    · exact Or.inl ⟨_, by simp [ha]; rfl, rfl⟩

theorem onActive_quiet {s : Provider β} {name : String} {i : UInt64}
    {body : PipelineState β → Outcome β}
    (h : ∀ st, s.pipelines.lookup name = some st → st.active = true → st.iteration = i →
      (body st).IsQuiet s) : (onActive s name i body).IsQuiet s := by
  rcases onActive_cases s name i body with ⟨r, hr, _⟩ | ⟨st, hl, ha, hi, hb⟩
  · rw [hr]
    exact respond_quiet s r
  · rw [hb]
    exact h st hl ha hi

theorem stage_quiet (env : Environment β) (s : Provider β) (name : String) (i : UInt64)
    (args : StageArgs) : (stage env s name i args).IsQuiet s := by
  apply onActive_quiet
  rintro st hl ha rfl
  rcases env.backend.stage st.pipeline.state st.iteration args with ⟨result, b⟩
  refine Quiet.used b [.stage st.iteration args result.success] hl ha fun c hc => ?_
  exact Or.inl ⟨args, result.success, List.mem_singleton.mp hc⟩

theorem execute_quiet (env : Environment β) (s : Provider β) (name : String) (i : UInt64)
    (autoCleanup : Bool) : (execute env s name i autoCleanup).IsQuiet s := by
  apply onActive_quiet
  rintro st hl ha rfl
  rcases env.backend.execute st.pipeline.state st.iteration with ⟨result, b⟩
  cases h : result.success && autoCleanup with
  | false =>
    simp only [h, Bool.false_eq_true, if_false]
    exact Quiet.used b [.execute st.iteration result.success] hl ha (by simp [protocol])
  | true =>
    rcases hb : env.backend.cleanup b st.iteration with ⟨cleaned, b'⟩
    simp only [h, hb, if_true]
    cases hc : cleaned.success with
    | true =>
      exact Quiet.cleaned b' [.execute st.iteration result.success] hl ha (by simp [protocol])
    | false =>
      exact Quiet.used b' [.execute st.iteration result.success, .cleanup st.iteration false]
        hl ha (by simp [protocol])

theorem cleanup_quiet (env : Environment β) (s : Provider β) (name : String) (i : UInt64) :
    (cleanup env s name i).IsQuiet s := by
  apply onActive_quiet
  rintro st hl ha rfl
  rcases env.backend.cleanup st.pipeline.state st.iteration with ⟨result, b⟩
  cases hr : result.success with
  | true =>
    simp only [hr, if_true]
    exact Quiet.cleaned b [] hl ha (by simp)
  | false =>
    simp only [hr, Bool.false_eq_true, if_false]
    exact Quiet.used b [.cleanup st.iteration false] hl ha (by simp [protocol])

theorem abort_quiet (env : Environment β) (s : Provider β) (name : String) (i : UInt64) :
    (abort env s name i).IsQuiet s := by
  apply onActive_quiet
  rintro st hl ha rfl
  exact Quiet.aborted (env.backend.abort st.pipeline.state st.iteration) hl ha

theorem leave_quiet (s : Provider β) : (leave s).IsQuiet s := by
  unfold leave
  split
  · exact .unchanged
  · next h => exact .left (by simpa using h)

/-- Creating and starting aside, every request is quiet. -/
theorem process_quiet (env : Environment β) (s : Provider β) (r : Request)
    (hc : ∀ token name type config library, r = .createPipeline token name type config library →
      ¬ CreateAccepted env s token type config library)
    (hs : ∀ groupHash name i, r = .start groupHash name i →
      ¬ StartAccepted env s groupHash name i) :
    (process env s r).IsQuiet s := by
  cases r with
  | createPipeline token name type config library =>
    exact createPipeline_refused (hc token name type config library rfl)
  | destroyPipeline token name => exact destroyPipeline_quiet env s token name
  | checkPipeline name =>
    simp only [process, checkPipeline]
    split <;> exact respond_quiet s _
  | start groupHash name i => exact (start_refused (hs groupHash name i rfl)).1
  | stage name i args => exact stage_quiet env s name i args
  | execute name i autoCleanup => exact execute_quiet env s name i autoCleanup
  | cleanup name i => exact cleanup_quiet env s name i
  | abort name i => exact abort_quiet env s name i
  | leave => exact leave_quiet s

theorem process_effect (env : Environment β) (s : Provider β) (r : Request) :
    Effect s (process env s r).provider (process env s r).calls := by
  by_cases hc : ∃ token name type config library,
      r = .createPipeline token name type config library ∧
        CreateAccepted env s token type config library
  · obtain ⟨token, name, type, config, library, rfl, h⟩ := hc
    obtain ⟨b, hb⟩ := createPipeline_accepted name h
    simp only [process, hb]
    exact .registered name b
  by_cases hs : ∃ groupHash name i, r = .start groupHash name i ∧
      StartAccepted env s groupHash name i
  · obtain ⟨groupHash, name, i, rfl, h⟩ := hs
    obtain ⟨st, r, b, hl, ha, hi, -, he⟩ := start_accepted h
    simp only [process, he]
    exact .started i b hl ha hi
  · exact .quiet (process_quiet env s r
      (fun token name type config library hr h => hc ⟨token, name, type, config, library, hr, h⟩)
      (fun groupHash name i hr h => hs ⟨groupHash, name, i, hr, h⟩))

end ProviderHandlers
