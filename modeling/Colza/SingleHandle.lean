import Colza.ServedStart

/-!
# A handle on one provider

The synchronous calls of `PipelineHandle`, next to a distributed handle that lists one
provider only. `PipelineHandle::start` sends the group hash 0.
-/
namespace SingleHandle

open Interfaces OpenIterations ProviderHandlers ClientHandles DistributedStart ServedStart GroupHash

variable {β : Type}

/-- How a synchronous call ends, and the provider after it. No result: there is no response. -/
structure Called (β : Type) where
  result : Option (Except Exception Unit)
  provider : Provider β

def toResult (response : RequestResult Int32) : Except Exception Unit :=
  if response.success then .ok () else .error ⟨response.value, response.error⟩

def call (o : Outcome β) : Called β := ⟨o.reply.map toResult, o.provider⟩

inductive Call where
  | start (iteration : UInt64)
  | stage (iteration : UInt64) (args : StageArgs)
  | execute (iteration : UInt64) (autoCleanup : Bool)
  | cleanup (iteration : UInt64)

section Calls

variable (env : Environment β) (p : PipelineHandle)

def start (s : Provider β) (iteration : UInt64) : Called β :=
  let groupHash : UInt64 := 0
  call (ProviderHandlers.start env s groupHash p.name iteration)

def stage (s : Provider β) (iteration : UInt64) (args : StageArgs) : Called β :=
  call (ProviderHandlers.stage env s p.name iteration args)

def execute (s : Provider β) (iteration : UInt64) (autoCleanup : Bool) : Called β :=
  call (ProviderHandlers.execute env s p.name iteration autoCleanup)

def cleanup (s : Provider β) (iteration : UInt64) : Called β :=
  call (ProviderHandlers.cleanup env s p.name iteration)

def perform (s : Provider β) : Call → Called β
  | .start iteration => start env p s iteration
  | .stage iteration args => stage env p s iteration args
  | .execute iteration autoCleanup => execute env p s iteration autoCleanup
  | .cleanup iteration => cleanup env p s iteration

/-- None of the calls throws. -/
def AllReturn : Provider β → List Call → Prop
  | _, [] => True
  | s, c :: cs => (perform env p s c).result = some (.ok ()) ∧
    AllReturn (perform env p s c).provider cs

end Calls

/-- One iteration of the client. -/
def iterationCalls (i : UInt64) (blocks : List StageArgs) : List Call :=
  .start i :: (blocks.map (.stage i) ++ [.execute i false, .cleanup i])

/-- How a call of a distributed handle ends with this attempt, if it does. -/
def endOf {σ : Type} (a : Attempt σ) : Option (Except Exception Unit) :=
  match a.exit with
  | .returned => some (.ok ())
  | .threw e => some (.error e)
  | .retry => none

/-- On this provider the two kinds of `start` do the same, and an iteration succeeds. -/
structure SameAsDistributed (env : Environment β) (group : View) (s : Provider β)
    (h : DistributedPipelineHandle) (p : PipelineHandle) (i : UInt64) : Prop where
  outcome : (start env p s i).result = endOf (attempt (servedBy env group fun _ => s) h i)
  provider : (start env p s i).provider = afterAttempt env group (fun _ => s) h i (endpoint p)
  active : (start env p s i).result = some (.ok ()) ∧ ActiveAt (start env p s i).provider p.name i
  iteration : ∀ blocks, AllReturn env p s (iterationCalls i blocks)

section Iteration

variable {env : Environment β} {p : PipelineHandle} {s : Provider β} {i : UInt64}

theorem call_result_iff {o : Outcome β} : (call o).result = some (.ok ()) ↔ o.succeeded := by
  unfold call toResult Outcome.succeeded
  cases o.reply with
  | none => simp
  | some r => cases h : r.success <;> simp [h]

/-- Stages, then execute and cleanup, on an active pipeline. -/
theorem allReturn_active (hb : Succeeds env.backend) (blocks : List StageArgs)
    (h : ActiveAt s p.name i) :
    AllReturn env p s (blocks.map (.stage i) ++ [.execute i false, .cleanup i]) := by
  induction blocks generalizing s with
  | nil =>
    obtain ⟨hexecute, hactive⟩ := activeAt_execute hb h
    have hcleanup := (inactiveAt_cleanup hb hactive).1
    exact ⟨call_result_iff.mpr hexecute, call_result_iff.mpr hcleanup, trivial⟩
  | cons args blocks ih =>
    obtain ⟨hstage, hactive⟩ := activeAt_stage hb h args
    exact ⟨call_result_iff.mpr hstage, ih hactive⟩

/-- With the provider's own hash the distributed handle is served in its first attempt. -/
theorem distributed_accepted (group : View) {h : DistributedPipelineHandle}
    (hp : h.pipelines = [p]) (hacc : StartAccepted env s h.groupHash p.name i) :
    attempt (servedBy env group fun _ => s) h i = .decided [(p, 0)] true [] .returned ∧
      afterAttempt env group (fun _ => s) h i (endpoint p) =
        (ProviderHandlers.start env s h.groupHash p.name i).provider := by
  have hservers : servers h = [(p, 0)] := by
    rw [servers, hp]
    rfl
  have ha : attempt (servedBy env group fun _ => s) h i = .decided [(p, 0)] true [] .returned := by
    unfold attempt
    rw [hservers]
    apply runAttempt_accepted
    intro x hx
    obtain rfl := List.mem_singleton.mp hx
    obtain ⟨st, r, b, -, -, -, hr, he⟩ := ProviderHandlers.start_accepted hacc
    simp only [servedBy, he, Option.getD_some, accepted, hr]
  refine ⟨ha, ?_⟩
  simp only [afterAttempt, ha, Attempt.sent, Attempt.aborted, updateAll, Function.update_self]

end Iteration

/-- For every view that the provider may hold. -/
theorem same_as_distributed_iff_zero_hash {env : Environment β} (hb : Succeeds env.backend)
    {view : Finset MemberId} {s : Provider β} (hview : s.groupHash = viewHash view)
    {h : DistributedPipelineHandle} {p : PipelineHandle} (hp : h.pipelines = [p])
    (hhash : h.groupHash = s.groupHash) (group : View) {i : UInt64}
    (hready : ReadyFor env s p.name i) :
    SameAsDistributed env group s h p i ↔ viewHash view = 0 := by
  constructor
  · intro hsame
    have hacc := start_succeeded.mp (call_result_iff.mp hsame.active.1)
    rw [← hview]
    exact hacc.1.symm
  · intro hzero
    have hacc : StartAccepted env s 0 p.name i := ⟨hzero.symm.trans hview.symm, hready⟩
    have hown : h.groupHash = 0 := hhash.trans (hview.trans hzero)
    obtain ⟨ha, hafter⟩ := distributed_accepted group hp (hown ▸ hacc)
    obtain ⟨hstart, hactive⟩ := activeAt_start hacc
    have hresult : (start env p s i).result = some (.ok ()) := call_result_iff.mpr hstart
    refine ⟨?_, ?_, ⟨hresult, hactive⟩, fun blocks => ⟨hresult, allReturn_active hb blocks hactive⟩⟩
    · rw [hresult, ha]
      rfl
    · rw [hafter, hown]
      rfl

/-! A provider alone in its group, and one of a group of three. -/

def pipelineOf (name : String) : PipelineHandle := ⟨name, [97], 0⟩

def readyIn (view : Finset MemberId) : Provider Unit :=
  (initial "" (viewHash view) []).register "p" ()

def handleIn (view : Finset MemberId) : DistributedPipelineHandle :=
  { oneServer with groupHash := viewHash view }

theorem accepting_succeeds : Succeeds ProviderRuns.acceptingEnvironment.backend :=
  ⟨fun _ _ => rfl, fun _ _ _ => rfl, fun _ _ => rfl, fun _ _ => rfl⟩

theorem readyIn_ready (view : Finset MemberId) (i : UInt64) :
    ReadyFor ProviderRuns.acceptingEnvironment (readyIn view) "p" i :=
  ⟨_, Finmap.lookup_insert _, rfl, Or.inl rfl, rfl⟩

theorem same_as_distributed_of_three :
    SameAsDistributed ProviderRuns.acceptingEnvironment [] (readyIn {1, 2, 3}) (handleIn {1, 2, 3})
      (pipelineOf "p") 42 := by
  have hview : (readyIn {1, 2, 3}).groupHash = viewHash {1, 2, 3} := rfl
  have hp : (handleIn {1, 2, 3}).pipelines = [pipelineOf "p"] := rfl
  have hready : ReadyFor ProviderRuns.acceptingEnvironment (readyIn {1, 2, 3}) "p" 42 :=
    readyIn_ready _ 42
  apply (same_as_distributed_iff_zero_hash accepting_succeeds hview hp rfl [] hready).mpr
  decide

theorem single_start_refused_alone :
    ¬ ∀ (env : Environment Unit) (view : Finset MemberId) (s : Provider Unit)
      (h : DistributedPipelineHandle) (p : PipelineHandle) (group : View) (i : UInt64),
      Succeeds env.backend → view.Nonempty → (∀ id ∈ view, id ≠ 0) → s.groupHash = viewHash view →
      h.pipelines = [p] → h.groupHash = s.groupHash → ReadyFor env s p.name i →
        SameAsDistributed env group s h p i := by
  intro hall
  have hids : ∀ id ∈ ({1} : Finset MemberId), id ≠ 0 := by
    intro id hid
    rw [Finset.mem_singleton.mp hid]
    decide
  have hsame := hall ProviderRuns.acceptingEnvironment {1} (readyIn {1}) (handleIn {1})
    (pipelineOf "p") [] 42 accepting_succeeds (Finset.singleton_nonempty 1) hids rfl rfl rfl
    (readyIn_ready _ 42)
  have hacc := start_succeeded.mp (call_result_iff.mp hsame.active.1)
  exact absurd hacc.1 (by decide)

end SingleHandle
