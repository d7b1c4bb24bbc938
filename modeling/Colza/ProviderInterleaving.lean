import Colza.ProviderHandlers
import Colza.GuardedRuns
import Colza.FiniteCounts

/-!
# Suspended handlers of one provider

Any number of handlers run at once. A handler is suspended at each acquisition of
`m_pipelines_mtx`, during each call on a backend object, at the condition wait of
`leave` and before `notify_all`; what it does between two such points is one event.
Only `destroyPipeline` keeps the lock over a suspension. No pipeline is created, so a
name stands for one `PipelineState`, and a handler goes on using the one it found.
-/
namespace ProviderInterleaving

open GuardedRuns FiniteCounts

/-- The members of `PipelineState` that change. -/
structure PipelineFlags where
  active : Bool := false
  iteration : UInt64 := 0
  deriving DecidableEq, Repr

/-- What a handler is called with, as far as its control flow depends on it. -/
inductive Handler where
  | start (groupHash : UInt64) (pipelineName : String) (iteration : UInt64)
  | stage (pipelineName : String) (iteration : UInt64)
  | execute (pipelineName : String) (iteration : UInt64) (autoCleanup : Bool)
  | cleanup (pipelineName : String) (iteration : UInt64)
  | abort (pipelineName : String) (iteration : UInt64)
  | destroyPipeline (token pipelineName : String)
  | leave
  deriving DecidableEq, Repr

/-- A call that is running on a backend object. A cleanup remembers whether it is the
automatic one of `execute`. -/
inductive Call where
  | start (iteration : UInt64)
  | stage (iteration : UInt64)
  | execute (iteration : UInt64) (autoCleanup : Bool)
  | cleanup (iteration : UInt64) (autoCleanup : Bool)
  | abort (iteration : UInt64)
  | destroy
  deriving DecidableEq, Repr

/-- Where a handler is suspended, with the local variables it still needs. `starting`,
`startFailed`, `cleaned` and `aborted` are at a later acquisition of the lock, `notifying`
has released it for the last time. -/
inductive Pc where
  | arrived (h : Handler)
  | starting (pipelineName : String) (iteration : UInt64)
  | inBackend (pipelineName : String) (call : Call)
  | startFailed
  | cleaned (pipelineName : String)
  | aborted (pipelineName : String)
  | notifying
  | waiting
  | woken
  | done
  deriving DecidableEq, Repr

structure Config where
  token : String
  groupHash : UInt64

def Config.Refuses (c : Config) (token : String) : Prop := c.token ≠ "" ∧ c.token ≠ token

instance (c : Config) (token : String) : Decidable (c.Refuses token) :=
  inferInstanceAs (Decidable (_ ∧ _))

/-- `destroyed` are the pipelines on which `Backend::destroy` has been called. -/
structure State (n : ℕ) where
  registered : Finset String
  state : String → PipelineFlags
  numActivePipelines : UInt64
  lock : Option (Fin n)
  pc : Fin n → Pc
  destroyed : Finset String
  groupLeaves : ℕ

variable {n : ℕ}

/-- Handlers that arrive at a provider whose counter is exact. -/
def initial (pipelines : Finset String) (flags : String → PipelineFlags)
    (handlers : Fin n → Handler) : State n where
  registered := pipelines
  state := flags
  numActivePipelines := UInt64.ofNat (tally pipelines (fun st => st.active = true) flags)
  lock := none
  pc k := .arrived (handlers k)
  destroyed := ∅
  groupLeaves := 0

inductive Event (n : ℕ) where
  | acquire (k : Fin n)
  | returns (k : Fin n) (success : Bool)
  | notify (k : Fin n)
  | wake (k : Fin n)
  deriving DecidableEq, Repr

def State.goto (s : State n) (k : Fin n) (q : Pc) : State n :=
  { s with pc := Function.update s.pc k q }

def State.setState (s : State n) (name : String) (st : PipelineFlags) : State n :=
  { s with state := Function.update s.state name st }

def State.find (s : State n) (name : String) : Option PipelineFlags :=
  if name ∈ s.registered then some (s.state name) else none

/-- `FIND_PIPELINE` and the checks of `stage`, `execute`, `cleanup` and `abort`. -/
def State.onActive (s : State n) (k : Fin n) (name : String) (i : UInt64) (call : Call) :
    State n :=
  match s.find name with
  | none => s.goto k .done
  | some st =>
    if !st.active then s.goto k .done
    else if st.iteration ≠ i then s.goto k .done
    else s.goto k (.inBackend name call)

/-- One pass of `leave` through its loop, with the lock. -/
def State.leave (s : State n) (k : Fin n) : State n :=
  if s.numActivePipelines ≠ 0 then s.goto k .waiting
  else { s.goto k .done with groupLeaves := s.groupLeaves + 1, registered := ∅ }

/-- The first segment of a handler; `none` while it cannot have the lock it needs. -/
def State.enter (c : Config) (s : State n) (k : Fin n) (h : Handler) : Option (State n) :=
  match h with
  | .start groupHash name i =>
    if groupHash ≠ c.groupHash then some (s.goto k .done)
    else if s.lock ≠ none then none
    else match s.find name with
    | none => some (s.goto k .done)
    | some st =>
      if st.active then some (s.goto k .done)
      else if st.iteration ≠ 0 ∧ st.iteration ≥ i then some (s.goto k .done)
      else some (s.goto k (.starting name i))
  | .stage name i => if s.lock ≠ none then none else some (s.onActive k name i (.stage i))
  | .execute name i auto =>
    if s.lock ≠ none then none else some (s.onActive k name i (.execute i auto))
  | .cleanup name i =>
    if s.lock ≠ none then none else some (s.onActive k name i (.cleanup i false))
  | .abort name i => if s.lock ≠ none then none else some (s.onActive k name i (.abort i))
  | .destroyPipeline token name =>
    if c.Refuses token then some (s.goto k .done)
    else if s.lock ≠ none then none
    else match s.find name with
    | none => some (s.goto k .done)
    | some st =>
      if st.active then some (s.goto k .done)
      else some { s.goto k (.inBackend name .destroy) with
        lock := some k, destroyed := insert name s.destroyed }
  | .leave => if s.lock ≠ none then none else some (s.leave k)

/-- The critical section that closes an iteration. -/
def State.deactivate (s : State n) (k : Fin n) (name : String) (i : UInt64) : State n :=
  { (s.setState name ⟨false, i⟩).goto k .notifying with
    numActivePipelines := s.numActivePipelines - 1 }

def State.acquire (c : Config) (s : State n) (k : Fin n) : Option (State n) :=
  match s.pc k with
  | .arrived h => s.enter c k h
  | .starting name i =>
    if s.lock ≠ none then none
    else some { s.goto k (.inBackend name (.start i)) with
      numActivePipelines := s.numActivePipelines + 1 }
  | .startFailed =>
    if s.lock ≠ none then none
    else some { s.goto k .notifying with numActivePipelines := s.numActivePipelines - 1 }
  | .cleaned name =>
    if s.lock ≠ none then none else some (s.deactivate k name (s.state name).iteration)
  | .aborted name =>
    if s.lock ≠ none then none else some (s.deactivate k name ((s.state name).iteration - 1))
  | .woken => if s.lock ≠ none then none else some (s.leave k)
  | _ => none

/-- The call of a handler on its backend object returns. -/
def State.returns (s : State n) (k : Fin n) (success : Bool) : Option (State n) :=
  match s.pc k with
  | .inBackend name (.start i) =>
    if success then some ((s.setState name ⟨true, i⟩).goto k .done)
    else some (s.goto k .startFailed)
  | .inBackend _ (.stage _) => some (s.goto k .done)
  | .inBackend name (.execute i auto) =>
    if success && auto then some (s.goto k (.inBackend name (.cleanup i true)))
    else some (s.goto k .done)
  | .inBackend name (.cleanup _ auto) =>
    if success then some (s.goto k (.cleaned name))
    else if auto then some (s.goto k .notifying)
    else some (s.goto k .done)
  | .inBackend name (.abort _) => some (s.goto k (.aborted name))
  | .inBackend name .destroy =>
    some { s.goto k .done with lock := none, registered := s.registered.erase name }
  | _ => none

def Pc.wake : Pc → Pc
  | .waiting => .woken
  | q => q

def State.notifyAll (s : State n) : State n := { s with pc := fun k => (s.pc k).wake }

/-- `none` where the event is not possible. A condition variable may also wake a waiting
handler by itself. -/
def step (c : Config) (s : State n) : Event n → Option (State n)
  | .acquire k => s.acquire c k
  | .returns k success => s.returns k success
  | .notify k => if s.pc k = .notifying then some (s.notifyAll.goto k .done) else none
  | .wake k => if s.pc k = .waiting then some (s.goto k .woken) else none

/-- An event that is not possible changes nothing. -/
def next (c : Config) (s : State n) (e : Event n) : State n := (step c s e).getD s

/-! ## What one event can do -/

@[simp] theorem goto_state (s : State n) (k : Fin n) (q : Pc) :
    (s.goto k q).state = s.state := rfl

@[simp] theorem goto_numActivePipelines (s : State n) (k : Fin n) (q : Pc) :
    (s.goto k q).numActivePipelines = s.numActivePipelines := rfl

@[simp] theorem goto_lock (s : State n) (k : Fin n) (q : Pc) : (s.goto k q).lock = s.lock := rfl

@[simp] theorem goto_pc_self (s : State n) (k : Fin n) (q : Pc) : (s.goto k q).pc k = q := by
  simp [State.goto]

theorem goto_pc_of_ne (s : State n) {j k : Fin n} (q : Pc) (h : j ≠ k) :
    (s.goto k q).pc j = s.pc j := by
  simp [State.goto, h]

@[simp] theorem setState_self (s : State n) (name : String) (st : PipelineFlags) :
    (s.setState name st).state name = st := by
  simp [State.setState]

theorem setState_of_ne (s : State n) {name other : String} (st : PipelineFlags)
    (h : other ≠ name) : (s.setState name st).state other = s.state other := by
  simp [State.setState, h]

@[simp] theorem setState_pc (s : State n) (name : String) (st : PipelineFlags) :
    (s.setState name st).pc = s.pc := rfl

@[simp] theorem notifyAll_pc (s : State n) (k : Fin n) : s.notifyAll.pc k = (s.pc k).wake := rfl

/-- The handlers that need an open iteration, with that iteration and the call they make. -/
def Handler.opens : Handler → Option (String × UInt64 × Call)
  | .stage name i => some (name, i, .stage i)
  | .execute name i auto => some (name, i, .execute i auto)
  | .cleanup name i => some (name, i, .cleanup i false)
  | .abort name i => some (name, i, .abort i)
  | _ => none

/-- The calls that return without a further critical section. -/
def Call.IsUse : Call → Prop
  | .stage _ | .execute _ _ | .cleanup _ _ => True
  | _ => False

/-- Handler `k` is about to pass through the loop of `leave`. -/
def Leaving (s : State n) (k : Fin n) : Prop := s.pc k = .arrived .leave ∨ s.pc k = .woken

/-- The events that move one handler and nothing else. -/
inductive Hop (s : State n) : Event n → Fin n → Pc → Prop where
  | refused {k h} : s.pc k = .arrived h → Hop s (.acquire k) k .done
  | starting {k groupHash name i} : s.lock = none →
      s.pc k = .arrived (.start groupHash name i) → name ∈ s.registered →
      (s.state name).active = false →
      ((s.state name).iteration = 0 ∨ (s.state name).iteration < i) →
      Hop s (.acquire k) k (.starting name i)
  | opened {k h name i call} : s.lock = none → s.pc k = .arrived h →
      h.opens = some (name, i, call) → name ∈ s.registered → (s.state name).active = true →
      (s.state name).iteration = i → Hop s (.acquire k) k (.inBackend name call)
  | waits {k} : s.lock = none → Leaving s k → s.numActivePipelines ≠ 0 →
      Hop s (.acquire k) k .waiting
  | startFailed {k name i} : s.pc k = .inBackend name (.start i) →
      Hop s (.returns k false) k .startFailed
  | returned {k name call success q} : s.pc k = .inBackend name call → call.IsUse →
      q = .done ∨ q = .notifying → Hop s (.returns k success) k q
  | autoCleanup {k name i} : s.pc k = .inBackend name (.execute i true) →
      Hop s (.returns k true) k (.inBackend name (.cleanup i true))
  | cleaned {k name i auto} : s.pc k = .inBackend name (.cleanup i auto) →
      Hop s (.returns k true) k (.cleaned name)
  | aborted {k name i success} : s.pc k = .inBackend name (.abort i) →
      Hop s (.returns k success) k (.aborted name)
  | woken {k} : s.pc k = .waiting → Hop s (.wake k) k .woken

/-- Handler `k` is about to call `Backend::destroy`. -/
def Destroying (c : Config) (s : State n) (k : Fin n) (name : String) : Prop :=
  s.lock = none ∧ (∃ token, s.pc k = .arrived (.destroyPipeline token name) ∧ ¬ c.Refuses token) ∧
    name ∈ s.registered ∧ (s.state name).active = false

/-- Everything one event can do. -/
inductive Move (c : Config) (s : State n) : Event n → State n → Prop where
  | hop {e k q} : Hop s e k q → Move c s e (s.goto k q)
  | counted {k name i} : s.lock = none → s.pc k = .starting name i →
      Move c s (.acquire k) { s.goto k (.inBackend name (.start i)) with
        numActivePipelines := s.numActivePipelines + 1 }
  | started {k name i} : s.pc k = .inBackend name (.start i) →
      Move c s (.returns k true) ((s.setState name ⟨true, i⟩).goto k .done)
  | uncounted {k} : s.lock = none → s.pc k = .startFailed →
      Move c s (.acquire k) { s.goto k .notifying with
        numActivePipelines := s.numActivePipelines - 1 }
  | deactivated {k name} (i : UInt64) : s.lock = none →
      s.pc k = .cleaned name ∨ s.pc k = .aborted name →
      Move c s (.acquire k) (s.deactivate k name i)
  | destroying {k name} : Destroying c s k name →
      Move c s (.acquire k) { s.goto k (.inBackend name .destroy) with
        lock := some k, destroyed := insert name s.destroyed }
  | destroyed {k name success} : s.pc k = .inBackend name .destroy →
      Move c s (.returns k success) { s.goto k .done with
        lock := none, registered := s.registered.erase name }
  | left {k} : s.lock = none → Leaving s k → s.numActivePipelines = 0 →
      Move c s (.acquire k) { s.goto k .done with
        groupLeaves := s.groupLeaves + 1, registered := ∅ }
  | notified {k} : s.pc k = .notifying → Move c s (.notify k) (s.notifyAll.goto k .done)

section Moves

variable {c : Config} {s t : State n} {k : Fin n}

theorem find_some {name : String} {st : PipelineFlags} (h : s.find name = some st) :
    name ∈ s.registered ∧ s.state name = st := by
  unfold State.find at h
  split at h
  · next hr => exact ⟨hr, Option.some.inj h⟩
  · cases h

theorem leave_move (hlock : s.lock = none) (hk : Leaving s k) : Move c s (.acquire k) (s.leave k) := by
  unfold State.leave
  split
  · next h0 => exact .hop (.waits hlock hk h0)
  · next h0 => exact .left hlock hk (by simpa using h0)

theorem onActive_move {h : Handler} {name : String} {i : UInt64} {call : Call}
    (hlock : s.lock = none) (hk : s.pc k = .arrived h) (ho : h.opens = some (name, i, call)) :
    Move c s (.acquire k) (s.onActive k name i call) := by
  unfold State.onActive
  split
  · exact .hop (.refused hk)
  · next st hf =>
    obtain ⟨hr, rfl⟩ := find_some hf
    split
    · exact .hop (.refused hk)
    · next ha =>
      split
      · exact .hop (.refused hk)
      · next hi =>
        exact .hop (.opened hlock hk ho hr (by simpa using ha) (by simpa using hi))

theorem enter_start_move {groupHash i : UInt64} {name : String}
    (hk : s.pc k = .arrived (.start groupHash name i))
    (he : s.enter c k (.start groupHash name i) = some t) : Move c s (.acquire k) t := by
  simp only [State.enter] at he
  split at he
  · cases he
    exact .hop (.refused hk)
  split at he
  · cases he
  next hlock =>
  split at he
  · cases he
    exact .hop (.refused hk)
  next st hf =>
  obtain ⟨hr, rfl⟩ := find_some hf
  split at he
  · cases he
    exact .hop (.refused hk)
  next ha =>
  split at he
  · cases he
    exact .hop (.refused hk)
  next hi =>
  cases he
  refine .hop (.starting (by simpa using hlock) hk hr (by simpa using ha) ?_)
  by_cases h0 : (s.state name).iteration = 0
  · exact Or.inl h0
  · exact Or.inr (UInt64.not_le.mp fun hle => hi ⟨h0, hle⟩)

theorem enter_destroyPipeline_move {token name : String}
    (hk : s.pc k = .arrived (.destroyPipeline token name))
    (he : s.enter c k (.destroyPipeline token name) = some t) : Move c s (.acquire k) t := by
  simp only [State.enter] at he
  split at he
  · cases he
    exact .hop (.refused hk)
  next ht =>
  split at he
  · cases he
  next hlock =>
  split at he
  · cases he
    exact .hop (.refused hk)
  next st hf =>
  obtain ⟨hr, rfl⟩ := find_some hf
  split at he
  · cases he
    exact .hop (.refused hk)
  next ha =>
  cases he
  exact .destroying ⟨by simpa using hlock, ⟨token, hk, ht⟩, hr, by simpa using ha⟩

theorem unlocked {o : State n} (h : (if s.lock ≠ none then none else some o) = some t) :
    s.lock = none ∧ o = t := by
  split at h
  · cases h
  · next hlock => exact ⟨by simpa using hlock, Option.some.inj h⟩

theorem enter_move {h : Handler} (hk : s.pc k = .arrived h) (he : s.enter c k h = some t) :
    Move c s (.acquire k) t := by
  cases h with
  | start groupHash name i => exact enter_start_move hk he
  | destroyPipeline token name => exact enter_destroyPipeline_move hk he
  | leave =>
    obtain ⟨hlock, rfl⟩ := unlocked he
    exact leave_move hlock (Or.inl hk)
  | stage name i =>
    obtain ⟨hlock, rfl⟩ := unlocked he
    exact onActive_move hlock hk rfl
  | execute name i auto =>
    obtain ⟨hlock, rfl⟩ := unlocked he
    exact onActive_move hlock hk rfl
  | cleanup name i =>
    obtain ⟨hlock, rfl⟩ := unlocked he
    exact onActive_move hlock hk rfl
  | abort name i =>
    obtain ⟨hlock, rfl⟩ := unlocked he
    exact onActive_move hlock hk rfl

theorem acquire_move (h : s.acquire c k = some t) : Move c s (.acquire k) t := by
  unfold State.acquire at h
  split at h
  · next hk => exact enter_move hk h
  · next hk =>
    obtain ⟨hlock, rfl⟩ := unlocked h
    exact .counted hlock hk
  · next hk =>
    obtain ⟨hlock, rfl⟩ := unlocked h
    exact .uncounted hlock hk
  · next hk =>
    obtain ⟨hlock, rfl⟩ := unlocked h
    exact .deactivated _ hlock (Or.inl hk)
  · next hk =>
    obtain ⟨hlock, rfl⟩ := unlocked h
    exact .deactivated _ hlock (Or.inr hk)
  · next hk =>
    obtain ⟨hlock, rfl⟩ := unlocked h
    exact leave_move hlock (Or.inr hk)
  · cases h

theorem returns_move {success : Bool} (h : s.returns k success = some t) :
    Move c s (.returns k success) t := by
  unfold State.returns at h
  split at h
  · next hk =>
    cases success with
    | true => cases h; exact .started hk
    | false => cases h; exact .hop (.startFailed hk)
  · next hk =>
    cases h
    exact .hop (.returned hk trivial (Or.inl rfl))
  · next auto hk =>
    split at h
    · next ha =>
      obtain ⟨rfl, rfl⟩ := Bool.and_eq_true_iff.mp ha
      cases h
      exact .hop (.autoCleanup hk)
    · cases h
      exact .hop (.returned hk trivial (Or.inl rfl))
  · next hk =>
    cases success with
    | true => cases h; exact .hop (.cleaned hk)
    | false =>
      simp only [Bool.false_eq_true, if_false] at h
      split at h
      · cases h
        exact .hop (.returned hk trivial (Or.inr rfl))
      · cases h
        exact .hop (.returned hk trivial (Or.inl rfl))
  · next hk =>
    cases h
    exact .hop (.aborted hk)
  · next hk =>
    cases h
    exact .destroyed hk
  · cases h

theorem step_move {e : Event n} (h : step c s e = some t) : Move c s e t := by
  cases e with
  | acquire k => exact acquire_move h
  | returns k success => exact returns_move h
  | notify k =>
    simp only [step] at h
    split at h
    · next hk => cases h; exact .notified hk
    · cases h
  | wake k =>
    simp only [step] at h
    split at h
    · next hk => cases h; exact .hop (.woken hk)
    · cases h

theorem next_cases (c : Config) (s : State n) (e : Event n) :
    next c s e = s ∨ Move c s e (next c s e) := by
  unfold next
  cases h : step c s e with
  | none => exact Or.inl rfl
  | some t => exact Or.inr (step_move h)

theorem next_of_step {e : Event n} (h : step c s e = some t) : next c s e = t := by
  unfold next
  rw [h]
  rfl

/-- The increment of a start that has passed its checks. -/
theorem next_starting (c : Config) {name : String} {i : UInt64} (hlock : s.lock = none)
    (hk : s.pc k = .starting name i) :
    next c s (.acquire k) = { s.goto k (.inBackend name (.start i)) with
      numActivePipelines := s.numActivePipelines + 1 } :=
  next_of_step (by simp [step, State.acquire, hk, hlock])

/-- `Backend::start` returns with success. -/
theorem next_inStart (c : Config) {name : String} {i : UInt64}
    (hk : s.pc k = .inBackend name (.start i)) :
    next c s (.returns k true) = (s.setState name ⟨true, i⟩).goto k .done :=
  next_of_step (by simp [step, State.returns, hk])

end Moves

end ProviderInterleaving
