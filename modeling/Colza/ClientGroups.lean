import Colza.DistributedStart
import Colza.GuardedRuns
import Colza.OpenIterations
import Colza.ProviderRuns

/-!
# Groups of clients on the same servers

The root ranks of any number of client groups run `DistributedPipelineHandle::start` at the
same time. A request or its reply is in flight between a root and a server until it is
delivered, in any order. The other ranks of a group only take part in its collectives, and
can only delay their root. An abort names a pipeline and an iteration, not its sender.
-/
namespace ClientGroups

open GuardedRuns Interfaces ProviderHandlers OpenIterations DistributedStart

variable {γ σ β : Type}

/-- Where the root of a group is. -/
inductive Phase (σ : Type) where
  | idle
  | starting (iteration : UInt64) (servers : List σ)
  | aborting (iteration : UInt64) (servers : List σ) (exit : Exit)
  | refreshing (iteration : UInt64)

/-- What is in flight between a root and a server. -/
inductive Channel where
  | quiet
  | request (r : Request)
  | reply (result : RequestResult Int32)
  deriving DecidableEq

/-- `held` is not part of the program: it is the iteration that a start of the group has
opened on a server and that the group has not closed since. -/
structure State (γ σ β : Type) where
  server : σ → Provider β
  phase : γ → Phase σ
  channel : γ → σ → Channel
  held : γ → σ → Option UInt64

inductive Event (γ σ : Type) where
  | start (g : γ) (iteration : UInt64) (servers : List σ) (groupHash : UInt64)
  | process (g : γ) (v : σ)
  | decide (g : γ)
  | finish (g : γ)
  | giveUp (g : γ)
  | cleanup (g : γ) (v : σ)
  | changeView (v : σ) (groupHash : UInt64)

/-- The group whose root or whose request makes the step. -/
def Event.group : Event γ σ → Option γ
  | .start g _ _ _ | .process g _ | .decide g | .finish g | .giveUp g | .cleanup g _ => some g
  | .changeView _ _ => none

/-- The call begins, or its refresh is done. -/
inductive MayStart : Phase σ → UInt64 → Prop where
  | first (i) : MayStart .idle i
  | again (i) : MayStart (.refreshing i) i

/-- Where an attempt ends: a refresh comes before the next one. -/
def afterAttempt (iteration : UInt64) : Exit → Phase σ
  | .retry => .refreshing iteration
  | .returned | .threw _ => .idle

/-- What a group holds on a server after the reply to its request. -/
def holdAfter (held : Option UInt64) (result : RequestResult Int32) : Request → Option UInt64
  | .start _ _ i => if result.success then some i else held
  | .abort _ _ | .cleanup _ _ => if result.success then none else held
  | _ => held

section Steps

variable [DecidableEq γ] [DecidableEq σ]

def State.goto (s : State γ σ β) (g : γ) (phase : Phase σ) (channel : σ → Channel) : State γ σ β :=
  { s with phase := Function.update s.phase g phase
           channel := Function.update s.channel g channel }

/-- The same request is sent to each of these servers. The loop that sends is one step:
a request that is not sent yet is one that is not delivered yet. -/
def post (servers : List σ) (r : Request) (v : σ) : Channel :=
  if v ∈ servers then .request r else .quiet

/-- A server has processed a request of the group. -/
def State.serve (s : State γ σ β) (g : γ) (v : σ) (r : Request) (t : Provider β)
    (result : RequestResult Int32) : State γ σ β :=
  { s with
    server := Function.update s.server v t
    held := Function.update s.held g
      (Function.update (s.held g) v (holdAfter (s.held g v) result r)) }

def State.answer (s : State γ σ β) (g : γ) (v : σ) (result : RequestResult Int32) : State γ σ β :=
  { s with
    channel := Function.update s.channel g (Function.update (s.channel g) v (.reply result)) }

variable (env : σ → Environment β) (name : γ → String)

/-- A group that holds a server may clean up there when it is out of `start`, with a
blocking RPC. The group hash of a server changes at any time. -/
inductive Step (s : State γ σ β) : Event γ σ → State γ σ β → Prop where
  | start {g i} (servers : List σ) (groupHash : UInt64) : MayStart (s.phase g) i →
      servers.Nodup → Step s (.start g i servers groupHash)
        (s.goto g (.starting i servers) (post servers (.start groupHash (name g) i)))
  | process {g v r result} : s.channel g v = .request r →
      (process (env v) (s.server v) r).reply = some result → Step s (.process g v)
        ((s.serve g v r (process (env v) (s.server v) r).provider result).answer g v result)
  | decide {g i servers} (replies : σ → RequestResult Int32) :
      s.phase g = .starting i servers → (∀ v ∈ servers, s.channel g v = .reply (replies v)) →
      Step s (.decide g)
        (let a := runAttempt (fun v => .reply (replies v)) (fun _ => .reply {}) servers
         s.goto g (.aborting i a.aborted a.exit) (post a.aborted (.abort (name g) i)))
  | finish {g i servers exit} : s.phase g = .aborting i servers exit →
      (∀ v ∈ servers, ∃ result, s.channel g v = .reply result) →
      Step s (.finish g) (s.goto g (afterAttempt i exit) fun _ => .quiet)
  | giveUp {g i} : s.phase g = .refreshing i → Step s (.giveUp g) (s.goto g .idle fun _ => .quiet)
  | cleanup {g v i result} : s.phase g = .idle → s.held g v = some i →
      (process (env v) (s.server v) (.cleanup (name g) i)).reply = some result →
      Step s (.cleanup g v) (s.serve g v (.cleanup (name g) i)
        (process (env v) (s.server v) (.cleanup (name g) i)).provider result)
  | changeView (v : σ) (groupHash : UInt64) : Step s (.changeView v groupHash)
      { s with server := Function.update s.server v { s.server v with groupHash := groupHash } }

end Steps

/-- No group is in a call. The servers may be in any state. -/
structure Fresh (s : State γ σ β) : Prop where
  phase : ∀ g, s.phase g = .idle
  channel : ∀ g v, s.channel g v = .quiet
  held : ∀ g v, s.held g v = none

/-- An abort reaches the iteration that its sender has opened, what a group holds is open,
and a pipeline of a server is held by one group at most. -/
structure Safe (name : γ → String) (s : State γ σ β) : Prop where
  aborts : ∀ g v n i, s.channel g v = .request (.abort n i) →
    n = name g ∧ s.held g v = some i ∧ ActiveAt (s.server v) n i
  activations : ∀ g v i, s.held g v = some i → ActiveAt (s.server v) (name g) i
  exclusive : ∀ g g' v i j, name g = name g' → s.held g v = some i → s.held g' v = some j → g = g'

/-! ## What the groups hold -/

/-- What a group holds is open, and two groups with one pipeline do not hold one server. -/
structure Owned (name : γ → String) (server : σ → Provider β) (held : γ → σ → Option UInt64) :
    Prop where
  active : ∀ {g v i}, held g v = some i → ActiveAt (server v) (name g) i
  unique : ∀ {g g' v i j}, name g = name g' → held g v = some i → held g' v = some j → g = g'

/-- What may be in flight between the root of a group and one server. -/
inductive InFlight (name : String) (held : Option UInt64) : Phase σ → Channel → Prop where
  | quiet {phase} : InFlight name held phase .quiet
  | start {i servers} (groupHash : UInt64) :
      InFlight name held (.starting i servers) (.request (.start groupHash name i))
  | started {i servers result} : (result.success = true → held = some i) →
      InFlight name held (.starting i servers) (.reply result)
  | abort {i servers exit} : held = some i →
      InFlight name held (.aborting i servers exit) (.request (.abort name i))
  | aborted {i servers exit result} : InFlight name held (.aborting i servers exit) (.reply result)

structure Invariant (name : γ → String) (s : State γ σ β) : Prop where
  owned : Owned name s.server s.held
  inFlight : ∀ g v, InFlight (name g) (s.held g v) (s.phase g) (s.channel g v)

variable {name : γ → String} {s t : State γ σ β} {e : Event γ σ}

theorem Fresh.invariant (h : Fresh s) : Invariant name s := by
  constructor
  · constructor
    · intro g v i hi
      rw [h.held] at hi
      cases hi
    · intro g g' v i j _ hi
      rw [h.held] at hi
      cases hi
  · intro g v
    rw [h.channel]
    exact .quiet

theorem Invariant.safe (h : Invariant name s) : Safe name s := by
  refine ⟨?_, fun g v i => h.owned.active, fun g g' v i j => h.owned.unique⟩
  intro g v n i hc
  have hf := h.inFlight g v
  rw [hc] at hf
  generalize s.phase g = phase at hf
  cases hf with
  | abort hi => exact ⟨rfl, hi, h.owned.active hi⟩

theorem Owned.mono_server {server server' : σ → Provider β} {held : γ → σ → Option UInt64}
    (h : Owned name server held)
    (hs : ∀ v n i, ActiveAt (server v) n i → ActiveAt (server' v) n i) :
    Owned name server' held :=
  ⟨fun hi => hs _ _ _ (h.active hi), h.unique⟩

/-- A group has gone on to another phase, and all that was in flight has arrived. -/
theorem Invariant.goto [DecidableEq γ] {g : γ} (h : Invariant name s) {phase : Phase σ}
    {channel : σ → Channel}
    (hc : ∀ v, InFlight (name g) (s.held g v) phase (channel v)) :
    Invariant name (s.goto g phase channel) := by
  refine ⟨h.owned, fun g' v => ?_⟩
  by_cases hg : g' = g
  · subst hg
    simp only [State.goto, Function.update_self]
    exact hc v
  · simp only [State.goto, Function.update_of_ne hg]
    exact h.inFlight g' v

/-- Aborts go to servers that have accepted. -/
theorem accepted_of_aborted {start abort : σ → ClientHandles.Rpc} {xs : List σ} {v : σ}
    (h : v ∈ (runAttempt start abort xs).aborted) : v ∈ xs ∧ accepted (start v) = true := by
  have ho := runAttempt_outcome start abort xs
  generalize runAttempt start abort xs = a at ho h
  cases ho with
  | threw e _ => cases h
  | accepted _ => cases h
  | refused exit _ _ _ =>
    have hv := List.mem_filter.mp (List.mem_filter.mp h).1
    exact ⟨hv.1, hv.2⟩

section Steps

variable [DecidableEq γ] [DecidableEq σ] {env : σ → Environment β} {g : γ} {v : σ} {r : Request}
  {u : Provider β} {result : RequestResult Int32}

theorem serve_server_self : (s.serve g v r u result).server v = u := Function.update_self ..

theorem serve_server_of_ne {v' : σ} (hv : v' ≠ v) :
    (s.serve g v r u result).server v' = s.server v' := Function.update_of_ne hv ..

theorem serve_held_self : (s.serve g v r u result).held g v = holdAfter (s.held g v) result r := by
  simp [State.serve]

theorem serve_held_of_ne {g' : γ} {v' : σ} (hne : g' ≠ g ∨ v' ≠ v) :
    (s.serve g v r u result).held g' v' = s.held g' v' := by
  by_cases hg : g' = g
  · subst hg
    have hv : v' ≠ v := hne.resolve_left fun hne => hne rfl
    simp [State.serve, hv]
  · simp [State.serve, hg]

/-- A server has served one group. It must keep what the others hold, and must not give
the group what another one holds. -/
theorem Owned.serve (h : Owned name s.server s.held)
    (hothers : ∀ g' i, g' ≠ g → s.held g' v = some i → ActiveAt u (name g') i)
    (hself : ∀ i, holdAfter (s.held g v) result r = some i → ActiveAt u (name g) i ∧
      ∀ g' j, name g' = name g → s.held g' v = some j → g' = g) :
    Owned name (s.serve g v r u result).server (s.serve g v r u result).held := by
  constructor
  · intro g' v' i hi
    by_cases hv : v' = v
    · subst hv
      rw [serve_server_self]
      by_cases hg : g' = g
      · subst hg
        rw [serve_held_self] at hi
        exact (hself i hi).1
      · rw [serve_held_of_ne (Or.inl hg)] at hi
        exact hothers g' i hg hi
    · rw [serve_server_of_ne hv]
      rw [serve_held_of_ne (Or.inr hv)] at hi
      exact h.active hi
  · intro g₁ g₂ v' i j hname hi hj
    by_cases hv : v' = v
    · subst hv
      by_contra hne
      by_cases h₁ : g₁ = g
      · subst h₁
        rw [serve_held_self] at hi
        rw [serve_held_of_ne (Or.inl (Ne.symm hne))] at hj
        exact hne ((hself i hi).2 g₂ j hname.symm hj).symm
      · rw [serve_held_of_ne (Or.inl h₁)] at hi
        by_cases h₂ : g₂ = g
        · subst h₂
          rw [serve_held_self] at hj
          exact hne ((hself j hj).2 g₁ i hname hi)
        · rw [serve_held_of_ne (Or.inl h₂)] at hj
          exact hne (h.unique hname hi hj)
    · rw [serve_held_of_ne (Or.inr hv)] at hi hj
      exact h.unique hname hi hj

theorem succeeded_of_reply {o : ProviderHandlers.Outcome β} (hr : o.reply = some result)
    (hs : result.success = true) : o.succeeded := ⟨result, hr, hs⟩

/-- An accepted start opens a pipeline that nobody holds. -/
theorem Owned.start (h : Owned name s.server s.held) {groupHash i : UInt64}
    (hr : (start (env v) (s.server v) groupHash (name g) i).reply = some result) :
    Owned name
      (s.serve g v (.start groupHash (name g) i)
        (start (env v) (s.server v) groupHash (name g) i).provider result).server
      (s.serve g v (.start groupHash (name g) i)
        (start (env v) (s.server v) groupHash (name g) i).provider result).held := by
  apply h.serve
  · intro g' j _ hj
    exact (h.active hj).start ..
  · intro j hj
    cases hs : result.success with
    | false =>
      simp only [holdAfter, hs, Bool.false_eq_true, if_false] at hj
      refine ⟨(h.active hj).start .., fun g' k hname hk => h.unique hname hk hj⟩
    | true =>
      simp only [holdAfter, hs, if_true, Option.some.injEq] at hj
      subst hj
      have hacc := start_succeeded.mp (succeeded_of_reply hr hs)
      refine ⟨(activeAt_start hacc).2, fun g' k hname hk => ?_⟩
      obtain ⟨-, st, hl, ha, -⟩ := hacc
      exact (not_activeAt_of_inactiveAt ⟨st, hl, ha, rfl⟩ (hname ▸ h.active hk)).elim

/-- The abort of a group closes what the group holds. -/
theorem Owned.abort (h : Owned name s.server s.held) {i : UInt64} (hi : s.held g v = some i)
    (hr : (abort (env v) (s.server v) (name g) i).reply = some result) :
    Owned name
      (s.serve g v (.abort (name g) i)
        (abort (env v) (s.server v) (name g) i).provider result).server
      (s.serve g v (.abort (name g) i)
        (abort (env v) (s.server v) (name g) i).provider result).held := by
  rw [abort_succeeded (h.active hi)] at hr
  cases hr
  apply h.serve
  · intro g' j hg hj
    exact (h.active hj).abort_other (fun hname => hg (h.unique hname hj hi)) i
  · intro j hj
    cases hj

theorem Owned.cleanup (h : Owned name s.server s.held) {i : UInt64} (hi : s.held g v = some i)
    (hr : (cleanup (env v) (s.server v) (name g) i).reply = some result) :
    Owned name
      (s.serve g v (.cleanup (name g) i)
        (cleanup (env v) (s.server v) (name g) i).provider result).server
      (s.serve g v (.cleanup (name g) i)
        (cleanup (env v) (s.server v) (name g) i).provider result).held := by
  apply h.serve
  · intro g' j hg hj
    exact (h.active hj).cleanup_other (fun hname => hg (h.unique hname hj hi)) i
  · intro j hj
    cases hs : result.success with
    | true =>
      simp only [holdAfter, hs, if_true] at hj
      cases hj
    | false =>
      simp only [holdAfter, hs, Bool.false_eq_true, if_false] at hj
      obtain rfl : i = j := Option.some.inj (hi.symm.trans hj)
      exact ⟨cleanup_failed (h.active hi) hr hs, fun g' k hname hk => h.unique hname hk hi⟩

/-! ## What is in flight -/

theorem inFlight_post {held : σ → Option UInt64} {n : String} {phase : Phase σ} {servers : List σ}
    (hr : ∀ v ∈ servers, InFlight n (held v) phase (.request r)) (v : σ) :
    InFlight n (held v) phase (post servers r v) := by
  unfold post
  split
  · next hv => exact hr v hv
  · exact .quiet

/-- A request is answered. -/
theorem Invariant.answer (h : Invariant name s)
    (ho : Owned name (s.serve g v r u result).server (s.serve g v r u result).held)
    (hc : InFlight (name g) (holdAfter (s.held g v) result r) (s.phase g) (.reply result)) :
    Invariant name ((s.serve g v r u result).answer g v result) := by
  refine ⟨ho, fun g' v' => ?_⟩
  change InFlight (name g') ((s.serve g v r u result).held g' v') (s.phase g') _
  by_cases hg : g' = g
  · subst hg
    by_cases hv : v' = v
    · subst hv
      rw [serve_held_self]
      simpa [State.answer] using hc
    · rw [serve_held_of_ne (Or.inr hv)]
      simpa [State.answer, State.serve, hv] using h.inFlight g' v'
  · rw [serve_held_of_ne (Or.inl hg)]
    simpa [State.answer, State.serve, hg] using h.inFlight g' v'

theorem invariant_step (h : Invariant name s) (hs : Step env name s e t) : Invariant name t := by
  cases hs with
  | @start g i servers groupHash _ _ =>
    apply h.goto
    apply inFlight_post
    intro v _
    exact .start groupHash
  | @process g v r result hc hr =>
    have hf := h.inFlight g v
    rw [hc] at hf
    apply h.answer
    · generalize s.phase g = phase at hf
      cases hf with
      | start groupHash => exact h.owned.start hr
      | abort hi => exact h.owned.abort hi hr
    · generalize s.phase g = phase at hf
      cases hf with
      | start groupHash => exact .started fun hs => by simp [holdAfter, hs]
      | abort _ => exact .aborted
  | @decide g i servers replies hphase hreplies =>
    apply h.goto
    apply inFlight_post
    intro v hv
    obtain ⟨hmem, hacc⟩ := accepted_of_aborted hv
    have hf := h.inFlight g v
    rw [hreplies v hmem, hphase] at hf
    cases hf with
    | started hheld => exact .abort (hheld hacc)
  | finish _ _ =>
    apply h.goto
    intro v
    exact .quiet
  | giveUp _ =>
    apply h.goto
    intro v
    exact .quiet
  | @cleanup g v i result hphase hi hr =>
    refine ⟨h.owned.cleanup hi hr, fun g' v' => ?_⟩
    by_cases hg : g' = g
    · subst hg
      -- nothing is in flight between an idle group and a server
      have hf := h.inFlight g' v'
      rw [hphase] at hf
      change InFlight (name g') _ (s.phase g') (s.channel g' v')
      generalize s.channel g' v' = channel at hf
      cases hf with
      | quiet => exact .quiet
    · rw [serve_held_of_ne (Or.inl hg)]
      exact h.inFlight g' v'
  | changeView v groupHash =>
    refine ⟨h.owned.mono_server fun v' n i ha => ?_, h.inFlight⟩
    by_cases hv : v' = v
    · subst hv
      simp only [Function.update_self]
      exact ha.congr rfl
    · simp only [Function.update_of_ne hv]
      exact ha

/-- Only its own requests change what a group holds. -/
theorem held_of_other (hs : Step env name s e t) (he : e.group ≠ some g) : t.held g = s.held g := by
  cases hs with
  | process _ _ =>
    have hg : g ≠ _ := fun hg => he (congrArg some hg.symm)
    exact Function.update_of_ne hg ..
  | cleanup _ _ _ =>
    have hg : g ≠ _ := fun hg => he (congrArg some hg.symm)
    exact Function.update_of_ne hg ..
  | _ => rfl

end Steps

/-- For any groups, servers and states of the servers, and in every order of delivery. The
step of another group closes nothing that a group holds. -/
theorem aborts_own_activation [DecidableEq γ] [DecidableEq σ] (env : σ → Environment β)
    (name : γ → String) (hs : Fresh s) (h : Reaches (Step env name) s t) :
    Safe name t ∧ ∀ e u, Step env name t e u → ∀ g v i, e.group ≠ some g → t.held g v = some i →
      u.held g v = some i ∧ ActiveAt (u.server v) (name g) i := by
  have hinv : Invariant name t := h.invariant (fun _ _ _ => invariant_step) hs.invariant
  refine ⟨hinv.safe, fun e u hu g v i he hi => ?_⟩
  have hi' : u.held g v = some i := by
    rw [held_of_other hu he]
    exact hi
  exact ⟨hi', (invariant_step hinv hu).owned.active hi'⟩

/-! Group `false` opens iteration 1 on server `false`. Group `true` starts the same iteration
on both servers, is refused by that server, and aborts on the other one. -/

def twoGroups : State Bool Bool Unit :=
  ⟨fun _ => ProviderRuns.freshProvider, fun _ => .idle, fun _ _ => .quiet, fun _ _ => none⟩

def accepting (_ : Bool) : Environment Unit := ProviderRuns.acceptingEnvironment

def samePipeline (_ : Bool) : String := "p"

def alreadyActive : RequestResult Int32 :=
  .failure .pipelineIsActive "Pipeline is already active"

theorem abort_spares_other_group :
    ∃ t, Reaches (Step accepting samePipeline) twoGroups t ∧
      t.channel true true = .request (.abort "p" 1) ∧ ActiveAt (t.server true) "p" 1 ∧
      t.held false false = some 1 ∧ ActiveAt (t.server false) "p" 1 := by
  have h : Reaches (Step accepting samePipeline) twoGroups twoGroups := .refl
  have h := h.snoc (.start (g := false) (i := 1) [false] 0 (.first 1) (by decide))
  have h := h.snoc (.process (g := false) (v := false) rfl rfl)
  have h := h.snoc (.start (g := true) (i := 1) [true, false] 0 (.first 1) (by decide))
  have h := h.snoc (.process (g := true) (v := true) rfl rfl)
  have h := h.snoc (.process (g := true) (v := false) rfl rfl)
  have h := h.snoc (.decide (g := true) (fun v => if v then {} else alreadyActive) rfl (by decide))
  have hsafe := (aborts_own_activation _ _ ⟨fun _ => rfl, fun _ _ => rfl, fun _ _ => rfl⟩ h).1
  have hactive := (hsafe.aborts true true "p" 1 rfl).2.2
  exact ⟨_, h, rfl, hactive, rfl, hsafe.activations false false 1 rfl⟩

end ClientGroups
