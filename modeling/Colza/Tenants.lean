import Colza.ElasticStaging
import Colza.PipelineIsolation

/-!
# Clients with pipelines of their own on one group of servers

Every client has a handle on its own pipeline of the same servers, and the servers join the
group for all of them. Whatever the order of their calls, each client meets one store, which
only its own calls change.
-/
namespace Tenants

open Interfaces ProviderHandlers ClientHandles DistributedStart ServedStart ServedAttempts
open StagedBlocks StagingServers ElasticStaging GuardedRuns ObservedRuns PipelineIsolation

/-! ## What a call leaves as it is -/

section Frame

variable {w w' : Servers Datasets} {view : View} {name : String} {i : UInt64}
  {h : DistributedPipelineHandle}

theorem Within.trans {s t u : Provider Datasets} (h : Within name s t) (h' : Within name t u) :
    Within name s u where
  token := h'.token.trans h.token
  groupHash := h'.groupHash.trans h.groupHash
  addresses := h'.addresses.trans h.addresses
  groupLeaves := h'.groupLeaves.trans h.groupLeaves
  others other hne := (h'.others other hne).trans (h.others other hne)

/-- The requests that the calls of a client on this pipeline send. -/
def IsCall (name : String) : Request → Prop
  | .start _ other _ | .stage other _ _ | .execute other _ _ | .cleanup other _ |
    .abort other _ => other = name
  | .createPipeline .. | .destroyPipeline .. | .checkPipeline _ | .leave => False

/-- A provider after requests of a client on this pipeline. -/
def Calling (name : String) : Provider Datasets → Provider Datasets → Prop :=
  Reaches fun s (e : ProviderRuns.Event Datasets) t => IsCall name e.2 ∧ t = ProviderRuns.next s e

theorem Calling.one {s : Provider Datasets} (env : Environment Datasets) {r : Request}
    (hr : IsCall name r) : Calling name s (process env s r).provider :=
  .single ⟨(env, r), hr, rfl⟩

theorem Calling.within {s t : Provider Datasets} (h : Calling name s t) : Within name s t := by
  refine h.invariant (P := fun t => Within name s t) (fun t e u ht hstep => ?_) (.refl name s)
  obtain ⟨hr, rfl⟩ := hstep
  refine Within.trans ht (process_within e.1 t ?_)
  generalize e.2 = r at hr
  cases r with
  | start | stage | execute | cleanup | abort =>
    cases hr
    rfl
  | createPipeline | destroyPipeline | checkPipeline | leave => cases hr

/-- Every server has been called on this pipeline only. -/
def Called (name : String) (w w' : Servers Datasets) : Prop := ∀ v, Calling name (w v) (w' v)

theorem Called.trans {u : Servers Datasets} (h : Called name w w') (h' : Called name w' u) :
    Called name w u := fun v => (h v).trans (h' v)

theorem called_updateAll {α : Type} (key : α → Address × UInt16)
    (f : α → Provider Datasets → Provider Datasets) {l : List α}
    (hf : ∀ x ∈ l, ∀ t, Calling name t (f x t)) (w : Servers Datasets) :
    Called name w (updateAll key f l w) := by
  induction l generalizing w with
  | nil => exact fun v => .refl
  | cons x l ih =>
    have hfirst : Called name w (Function.update w (key x) (f x (w (key x)))) := by
      intro v
      by_cases hv : v = key x
      · rw [hv, Function.update_self]
        exact hf x (List.mem_cons_self ..) _
      · rw [Function.update_of_ne hv]
        exact .refl
    exact hfirst.trans (ih (fun y hy => hf y (List.mem_cons_of_mem _ hy)) _)

theorem called_afterAttempt (hon : OnView view h) (w : Servers Datasets) :
    Called h.name w (afterAttempt idleEnvironment view w h i) := by
  have hname : ∀ q ∈ servers h, q.1.name = h.name := fun q hq =>
    name_of_mem_handles (hon.members q.1 (mem_pipelines hq))
  have hstart : ∀ q ∈ servers h, ∀ t : Provider Datasets,
      Calling h.name t (start idleEnvironment t h.groupHash q.1.name i).provider :=
    fun q hq t => .one idleEnvironment (r := .start h.groupHash q.1.name i) (hname q hq)
  have habort : ∀ q ∈ servers h, ∀ t : Provider Datasets,
      Calling h.name t (abort idleEnvironment t q.1.name i).provider :=
    fun q hq t => .one idleEnvironment (r := .abort q.1.name i) (hname q hq)
  have hstarted := called_updateAll (fun q : PipelineHandle × ℕ => endpoint q.1)
    (fun q t => (start idleEnvironment t h.groupHash q.1.name i).provider) hstart w
  unfold afterAttempt
  rcases attempt_served idleEnvironment view w h i with ⟨-, ha⟩ | ⟨-, ha⟩
  · rw [ha]
    exact hstarted
  · rw [ha]
    refine hstarted.trans (called_updateAll _ _ (fun q hq => ?_) _)
    exact habort q (List.mem_of_mem_filter hq)

end Frame

section Calls

variable {s t : Service} {a : Store} {i : UInt64} {r : Bool}

/-- A call of the client changes its own pipeline only. -/
structure Own (s t : Service) : Prop where
  view : t.view = s.view
  name : t.handle.name = s.handle.name
  server : Called s.handle.name s.server t.server

theorem start_own {fuel : ℕ} (hd : Distinct s.view) (hon : OnView s.view s.handle)
    (h : s.start fuel i = some (t, r)) : Own s t := by
  induction fuel generalizing s with
  | zero => cases h
  | succ fuel ih =>
    have hcalled : Called s.handle.name s.server
        (afterAttempt idleEnvironment s.view s.server s.handle i) :=
      called_afterAttempt hon s.server
    have hdone : Own s { s with
        server := afterAttempt idleEnvironment s.view s.server s.handle i } :=
      ⟨rfl, rfl, hcalled⟩
    unfold Service.start at h
    dsimp only at h
    split at h
    · obtain ⟨h', hr, hname, hid, -, hpipelines, -⟩ := refresh_result hd
        (fun _ => servedBy idleEnvironment s.view
          (afterAttempt idleEnvironment s.view s.server s.handle i)) s.handle 0 rfl
      rw [hr] at h
      have hon' : OnView s.view h' := by
        refine ⟨?_, ?_⟩
        · rw [hpipelines]
          exact handles_nodup hd s.handle.providerId s.handle.name
        · rw [hpipelines, hname, hid]
          exact fun p hp => hp
      obtain ⟨hview, hname', hserver⟩ := ih (s := { s with
        server := afterAttempt idleEnvironment s.view s.server s.handle i, handle := h' }) hd hon' h
      change Called h'.name _ _ at hserver
      rw [hname] at hserver
      exact ⟨hview, hname'.trans hname, hcalled.trans hserver⟩
    · obtain rfl := congrArg Prod.fst (Option.some.inj h)
      exact hdone
    · obtain rfl := congrArg Prod.fst (Option.some.inj h)
      exact hdone

theorem ask_own (hon : OnView s.view s.handle)
    (request : PipelineHandle → Provider Datasets → Outcome Datasets)
    (hrequest : ∀ p, p.name = s.handle.name → ∀ t, Calling s.handle.name t (request p t).provider) :
    Own s (s.ask request).1 := by
  refine ⟨rfl, rfl, called_updateAll _ _ (fun p hp => ?_) _⟩
  exact hrequest p (name_of_mem_handles (hon.members p hp))

def isGrow : ElasticStaging.Event → Bool
  | .grow _ _ => true
  | _ => false

theorem serve_own {fuel : ℕ} {e : ElasticStaging.Event} (h : Represents s a)
    (he : isGrow e = false) (hs : s.serve fuel e = some (t, r)) : Own s t := by
  cases e with
  | start i => exact start_own h.distinct h.onView hs
  | stage i args pulled =>
    obtain rfl : (s.stage i args pulled).1 = t := congrArg Prod.fst (Option.some.inj hs)
    obtain ⟨p, hp, htarget⟩ := h.stage_target args i
    unfold Service.stage
    rw [htarget]
    refine ⟨rfl, rfl, fun v => ?_⟩
    change Calling _ (s.server v) (Function.update s.server (endpoint p) _ v)
    by_cases hv : v = endpoint p
    · rw [hv, Function.update_self]
      exact .one (dummyEnvironment (transfer pulled)) (r := .stage p.name i args) (h.name_eq hp)
    · rw [Function.update_of_ne hv]
      exact .refl
  | execute i autoCleanup =>
    obtain rfl : (s.execute i autoCleanup).1 = t := congrArg Prod.fst (Option.some.inj hs)
    exact ask_own h.onView _ fun p hp u =>
      .one idleEnvironment (r := .execute p.name i autoCleanup) hp
  | cleanup i =>
    obtain rfl : (s.cleanup i).1 = t := congrArg Prod.fst (Option.some.inj hs)
    exact ask_own h.onView _ fun p hp u => .one idleEnvironment (r := .cleanup p.name i) hp
  | grow view newcomers => cases he

theorem Keeps.within {u v : Provider Datasets} {name other : String} {active : Bool} {j : UInt64}
    {blocks : Blocks} (h : Keeps u name active j blocks) (hw : Within other u v)
    (hne : name ≠ other) : Keeps v name active j blocks := by
  obtain ⟨st, hl, hst⟩ := h
  exact ⟨st, (hw.others name hne).trans hl, hst⟩

end Calls

/-! ## The clients -/

/-- The servers of one group, and the handle of each client. -/
structure Tenancy (κ : Type) where
  providerId : UInt16
  view : View
  handle : κ → DistributedPipelineHandle
  server : Servers Datasets

inductive Event (κ : Type) where
  | call (client : κ) (e : ElasticStaging.Event)
  | grow (view : View) (newcomers : Servers Datasets)

section Clients

variable {κ : Type} [DecidableEq κ]

namespace Tenancy

/-- The servers as a client meets them. -/
def service (s : Tenancy κ) (c : κ) : Service := ⟨s.view, s.handle c, s.server⟩

def members (s : Tenancy κ) : List (Address × UInt16) := s.view.map fun m => (m.2, s.providerId)

def grow (s : Tenancy κ) (view : View) (newcomers : Servers Datasets) : Tenancy κ :=
  { s with
    view := view
    server := fun v =>
      { (if s.members.contains v then s.server v else newcomers v) with
        groupHash := hashOf view } }

def serve (fuel : ℕ) (s : Tenancy κ) : Event κ → Option (Tenancy κ × Bool)
  | .call c e => do
    let (t, r) ← (s.service c).serve fuel e
    return ({ s with handle := Function.update s.handle c t.handle, server := t.server }, r)
  | .grow view newcomers => some (s.grow view newcomers, true)

end Tenancy

/-- A call is performed on the store of its client. -/
def perform (a : κ → Store) : Event κ → (κ → Store) × Bool
  | .call c e => (Function.update a c ((a c).perform e).1, ((a c).perform e).2)
  | .grow view newcomers => (fun c => ((a c).perform (.grow view newcomers)).1, true)

def Allowed (a : κ → Store) : Event κ → Prop
  | .call c e => isGrow e = false ∧ ElasticStaging.Allowed (a c) e
  | .grow view newcomers => ∀ c, ElasticStaging.Allowed (a c) (.grow view newcomers)

/-- What a client notices of an event. -/
def noticed (c : κ) : Event κ → Option ElasticStaging.Event
  | .call d e => if d = c then some e else none
  | .grow view newcomers => some (.grow view newcomers)

theorem perform_named (a : Store) (e : ElasticStaging.Event) :
    (a.perform e).1.name = a.name ∧ (a.perform e).1.providerId = a.providerId := by
  cases e with
  | start i => constructor <;> (simp only [Store.perform]; split <;> rfl)
  | stage i args pulled =>
    cases pulled <;> constructor <;> (simp only [Store.perform]; split <;> rfl)
  | execute i autoCleanup =>
    cases autoCleanup <;> constructor <;> (simp only [Store.perform]; split <;> rfl)
  | cleanup i => constructor <;> (simp only [Store.perform]; split <;> rfl)
  | grow view newcomers => exact ⟨rfl, rfl⟩

/-- Each client has a handle on a pipeline of its own, new on every member. -/
structure Fresh (s : Tenancy κ) : Prop where
  services : ∀ c, ElasticStaging.Fresh (s.service c)
  names : ∀ c d, c ≠ d → (s.handle c).name ≠ (s.handle d).name
  providerId : ∀ c, (s.handle c).providerId = s.providerId

end Clients

/-! Two clients on one member, which another one joins when both have cleaned up. -/

end Tenants
