import Colza.MemberOperations
import Colza.RefusedRequests
import Colza.Tenants

/-!
# Pipelines from their creation to their destruction

Admin creates a pipeline on all members of a group, a client makes a handle on it and makes its
calls while servers join the group, and Admin destroys the pipeline. Each client meets a store of
its own, and the group can be used again.
-/
namespace Deployments

open Interfaces ProviderHandlers ClientHandles ServedStart AdminThreads MemberOperations
open StagedBlocks StagingServers ElasticStaging GuardedRuns ObservedRuns PipelineIsolation Tenants

/-! ## Sessions on a group -/

/-- The members of a group and all servers. -/
structure Site where
  view : View
  server : Servers Datasets

/-- The arguments of the creation, and the calls of the client. -/
structure Session where
  ssgFile : String
  name : String
  type : String
  config : String
  library : String
  events : List ElasticStaging.Event

/-- A client whose checks are answered by the servers. -/
def checkedBy (view : View) (w : Servers Datasets) : ClientEnv :=
  { ClientEnv.ofView view with
    checkPipeline := fun p =>
      .reply ((ProviderHandlers.checkPipeline (w (endpoint p)) p.name).reply.getD {}) }

/-- What the members of a group may be asked to do by someone with this token. -/
structure Ready (token : String) (providerId : UInt16) (site : Site) : Prop where
  distinct : Distinct site.view
  nonempty : site.view ≠ []
  members : ∀ m ∈ site.view, (site.server (m.2, providerId)).groupHash = hashOf site.view ∧
    ¬ badToken (site.server (m.2, providerId)) token

/-- Between two sessions, or in one of them: Admin creates the pipeline, the client makes its
calls with these results so far, and Admin destroys the pipeline. -/
inductive Place where
  | idle (site : Site)
  | creating (view : View) (o : Operating Datasets view.length)
  | serving (s : Service) (todo : List ElasticStaging.Event) (results : List Bool)
  | destroying (view : View) (o : Operating Datasets view.length) (results : List Bool)

/-- The sessions that are not over, the current one first, and the results of the others. -/
structure Deployment where
  place : Place
  sessions : List Session
  results : List (List Bool)

inductive Event where
  | begin
  | create
  | makeHandle
  | call
  | finish
  | destroy
  | close

section Definitions

variable (escape : Escape) (token : String) (providerId : UInt16)

def creation (q : Session) : Operation := .create q.name q.type q.config q.library token

def destruction (q : Session) : Operation := .destroy q.name token

/-- The call of Admin has returned normally. -/
def Returned {n : ℕ} (o : Operating Datasets n) : Prop := o.admin.caller = .ended (.ok ())

/-- One step of a deployment. The threads of Admin run in any order, and every member of the
handle is checked. The view of the destruction is that of the group as it is then. -/
inductive Step (fuel : ℕ) : Deployment → Event → Deployment → Prop where
  | begin {site q qs rs} : Step fuel ⟨.idle site, q :: qs, rs⟩ .begin
      ⟨.creating site.view (beginning site.view site.server), q :: qs, rs⟩
  | create {view o e o' q qs rs} :
      MemberOperations.Step idleEnvironment view providerId (creation token q) escape o e o' →
      Step fuel ⟨.creating view o, q :: qs, rs⟩ .create ⟨.creating view o', q :: qs, rs⟩
  | makeHandle {view o h q qs rs} : Returned o →
      (makeOnMaster (checkedBy view o.server) q.ssgFile providerId q.name true).result = .ok h →
      Step fuel ⟨.creating view o, q :: qs, rs⟩ .makeHandle
        ⟨.serving ⟨view, h, o.server⟩ q.events [], q :: qs, rs⟩
  | call {s t e todo r results qs rs} : Service.serve fuel s e = some (t, r) →
      Step fuel ⟨.serving s (e :: todo) results, qs, rs⟩ .call
        ⟨.serving t todo (results ++ [r]), qs, rs⟩
  | finish {s results qs rs} : Step fuel ⟨.serving s [] results, qs, rs⟩ .finish
      ⟨.destroying s.view (beginning s.view s.server) results, qs, rs⟩
  | destroy {view o e o' results q qs rs} :
      MemberOperations.Step idleEnvironment view providerId (destruction token q) escape o e o' →
      Step fuel ⟨.destroying view o results, q :: qs, rs⟩ .destroy
        ⟨.destroying view o' results, q :: qs, rs⟩
  | close {view o results q qs rs} : Returned o →
      Step fuel ⟨.destroying view o results, q :: qs, rs⟩ .close
        ⟨.idle ⟨view, o.server⟩, qs, rs ++ [results]⟩

/-- The store that the client of a session meets. -/
def Session.store (q : Session) (view : View) : Store where
  name := q.name
  providerId := providerId
  members := view

def Session.closing (q : Session) (view : View) : Store :=
  q.events.foldl (next Store.perform) (q.store providerId view)

/-- The servers that join have the token too. -/
def Admissible (a : Store) (e : ElasticStaging.Event) : Prop :=
  ElasticStaging.Allowed a e ∧ match e with
  | .grow view newcomers =>
    ∀ m ∈ view, m ∉ a.members → ¬ badToken (newcomers (m.2, a.providerId)) token
  | _ => True

/-- The events of every session are allowed and leave no iteration open. -/
def AllAdmissible : View → List Session → Prop
  | _, [] => True
  | view, q :: qs =>
    Guarded (Admissible token) (q.store providerId view)
      (path (next Store.perform) (q.store providerId view) q.events) ∧
    (q.closing providerId view).active = false ∧
    AllAdmissible (q.closing providerId view).members qs

/-- The results of the store. -/
def Session.results (q : Session) (view : View) : List Bool :=
  answers Store.perform (q.store providerId view) q.events

/-- The members after the sessions. -/
def lastView (view : View) (sessions : List Session) : View :=
  sessions.foldl (fun view q => (q.closing providerId view).members) view

/-- The results of the sessions, each on a store of its own. -/
def allResults : View → List Session → List (List Bool)
  | _, [] => []
  | view, q :: qs => q.results providerId view :: allResults (q.closing providerId view).members qs

end Definitions

/-- The view after an event, and after those of a session. -/
def grown (view : View) : ElasticStaging.Event → View
  | .grow view' _ => view'
  | _ => view

def Session.grown (q : Session) (view : View) : View := q.events.foldl Deployments.grown view

/-- The steps of a session: those of Admin for every member, and the calls of the client. -/
def work : View → List Session → ℕ
  | _, [] => 0
  | view, q :: qs =>
    3 * view.length + q.events.length + 3 * (q.grown view).length + 8 + work (q.grown view) qs

/-- The steps that are left. -/
def Deployment.remaining (d : Deployment) : ℕ :=
  match d.place, d.sessions with
  | .idle site, qs => work site.view qs
  | .creating view o, q :: qs =>
    AdminThreads.remaining o.admin + q.events.length + 3 * (q.grown view).length + 5 +
      work (q.grown view) qs
  | .serving s todo _, qs =>
    todo.length + 3 * (todo.foldl grown s.view).length + 4 + work (todo.foldl grown s.view) qs.tail
  | .destroying view o _, qs => AdminThreads.remaining o.admin + 1 + work view qs.tail
  | .creating _ _, [] => 0

/-! ## Creation and destruction on one member -/

section Member

variable {u : Provider Datasets} {token : String} {providerId : UInt16} {q : Session}

theorem badToken_congr {v : Provider Datasets} (h : v.token = u.token) :
    badToken v token ↔ badToken u token := by
  unfold badToken
  rw [h]

theorem create_keeps (ht : ¬ badToken u token) (q : Session) :
    (∃ r, (process idleEnvironment u (request (creation token q))).reply = some r ∧
      r.success = true) ∧
    Keeps (process idleEnvironment u (request (creation token q))).provider q.name false 0
      noBlocks ∧
    Within q.name u (process idleEnvironment u (request (creation token q))).provider := by
  have hparse : ∃ json, parseConfig idleEnvironment q.config = .ok json := by
    unfold parseConfig
    split
    · exact ⟨_, rfl⟩
    · exact ⟨_, rfl⟩
  obtain ⟨json, hjson⟩ := hparse
  have hmake : makeBackend idleEnvironment u q.type json q.library = .ok ∅ := by
    unfold makeBackend
    split
    · next dlerror hd =>
      split at hd
      · cases hd
      · cases hd
    · rfl
  have hcreate : process idleEnvironment u (request (creation token q)) =
      respond (u.register q.name ∅) {} := by
    change createPipeline idleEnvironment u token q.name q.type q.config q.library = _
    unfold createPipeline
    rw [if_neg ht, hjson]
    simp only [_createPipeline, hmake, Except.map]
  rw [hcreate]
  refine ⟨⟨_, rfl, rfl⟩, ⟨⟨⟨u.nextBackend, ∅⟩, false, 0⟩, Finmap.lookup_insert _, rfl, rfl,
    fun j d b => ?_⟩, rfl, rfl, rfl, rfl, fun _ hne => Finmap.lookup_insert_of_ne _ hne⟩
  rw [find_empty]
  simp [noBlocks]

theorem destroy_erases {j : UInt64} {blocks : Blocks} (ht : ¬ badToken u token)
    (hk : Keeps u q.name false j blocks) :
    (∃ r, (process idleEnvironment u (request (destruction token q))).reply = some r ∧
      r.success = true) ∧
    (process idleEnvironment u (request (destruction token q))).provider.pipelines.lookup q.name =
      none ∧
    Within q.name u (process idleEnvironment u (request (destruction token q))).provider := by
  obtain ⟨st, hl, ha, -, -⟩ := hk
  obtain ⟨hreply, hpipelines⟩ := RefusedRequests.destroyPipeline_inactive idleEnvironment ht hl ha
  refine ⟨⟨_, hreply, rfl⟩, ?_, within_destroyPipeline idleEnvironment u token q.name⟩
  change (destroyPipeline idleEnvironment u token q.name).provider.pipelines.lookup q.name = none
  rw [hpipelines]
  exact Finmap.lookup_erase _ _

end Member

/-! ## The handle of the client -/

section Handle

variable {view : View} {w : Servers Datasets} {providerId : UInt16} {name : String}

/-- A check that is passed makes no difference. -/
theorem resolveMember_checked (hd : Distinct view)
    (hc : ∀ p ∈ handles view name providerId,
      ∃ st, (w (endpoint p)).pipelines.lookup name = some st) {i : ℕ} (hi : i < view.length) :
    resolveMember (checkedBy view w) 0 providerId name true i =
      .ok ⟨name, view[i].2, providerId⟩ := by
  obtain ⟨-, -, id, hid, haddr⟩ := resolveMember_ok (resolveMember_ofView hd providerId name hi)
  have hid : (checkedBy view w).memberIdFromRank 0 i = .ok id := hid
  have haddr : (checkedBy view w).memberAddr 0 id = .ok view[i].2 := haddr
  have hmake : makePipelineHandle (checkedBy view w) view[i].2 providerId name true =
      .ok ⟨name, view[i].2, providerId⟩ := by
    obtain ⟨st, hst⟩ := hc ⟨name, view[i].2, providerId⟩
      (List.mem_map_of_mem (f := fun m => (⟨name, m.2, providerId⟩ : PipelineHandle))
        (List.getElem_mem hi))
    have hcheck : (ProviderHandlers.checkPipeline (w (view[i].2, providerId)) name).reply =
        some {} := by
      unfold ProviderHandlers.checkPipeline
      change (w (view[i].2, providerId)).pipelines.lookup name = some st at hst
      rw [hst]
      rfl
    unfold makePipelineHandle checkedBy ClientEnv.ofView endpoint
    simp only [hcheck, Option.getD_some, if_true]
  simp only [resolveMember, hid, haddr, hmake]

theorem resolveMembers_checked (hd : Distinct view)
    (hc : ∀ p ∈ handles view name providerId,
      ∃ st, (w (endpoint p)).pipelines.lookup name = some st) (i n : ℕ)
    (h : i + n = view.length) :
    resolveMembers (checkedBy view w) 0 providerId name true (List.range' i n) =
      .ok (handles (view.drop i) name providerId) := by
  induction n generalizing i with
  | zero =>
    have hi : view.length ≤ i := by omega
    rw [List.drop_eq_nil_of_le hi]
    rfl
  | succ n ih =>
    have hi : i < view.length := by omega
    rw [List.range'_succ, resolveMembers, resolveMember_checked hd hc hi, ih (i + 1) (by omega),
      List.drop_eq_getElem_cons hi]
    rfl

/-- The handle lists all members of the group. -/
theorem made_handle (hd : Distinct view)
    (hc : ∀ p ∈ handles view name providerId,
      ∃ st, (w (endpoint p)).pipelines.lookup name = some st) (ssgFile : String) :
    ∃ h, (makeOnMaster (checkedBy view w) ssgFile providerId name true).result = .ok h ∧
      h.name = name ∧ h.providerId = providerId ∧ h.pipelines = handles view name providerId := by
  have hload : (checkedBy view w).groupIdLoad ssgFile = some 0 := rfl
  have hsize : (checkedBy view w).groupSize 0 = some view.length := rfl
  rw [makeOnMaster_eq hload rfl hsize, resolveMembers_checked hd hc 0 view.length (Nat.zero_add _)]
  exact ⟨_, rfl, rfl, rfl, rfl⟩

end Handle

/-! ## A session -/

section Session

variable {escape : Escape} {token : String} {providerId : UInt16} {site : Site} {q : Session}

/-- What holds between the calls of the client. -/
structure Serving (token : String) (s : Service) (a : Store) : Prop where
  represents : Represents s a
  tokens : ∀ m ∈ s.view, ¬ badToken (s.server (m.2, s.handle.providerId)) token

/-- A member that is not new keeps its token, and the new ones have it. -/
theorem Serving.grown {s : Service} {a : Store} (h : Serving token s a) {view : View}
    {newcomers : Servers Datasets} (hg : Admissible token a (.grow view newcomers)) :
    ∀ m ∈ view, ¬ badToken ((s.grow view newcomers).server (m.2, s.handle.providerId)) token := by
  obtain ⟨⟨-, hd, hmembers, -⟩, hnew⟩ := hg
  rw [← h.represents.members] at hmembers hnew
  rw [← h.represents.named.2] at hnew
  intro m hm
  change ¬ badToken { (if (m.2, s.handle.providerId) ∈ s.group.map endpoint then
    s.server (m.2, s.handle.providerId) else newcomers (m.2, s.handle.providerId)) with
      groupHash := hashOf view } token
  by_cases hv : (m.2, s.handle.providerId) ∈ s.group.map endpoint
  · rw [if_pos hv]
    obtain ⟨p, hp, he⟩ := List.mem_map.mp hv
    obtain ⟨m', hm', rfl⟩ := List.mem_map.mp hp
    rw [← he]
    exact h.tokens m' hm'
  · rw [if_neg hv]
    refine hnew m hm fun hold => hv ?_
    exact List.mem_map.mpr ⟨_, List.mem_map_of_mem hold, rfl⟩

theorem Serving.serve {s : Service} {a : Store} {e : ElasticStaging.Event} (h : Serving token s a)
    (hg : Admissible token a e) (fuel : ℕ) :
    ∃ t, s.serve (fuel + 2) e = some (t, (a.perform e).2) ∧
      Serving token t (next Store.perform a e) := by
  obtain ⟨t, ht, hr⟩ := serve_refines fuel s a e h.represents hg.1
  refine ⟨t, ht, hr, ?_⟩
  cases he : isGrow e with
  | true =>
    cases e with
    | grow view newcomers =>
      obtain rfl : s.grow view newcomers = t := congrArg Prod.fst (Option.some.inj ht)
      exact h.grown hg
    | start | stage | execute | cleanup => cases he
  | false =>
    obtain ⟨hview, -, hserver⟩ := serve_own h.represents he ht
    have hid : t.handle.providerId = s.handle.providerId := by
      rw [hr.named.2, h.represents.named.2]
      exact (perform_named a e).2
    intro m hm
    rw [hview] at hm
    rw [hid]
    exact mt (badToken_congr (hserver (m.2, s.handle.providerId)).within.token).mp (h.tokens m hm)

/-- Every member carries out the creation. -/
theorem created_members (h : Ready token providerId site)
    {creating : Operating Datasets site.view.length}
    (hr : Reaches (MemberOperations.Step idleEnvironment site.view providerId (creation token q)
      escape) (beginning site.view site.server) creating) (he : Ended creating.admin) :
    creating.admin.caller = .ended (.ok ()) ∧ ∀ m ∈ site.view,
      creating.server (m.2, providerId) = (process idleEnvironment
        (site.server (m.2, providerId)) (request (creation token q))).provider := by
  have haccept : AllAccept idleEnvironment site.view providerId (creation token q) site.server :=
    fun m hm => (create_keeps (h.members m hm).2 q).1
  obtain ⟨hcaller, hserver⟩ := ended_accepted h.distinct haccept hr he
  refine ⟨hcaller, fun m hm => ?_⟩
  rw [hserver, handled_member h.distinct hm]

/-- After the creation every member keeps a new pipeline, whatever it kept under this name. -/
theorem created (h : Ready token providerId site) {creating : Operating Datasets site.view.length}
    (hr : Reaches (MemberOperations.Step idleEnvironment site.view providerId (creation token q)
      escape) (beginning site.view site.server) creating) (he : Ended creating.admin) :
    creating.admin.caller = .ended (.ok ()) ∧ ∀ m ∈ site.view,
      Keeps (creating.server (m.2, providerId)) q.name false 0 noBlocks ∧
      Within q.name (site.server (m.2, providerId)) (creating.server (m.2, providerId)) := by
  obtain ⟨hcaller, hserver⟩ := created_members h hr he
  refine ⟨hcaller, fun m hm => ?_⟩
  rw [hserver m hm]
  exact (create_keeps (h.members m hm).2 q).2

/-- The client of a new pipeline makes a handle, and meets an empty store. -/
theorem begun (h : Ready token providerId site)
    {creating : Operating Datasets site.view.length}
    (hr : Reaches (MemberOperations.Step idleEnvironment site.view providerId (creation token q)
      escape) (beginning site.view site.server) creating) (he : Ended creating.admin) :
    ∃ handle, (makeOnMaster (checkedBy site.view creating.server) q.ssgFile providerId q.name
        true).result = .ok handle ∧ handle.name = q.name ∧ handle.providerId = providerId ∧
      Serving token ⟨site.view, handle, creating.server⟩ (q.store providerId site.view) := by
  obtain ⟨-, hcreated⟩ := created h hr he
  have hchecked : ∀ p ∈ handles site.view q.name providerId,
      ∃ st, (creating.server (endpoint p)).pipelines.lookup q.name = some st := by
    intro p hp
    obtain ⟨m, hm, rfl⟩ := List.mem_map.mp hp
    obtain ⟨⟨st, hl, -⟩, -⟩ := hcreated m hm
    exact ⟨st, hl⟩
  obtain ⟨handle, hmade, hname, hid, hpipelines⟩ := made_handle h.distinct hchecked q.ssgFile
  have hgroup : Service.group ⟨site.view, handle, creating.server⟩ =
      handles site.view q.name providerId := by
    unfold Service.group
    rw [hname, hid]
  have hfresh : Fresh ⟨site.view, handle, creating.server⟩ := by
    refine ⟨h.distinct, ⟨?_, ?_⟩, ?_, ?_⟩
    · change handle.pipelines.Nodup
      rw [hpipelines]
      exact handles_nodup h.distinct providerId q.name
    · change ∀ p ∈ handle.pipelines, p ∈ handles site.view handle.name handle.providerId
      rw [hpipelines, hname, hid]
      exact fun p hp => hp
    · change handle.pipelines ≠ []
      rw [hpipelines]
      exact fun hnil => h.nonempty (List.map_eq_nil_iff.mp hnil)
    · rw [hgroup]
      intro p hp
      obtain ⟨m, hm, rfl⟩ := List.mem_map.mp hp
      obtain ⟨hkeeps, hwithin⟩ := hcreated m hm
      exact ⟨hwithin.groupHash.trans (h.members m hm).1, hname ▸ hkeeps⟩
  have hstore : Service.store ⟨site.view, handle, creating.server⟩ =
      q.store providerId site.view := by
    unfold Service.store Session.store
    rw [hname, hid]
  refine ⟨handle, hmade, hname, hid, hstore ▸ hfresh.represents, fun m hm => ?_⟩
  change ¬ badToken (creating.server (m.2, handle.providerId)) token
  rw [hid, badToken_congr (hcreated m hm).2.token]
  exact (h.members m hm).2

theorem closing_named (providerId : UInt16) (q : Session) (view : View) :
    (q.closing providerId view).name = q.name ∧
      (q.closing providerId view).providerId = providerId :=
  foldl_invariant (next Store.perform) (P := fun a => a.name = q.name ∧ a.providerId = providerId)
    (fun a e ha => ⟨(perform_named a e).1.trans ha.1, (perform_named a e).2.trans ha.2⟩)
    ⟨rfl, rfl⟩ q.events

/-- What a member keeps when the calls of the client are over. -/
theorem Serving.member {t : Service} {a : Store} (h : Serving token t a) (ha : a.active = false)
    (hname : a.name = q.name) (hid : a.providerId = providerId) {m : UInt64 × Address}
    (hm : m ∈ t.view) : ∃ j blocks, Keeps (t.server (m.2, providerId)) q.name false j blocks ∧
      ¬ badToken (t.server (m.2, providerId)) token ∧
      (t.server (m.2, providerId)).groupHash = hashOf t.view := by
  have hp : (⟨t.handle.name, m.2, t.handle.providerId⟩ : PipelineHandle) ∈ t.group :=
    List.mem_map_of_mem hm
  obtain ⟨j, -, hk⟩ := h.represents.idle _ hp (Or.inl ha)
  have hhash := h.represents.hashes _ hp
  have htoken := h.tokens m hm
  unfold endpoint at hk hhash
  rw [h.represents.named.2, hid] at htoken
  rw [h.represents.named.1, h.represents.named.2, hid, hname] at hk
  rw [h.represents.named.2, hid] at hhash
  exact ⟨j, _, hk, htoken, hhash⟩

/-- Every member carries out the destruction. -/
theorem destroyed_members {t : Service} {a : Store} (h : Serving token t a) (ha : a.active = false)
    (hname : a.name = q.name) (hid : a.providerId = providerId)
    {destroying : Operating Datasets t.view.length}
    (hr : Reaches (MemberOperations.Step idleEnvironment t.view providerId (destruction token q)
      escape) (beginning t.view t.server) destroying) (he : Ended destroying.admin) :
    destroying.admin.caller = .ended (.ok ()) ∧ ∀ m ∈ t.view,
      destroying.server (m.2, providerId) = (process idleEnvironment
        (t.server (m.2, providerId)) (request (destruction token q))).provider := by
  have haccept : AllAccept idleEnvironment t.view providerId (destruction token q) t.server := by
    intro m hm
    obtain ⟨j, blocks, hk, htoken, -⟩ := h.member ha hname hid hm
    exact (destroy_erases htoken hk).1
  obtain ⟨hcaller, hserver⟩ := ended_accepted h.represents.distinct haccept hr he
  refine ⟨hcaller, fun m hm => ?_⟩
  rw [hserver, handled_member h.represents.distinct hm]

/-- After the destruction no member has the pipeline, and the group can be used again. -/
theorem destroyed {t : Service} {a : Store} (h : Serving token t a) (ha : a.active = false)
    (hname : a.name = q.name) (hid : a.providerId = providerId)
    {destroying : Operating Datasets t.view.length}
    (hr : Reaches (MemberOperations.Step idleEnvironment t.view providerId (destruction token q)
      escape) (beginning t.view t.server) destroying) (he : Ended destroying.admin) :
    destroying.admin.caller = .ended (.ok ()) ∧ Ready token providerId ⟨t.view, destroying.server⟩ ∧
      ∀ m ∈ t.view, (destroying.server (m.2, providerId)).pipelines.lookup q.name = none := by
  obtain ⟨hcaller, hserver⟩ := destroyed_members h ha hname hid hr he
  have herased : ∀ m ∈ t.view,
      (destroying.server (m.2, providerId)).pipelines.lookup q.name = none ∧
        Within q.name (t.server (m.2, providerId)) (destroying.server (m.2, providerId)) := by
    intro m hm
    obtain ⟨j, blocks, hk, htoken, -⟩ := h.member ha hname hid hm
    rw [hserver m hm]
    exact (destroy_erases htoken hk).2
  refine ⟨hcaller, ⟨h.represents.distinct, ?_, fun m hm => ?_⟩, fun m hm => (herased m hm).1⟩
  · obtain ⟨p, hp⟩ := List.exists_mem_of_ne_nil _ h.represents.nonempty
    obtain ⟨m, hm, -⟩ := List.mem_map.mp (h.represents.mem_group hp)
    exact List.ne_nil_of_mem hm
  · obtain ⟨j, blocks, hk, htoken, hhash⟩ := h.member ha hname hid hm
    have hwithin := (herased m hm).2
    exact ⟨hwithin.groupHash.trans hhash, mt (badToken_congr hwithin.token).mp htoken⟩

end Session

/-! ## Any number of sessions -/

section Runs

variable {escape : Escape} {token : String} {providerId : UInt16} {fuel : ℕ} {view : View}
  {past : List Session} {d d' : Deployment} {e : Event}

theorem lastView_concat (q : Session) : lastView providerId view (past ++ [q]) =
    (q.closing providerId (lastView providerId view past)).members := by
  unfold lastView
  rw [List.foldl_append]
  rfl

theorem allResults_concat (q : Session) : allResults providerId view (past ++ [q]) =
    allResults providerId view past ++ [q.results providerId (lastView providerId view past)] := by
  induction past generalizing view with
  | nil => rfl
  | cons p past ih => exact congrArg (List.cons _) ih

/-! Every step takes something off. -/

theorem serve_view {s t : Service} {e : ElasticStaging.Event} {r : Bool}
    (h : s.serve fuel e = some (t, r)) : t.view = grown s.view e := by
  cases e with
  | start i =>
    change s.start fuel i = some (t, r) at h
    induction fuel generalizing s with
    | zero => cases h
    | succ fuel ih =>
      unfold Service.start at h
      dsimp only at h
      split at h
      · split at h
        · have hview := ih h
          exact hview
        · obtain rfl := congrArg Prod.fst (Option.some.inj h)
          rfl
      · obtain rfl := congrArg Prod.fst (Option.some.inj h)
        rfl
      · obtain rfl := congrArg Prod.fst (Option.some.inj h)
        rfl
  | stage i args pulled =>
    obtain rfl : (s.stage i args pulled).1 = t := congrArg Prod.fst (Option.some.inj h)
    unfold Service.stage
    split <;> rfl
  | execute i autoCleanup =>
    obtain rfl : (s.execute i autoCleanup).1 = t := congrArg Prod.fst (Option.some.inj h)
    rfl
  | cleanup i =>
    obtain rfl : (s.cleanup i).1 = t := congrArg Prod.fst (Option.some.inj h)
    rfl
  | grow view newcomers =>
    obtain rfl : s.grow view newcomers = t := congrArg Prod.fst (Option.some.inj h)
    rfl

theorem beginning_remaining (view : View) (w : Servers Datasets) :
    AdminThreads.remaining (beginning view w).admin = 3 * view.length + 2 :=
  initial_remaining view.length

theorem step_remaining (h : Step escape token providerId fuel d e d') :
    d'.remaining < d.remaining := by
  cases h with
  | begin =>
    simp only [Deployment.remaining, work, beginning_remaining]
    omega
  | create hstep =>
    have hless := step_less hstep
    simp only [Deployment.remaining]
    omega
  | makeHandle _ _ =>
    simp only [Deployment.remaining, List.tail_cons, Session.grown]
    omega
  | call hserve =>
    simp only [Deployment.remaining, List.foldl_cons, List.length_cons, serve_view hserve]
    omega
  | finish =>
    simp only [Deployment.remaining, List.foldl_nil, List.length_nil, beginning_remaining]
    omega
  | destroy hstep =>
    have hless := step_less hstep
    simp only [Deployment.remaining]
    omega
  | close _ =>
    simp only [Deployment.remaining, List.tail_cons]
    omega

/-! What holds at every place. -/

/-- The session that is over last has left no pipeline behind. -/
def Erased (providerId : UInt16) (past : List Session) (site : Site) : Prop :=
  ∀ q ∈ past.getLast?, ∀ m ∈ site.view,
    (site.server (m.2, providerId)).pipelines.lookup q.name = none

/-- The place of a deployment whose group has this view between the sessions that are over and
the current one. -/
inductive Holds (escape : Escape) (token : String) (providerId : UInt16) (past : List Session)
    (view : View) : Place → List Session → Prop where
  | idle {w qs} : Ready token providerId ⟨view, w⟩ → Erased providerId past ⟨view, w⟩ →
      Holds escape token providerId past view (.idle ⟨view, w⟩) qs
  | creating {w o q qs} : Ready token providerId ⟨view, w⟩ →
      Reaches (MemberOperations.Step idleEnvironment view providerId (creation token q) escape)
        (beginning view w) o →
      Holds escape token providerId past view (.creating view o) (q :: qs)
  | serving {s a todo results q qs} : Serving token s a →
      Guarded (Admissible token) a (path (next Store.perform) a todo) →
      results ++ answers Store.perform a todo = q.results providerId view →
      todo.foldl (next Store.perform) a = q.closing providerId view →
      Holds escape token providerId past view (.serving s todo results) (q :: qs)
  | destroying {s o q qs} : Serving token s (q.closing providerId view) →
      Reaches (MemberOperations.Step idleEnvironment s.view providerId (destruction token q) escape)
        (beginning s.view s.server) o →
      Holds escape token providerId past view (.destroying s.view o (q.results providerId view))
        (q :: qs)

/-- The sessions that are over have had the results of their stores. -/
structure Going (escape : Escape) (token : String) (providerId : UInt16) (view : View)
    (sessions : List Session) (past : List Session) (d : Deployment) : Prop where
  sessions : sessions = past ++ d.sessions
  results : d.results = allResults providerId view past
  admissible : AllAdmissible token providerId (lastView providerId view past) d.sessions
  holds : Holds escape token providerId past (lastView providerId view past) d.place d.sessions

theorem Going.begin {site : Site} (h : Ready token providerId site) {sessions : List Session}
    (hs : AllAdmissible token providerId site.view sessions) :
    Going escape token providerId site.view sessions [] ⟨.idle site, sessions, []⟩ :=
  ⟨rfl, rfl, hs, .idle h fun q hq => by cases hq⟩

theorem Going.step {sessions : List Session}
    (h : Going escape token providerId view sessions past d)
    (hstep : Step escape token providerId (fuel + 2) d e d') :
    ∃ past', Going escape token providerId view sessions past' d' := by
  obtain ⟨hsessions, hresults, hadmissible, hholds⟩ := h
  cases hstep with
  | begin =>
    cases hholds with
    | idle hready _ => exact ⟨past, hsessions, hresults, hadmissible, .creating hready .refl⟩
  | create hstep =>
    cases hholds with
    | creating hready hreach =>
      exact ⟨past, hsessions, hresults, hadmissible, .creating hready (hreach.snoc hstep)⟩
  | makeHandle hreturned hmade =>
    cases hholds with
    | creating hready hreach =>
      obtain ⟨h, hmade', -, -, hserving⟩ := begun hready hreach (Or.inr ⟨_, hreturned⟩)
      obtain rfl := Except.ok.inj (hmade.symm.trans hmade')
      exact ⟨past, hsessions, hresults, hadmissible, .serving hserving hadmissible.1 rfl rfl⟩
  | call hserve =>
    cases hholds with
    | serving hserving hguarded hanswers hclosing =>
      obtain ⟨t, ht, hserving'⟩ := hserving.serve hguarded.1 fuel
      obtain ⟨rfl, rfl⟩ := Prod.mk.inj (Option.some.inj (hserve.symm.trans ht))
      refine ⟨past, hsessions, hresults, hadmissible,
        .serving hserving' hguarded.2 ?_ hclosing⟩
      rw [List.append_assoc]
      exact hanswers
  | finish =>
    cases hholds with
    | serving hserving _ hanswers hclosing =>
      rw [answers, List.append_nil] at hanswers
      subst hanswers
      exact ⟨past, hsessions, hresults, hadmissible, .destroying (hclosing ▸ hserving) .refl⟩
  | destroy hstep =>
    cases hholds with
    | destroying hserving hreach =>
      exact ⟨past, hsessions, hresults, hadmissible, .destroying hserving (hreach.snoc hstep)⟩
  | @close _ o _ q qs _ hreturned =>
    cases hholds with
    | @destroying s _ _ _ hserving hreach =>
      obtain ⟨hname, hid⟩ := closing_named providerId q (lastView providerId view past)
      obtain ⟨-, hready, herased⟩ :=
        destroyed hserving hadmissible.2.1 hname hid hreach (Or.inr ⟨_, hreturned⟩)
      have hview : s.view = lastView providerId view (past ++ [q]) :=
        hserving.represents.members.trans (lastView_concat q).symm
      refine ⟨past ++ [q], by rw [hsessions, List.append_assoc]; rfl,
        by rw [allResults_concat, ← hresults], ?_, ?_⟩
      · rw [lastView_concat]
        exact hadmissible.2.2
      · rw [← hview]
        refine .idle hready fun q' hq' m hm => ?_
        obtain rfl : q = q' := by simpa using hq'
        exact herased m hm

/-- No place is one to be stuck at. -/
theorem Going.goesOn {sessions : List Session}
    (h : Going escape token providerId view sessions past d) :
    (d.sessions = [] ∧ ∃ site, d.place = .idle site) ∨
      ∃ e d', Step escape token providerId (fuel + 2) d e d' := by
  obtain ⟨-, -, hadmissible, hholds⟩ := h
  obtain ⟨place, qs, rs⟩ := d
  cases hholds with
  | @idle w _ _ _ =>
    cases qs with
    | nil => exact Or.inl ⟨rfl, _, rfl⟩
    | cons q qs => exact Or.inr ⟨_, _, .begin⟩
  | @creating w o q qs hready hreach =>
    rcases operation_goesOn hready.distinct hreach with hended | ⟨e, o', hstep⟩
    · obtain ⟨h, hmade, -, -, -⟩ := begun hready hreach hended
      exact Or.inr ⟨_, _, .makeHandle (created hready hreach hended).1 hmade⟩
    · exact Or.inr ⟨_, _, .create hstep⟩
  | @serving s a todo results q qs hserving hguarded _ _ =>
    cases todo with
    | nil => exact Or.inr ⟨_, _, .finish⟩
    | cons e todo =>
      obtain ⟨t, ht, -⟩ := hserving.serve hguarded.1 fuel
      exact Or.inr ⟨_, _, .call ht⟩
  | @destroying s o q qs hserving hreach =>
    rcases operation_goesOn hserving.represents.distinct hreach with hended | ⟨e, o', hstep⟩
    · obtain ⟨hname, hid⟩ := closing_named providerId q (lastView providerId view past)
      exact Or.inr ⟨_, _, .close (destroyed hserving hadmissible.2.1 hname hid hreach hended).1⟩
    · exact Or.inr ⟨_, _, .destroy hstep⟩

end Runs

/-! Two sessions on a group with a token; a server joins during the first one. -/

end Deployments
