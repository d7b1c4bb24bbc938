import Colza.ClientServers
import Colza.ObservedRuns
import Colza.ReplyCallbacks
import Colza.ServedAttempts
import Colza.StagingServers

/-!
# A growing group of servers as one store

A client starts iterations on the servers of a group, stages blocks on the server that the
hash function chooses, executes and cleans up, and between two iterations servers join the
group. Every call has the result that it has on one store of the blocks of one iteration.
-/
namespace ElasticStaging

open Interfaces ProviderHandlers ClientHandles DistributedStart ServedStart ServedAttempts
open StagedBlocks ReplyCallbacks StagingServers GuardedRuns ObservedRuns

/-! ## The store -/

/-- The pipeline, the members of the group, and the blocks of the iteration that is open. -/
structure Store where
  name : String
  providerId : UInt16
  members : View
  active : Bool := false
  iteration : UInt64 := 0
  blocks : Blocks := noBlocks

/-- The calls of the client, and the growth of the group: the new view, and the servers that
join. `pulled` is how the transfer of a block ends. -/
inductive Event where
  | start (iteration : UInt64)
  | stage (iteration : UInt64) (args : StageArgs) (pulled : Except String (List UInt8))
  | execute (iteration : UInt64) (autoCleanup : Bool)
  | cleanup (iteration : UInt64)
  | grow (view : View) (newcomers : Servers Datasets)

namespace Store

def isOpen (a : Store) (iteration : UInt64) : Prop := a.active = true ∧ a.iteration = iteration

instance (a : Store) (iteration : UInt64) : Decidable (a.isOpen iteration) :=
  inferInstanceAs (Decidable (_ ∧ _))

/-- The iteration may be opened. -/
def accepts (a : Store) (iteration : UInt64) : Prop :=
  a.active = false ∧ (a.iteration = 0 ∨ a.iteration < iteration)

instance (a : Store) (iteration : UInt64) : Decidable (a.accepts iteration) :=
  inferInstanceAs (Decidable (_ ∧ _))

def close (a : Store) : Store := { a with active := false, blocks := noBlocks }

def add (a : Store) (key : String × UInt64) (block : DataBlock) : Store :=
  { a with blocks := Function.update a.blocks key (some block) }

/-- The store after a call, and whether the call returns without an exception. A start that is
refused returns normally, and the iteration is not open. -/
def perform (a : Store) : Event → Store × Bool
  | .start i => (if a.accepts i then { a with active := true, iteration := i } else a, true)
  | .stage i args pulled =>
    let key := (args.datasetName, args.blockId)
    if a.isOpen i ∧ a.blocks key = none then
      match pulled with
      | .ok data => (a.add key (newBlock args data), true)
      | .error _ => (a, false)
    else (a, false)
  | .execute i autoCleanup =>
    if a.isOpen i then (if autoCleanup then a.close else a, true) else (a, false)
  | .cleanup i => if a.isOpen i then (a.close, true) else (a, false)
  | .grow view _ => ({ a with members := view }, true)

end Store

/-! ## The servers and the handle of the client -/

structure Service where
  view : View
  handle : DistributedPipelineHandle
  server : Servers Datasets

/-- A reply as the client receives it. -/
def received (reply : Option (RequestResult Int32)) : Reply :=
  let r := reply.getD {}
  ⟨r.success, r.error, r.value.getD 0⟩

def succeeds (ran : Ran) : Bool := ran.outcome == .returned

def transfer (pulled : Except String (List UInt8)) (_ : StageArgs) : Except String (List UInt8) :=
  pulled

/-- The class of the pipelines where nothing is transferred. -/
def idleEnvironment : Environment Datasets := dummyEnvironment (transfer (.ok []))

namespace Service

/-- The pipelines of all members. -/
def group (s : Service) : List PipelineHandle :=
  handles s.view s.handle.name s.handle.providerId

/-- At most `fuel` attempts of `start`, with a refresh between two of them. The flag is false
where an exception leaves the call. -/
def start : ℕ → Service → UInt64 → Option (Service × Bool)
  | 0, _, _ => none
  | fuel + 1, s, i =>
    let a := attempt (servedBy idleEnvironment s.view s.server) s.handle i
    let s := { s with server := afterAttempt idleEnvironment s.view s.server s.handle i }
    match a.exit with
    | .retry =>
      match (refresh (fun _ => servedBy idleEnvironment s.view s.server) s.handle 0).result with
      | .ok h => start fuel { s with handle := h } i
      | .error _ => some (s, false)
    | .returned => some (s, true)
    | .threw _ => some (s, false)

def stage (s : Service) (i : UInt64) (args : StageArgs) (pulled : Except String (List UInt8)) :
    Service × Bool :=
  match stageTarget s.handle args.datasetName i args.blockId with
  | .error _ => (s, false)
  | .ok p =>
    let o := ProviderHandlers.stage (dummyEnvironment (transfer pulled)) (s.server (endpoint p))
      p.name i args
    ({ s with server := Function.update s.server (endpoint p) o.provider },
      succeeds (callOne false (received o.reply)))

/-- One request to every server of the handle, and the wait for all replies. -/
def ask (s : Service) (request : PipelineHandle → Provider Datasets → Outcome Datasets) :
    Service × Bool :=
  ({ s with server := updateAll endpoint (fun p t => (request p t).provider) s.handle.pipelines
              s.server },
    succeeds (waitAll false (s.handle.pipelines.map fun p =>
      received (request p (s.server (endpoint p))).reply)))

def execute (s : Service) (i : UInt64) (autoCleanup : Bool) : Service × Bool :=
  s.ask fun p t => ProviderHandlers.execute idleEnvironment t p.name i autoCleanup

def cleanup (s : Service) (i : UInt64) : Service × Bool :=
  s.ask fun p t => ProviderHandlers.cleanup idleEnvironment t p.name i

/-- Servers join, and every member has the hash of the new view. -/
def grow (s : Service) (view : View) (newcomers : Servers Datasets) : Service :=
  { s with
    view := view
    server := fun v =>
      { (if v ∈ s.group.map endpoint then s.server v else newcomers v) with
        groupHash := hashOf view } }

def serve (fuel : ℕ) (s : Service) : Event → Option (Service × Bool)
  | .start i => s.start fuel i
  | .stage i args pulled => some (s.stage i args pulled)
  | .execute i autoCleanup => some (s.execute i autoCleanup)
  | .cleanup i => some (s.cleanup i)
  | .grow view newcomers => some (s.grow view newcomers, true)

end Service

/-- The group grows while no iteration is open, by servers whose pipeline is new. Iteration 0
is not started after another one: a server that joined later would accept it where the others
refuse, and the abort would leave that server with the iteration before 0. -/
def Allowed (a : Store) : Event → Prop
  | .start i => i ≠ 0 ∨ a.iteration = 0
  | .grow view newcomers => a.active = false ∧ Distinct view ∧ (∀ m ∈ a.members, m ∈ view) ∧
    ∀ m ∈ view, m ∉ a.members → Keeps (newcomers (m.2, a.providerId)) a.name false 0 noBlocks
  | _ => True

/-! ## The servers represent the store -/

/-- The blocks of the store whose keys the hash function sends to this server. -/
def share (h : DistributedPipelineHandle) (a : Store) (p : PipelineHandle) : Blocks := fun key =>
  match stageTarget h key.1 a.iteration key.2 with
  | .ok q => if q = p then a.blocks key else none
  | .error _ => none

/-- While an iteration is open the servers of the handle keep the blocks, each of them on one
server. The other servers keep none and are behind. -/
structure Represents (s : Service) (a : Store) : Prop where
  named : s.handle.name = a.name ∧ s.handle.providerId = a.providerId
  members : s.view = a.members
  distinct : Distinct s.view
  onView : OnView s.view s.handle
  hashes : ∀ p ∈ s.group, (s.server (endpoint p)).groupHash = hashOf s.view
  current : a.active = true → s.handle.groupHash = hashOf s.view
  last : ∃ p ∈ s.handle.pipelines, ∃ blocks,
    Keeps (s.server (endpoint p)) s.handle.name a.active a.iteration blocks
  listed : a.active = true → ∀ p ∈ s.handle.pipelines,
    Keeps (s.server (endpoint p)) s.handle.name true a.iteration (share s.handle a p)
  idle : ∀ p ∈ s.group, a.active = false ∨ p ∉ s.handle.pipelines →
    ∃ j ≤ a.iteration, Keeps (s.server (endpoint p)) s.handle.name false j noBlocks
  empty : a.active = false → a.blocks = noBlocks

theorem share_noBlocks (h : DistributedPipelineHandle) {a : Store} (ha : a.blocks = noBlocks)
    (p : PipelineHandle) : share h a p = noBlocks := by
  funext key
  unfold share
  split
  · simp [ha, noBlocks]
  · rfl

section Representing

variable {s : Service} {a : Store} {i : UInt64} {p : PipelineHandle} {w : Servers Datasets}

theorem Represents.mem_group (h : Represents s a) (hp : p ∈ s.handle.pipelines) : p ∈ s.group :=
  h.onView.members p hp

theorem Represents.name_eq (h : Represents s a) (hp : p ∈ s.handle.pipelines) :
    p.name = s.handle.name := name_of_mem_handles (h.mem_group hp)

theorem Represents.nonempty (h : Represents s a) : s.handle.pipelines ≠ [] := by
  obtain ⟨p, hp, -⟩ := h.last
  exact List.ne_nil_of_mem hp

/-- A member that the handle does not list has an endpoint of its own. -/
theorem Represents.endpoint_notMem (h : Represents s a) (hg : p ∈ s.group)
    (hp : p ∉ s.handle.pipelines) : endpoint p ∉ s.handle.pipelines.map endpoint := by
  rw [List.mem_map]
  rintro ⟨q, hq, he⟩
  obtain rfl := endpoint_injOn (h.mem_group hq) hg he
  exact hp hq

/-- Servers that change their providers and keep their hashes. -/
theorem Represents.hashes_of (h : Represents s a)
    (hlisted : ∀ p ∈ s.handle.pipelines,
      (w (endpoint p)).groupHash = (s.server (endpoint p)).groupHash)
    (hother : ∀ v, v ∉ s.handle.pipelines.map endpoint → w v = s.server v) :
    ∀ p ∈ s.group, (w (endpoint p)).groupHash = hashOf s.view := by
  intro p hg
  rw [← h.hashes p hg]
  by_cases hp : p ∈ s.handle.pipelines
  · exact hlisted p hp
  · rw [hother _ (h.endpoint_notMem hg hp)]

/-- The servers of the handle keep the blocks of an iteration that is open then. -/
theorem Represents.opened (h : Represents s a) {b : Store}
    (hnamed : b.name = a.name ∧ b.providerId = a.providerId) (hmembers : b.members = a.members)
    (hb : b.active = true) (hle : a.iteration ≤ b.iteration)
    (hhash : s.handle.groupHash = hashOf s.view)
    (hlisted : ∀ p ∈ s.handle.pipelines,
      (w (endpoint p)).groupHash = (s.server (endpoint p)).groupHash ∧
        Keeps (w (endpoint p)) s.handle.name true b.iteration (share s.handle b p))
    (hother : ∀ v, v ∉ s.handle.pipelines.map endpoint → w v = s.server v) :
    Represents { s with server := w } b where
  named := ⟨h.named.1.trans hnamed.1.symm, h.named.2.trans hnamed.2.symm⟩
  members := h.members.trans hmembers.symm
  distinct := h.distinct
  onView := h.onView
  hashes := h.hashes_of (fun p hp => (hlisted p hp).1) hother
  current _ := hhash
  last := by
    obtain ⟨p, hp, -⟩ := h.last
    refine ⟨p, hp, share s.handle b p, ?_⟩
    rw [hb]
    exact (hlisted p hp).2
  listed _ p hp := (hlisted p hp).2
  idle p hg hp := by
    have hp : p ∉ s.handle.pipelines := hp.resolve_left (by simp [hb])
    change ∃ j ≤ b.iteration, Keeps (w (endpoint p)) s.handle.name false j noBlocks
    rw [hother _ (h.endpoint_notMem hg hp)]
    obtain ⟨j, hj, hk⟩ := h.idle p hg (Or.inr hp)
    exact ⟨j, UInt64.le_trans hj hle, hk⟩
  empty hn := by
    rw [hb] at hn
    cases hn

/-- The servers of the handle close the iteration. -/
theorem Represents.close (h : Represents s a)
    (hlisted : ∀ p ∈ s.handle.pipelines,
      (w (endpoint p)).groupHash = (s.server (endpoint p)).groupHash ∧
        Keeps (w (endpoint p)) s.handle.name false a.iteration noBlocks)
    (hother : ∀ v, v ∉ s.handle.pipelines.map endpoint → w v = s.server v) :
    Represents { s with server := w } a.close where
  named := h.named
  members := h.members
  distinct := h.distinct
  onView := h.onView
  hashes := h.hashes_of (fun p hp => (hlisted p hp).1) hother
  current := Bool.noConfusion
  last := by
    obtain ⟨p, hp, -⟩ := h.last
    exact ⟨p, hp, _, (hlisted p hp).2⟩
  listed := Bool.noConfusion
  idle p hg _ := by
    by_cases hp : p ∈ s.handle.pipelines
    · exact ⟨a.iteration, UInt64.le_refl _, (hlisted p hp).2⟩
    · change ∃ j ≤ a.iteration, Keeps (w (endpoint p)) s.handle.name false j noBlocks
      rw [hother _ (h.endpoint_notMem hg hp)]
      exact h.idle p hg (Or.inr hp)
  empty _ := rfl

/-- What a server of the handle keeps. -/
theorem Represents.keeps (h : Represents s a) (hp : p ∈ s.handle.pipelines) :
    ∃ j blocks, Keeps (s.server (endpoint p)) s.handle.name a.active j blocks ∧
      (a.active = true → j = a.iteration) := by
  cases ha : a.active with
  | true => exact ⟨_, _, h.listed ha p hp, fun _ => rfl⟩
  | false =>
    obtain ⟨j, -, hk⟩ := h.idle p (h.mem_group hp) (Or.inl ha)
    exact ⟨j, _, hk, Bool.noConfusion⟩

/-! ## The calls inside an iteration -/

theorem succeeds_callOne {r : RequestResult Int32} :
    succeeds (callOne false (received (some r))) = r.success := by
  unfold callOne conclude
  cases hr : r.success <;> simp [received, Reply.result, hr, succeeds]

theorem Represents.stage_target (h : Represents s a) (args : StageArgs) (i : UInt64) :
    ∃ p ∈ s.handle.pipelines, stageTarget s.handle args.datasetName i args.blockId = .ok p :=
  stageTarget_mem h.nonempty args.datasetName i args.blockId

/-- A block on the server of its key. -/
theorem share_update {h : DistributedPipelineHandle} {q : PipelineHandle} (key : String × UInt64)
    (hq : stageTarget h key.1 a.iteration key.2 = .ok q) (block : DataBlock) (p : PipelineHandle) :
    share h (a.add key block) p =
      if q = p then Function.update (share h a p) key (some block) else share h a p := by
  funext k
  by_cases hk : k = key
  · subst hk
    by_cases hp : q = p
    · rw [if_pos hp, Function.update_self]
      simp [share, Store.add, hq, hp]
    · rw [if_neg hp]
      simp [share, Store.add, hq, hp]
  · have hsame : share h (a.add key block) p k = share h a p k := by
      unfold share Store.add
      dsimp only
      rw [Function.update_of_ne hk]
    rw [hsame]
    by_cases hp : q = p
    · rw [if_pos hp, Function.update_of_ne hk]
    · rw [if_neg hp]

theorem Represents.update_target (h : Represents s a) (ha : a.active = true) {q : PipelineHandle}
    (hq : q ∈ s.handle.pipelines) {t : Provider Datasets} (blocks : Blocks)
    (ht : t.groupHash = (s.server (endpoint q)).groupHash ∧
      Keeps t s.handle.name true a.iteration (share s.handle { a with blocks := blocks } q))
    (hother : ∀ p, p ≠ q → share s.handle { a with blocks := blocks } p = share s.handle a p) :
    Represents { s with server := Function.update s.server (endpoint q) t }
      { a with blocks := blocks } := by
  refine h.opened (b := { a with blocks := blocks }) ⟨rfl, rfl⟩ rfl ha (UInt64.le_refl _)
    (h.current ha) (fun p hp => ?_) fun v hv => ?_
  · by_cases hpq : p = q
    · subst hpq
      rw [Function.update_self]
      exact ht
    · have hne : endpoint p ≠ endpoint q := fun he =>
        hpq (endpoint_injOn (h.mem_group hp) (h.mem_group hq) he)
      rw [Function.update_of_ne hne, hother p hpq]
      exact ⟨rfl, h.listed ha p hp⟩
  · refine Function.update_of_ne ?_ _ _
    rintro rfl
    exact hv (List.mem_map_of_mem hq)

theorem stage_refines (h : Represents s a) (i : UInt64) (args : StageArgs)
    (pulled : Except String (List UInt8)) :
    (s.stage i args pulled).2 = (a.perform (.stage i args pulled)).2 ∧
      Represents (s.stage i args pulled).1 (a.perform (.stage i args pulled)).1 := by
  obtain ⟨q, hq, htarget⟩ := h.stage_target args i
  have hstage {o : Outcome Datasets} (ho : ProviderHandlers.stage (dummyEnvironment
      (transfer pulled)) (s.server (endpoint q)) s.handle.name i args = o) :
      s.stage i args pulled =
        ({ s with server := Function.update s.server (endpoint q) o.provider },
          succeeds (callOne false (received o.reply))) := by
    unfold Service.stage
    simp only [htarget, h.name_eq hq, ho]
  by_cases hopen : a.isOpen i
  · obtain ⟨ha, rfl⟩ := hopen
    have hkeeps := h.listed ha q hq
    have hshare : share s.handle a q (args.datasetName, args.blockId) =
        a.blocks (args.datasetName, args.blockId) := by
      simp [share, htarget]
    have hopen : a.isOpen a.iteration := ⟨ha, rfl⟩
    -- a block that is there, or whose transfer fails, changes nothing
    have fails (hn : a.blocks (args.datasetName, args.blockId) ≠ none ∨
        ∃ what, transfer pulled args = .error what) :
        (s.stage a.iteration args pulled).2 = false ∧
          Represents (s.stage a.iteration args pulled).1 a := by
      rw [← hshare] at hn
      obtain ⟨⟨r, hr, hs⟩, hhash, hk⟩ := stage_fails hkeeps hn
      rw [hstage rfl, hr, succeeds_callOne]
      exact ⟨hs, h.update_target ha hq a.blocks ⟨hhash, hk⟩ fun _ _ => rfl⟩
    by_cases hnone : a.blocks (args.datasetName, args.blockId) = none
    · cases pulled with
      | error what =>
        have hp : a.perform (.stage a.iteration args (.error what)) = (a, false) := by
          simp [Store.perform, hopen, hnone]
        rw [hp]
        exact fails (Or.inr ⟨what, rfl⟩)
      | ok data =>
        have hp : a.perform (.stage a.iteration args (.ok data)) =
            (a.add (args.datasetName, args.blockId) (newBlock args data), true) := by
          simp [Store.perform, hopen, hnone]
        obtain ⟨⟨r, hr, hs⟩, hhash, hk⟩ := stage_stores hkeeps (hshare.trans hnone)
          (show transfer (.ok data) args = .ok data from rfl)
        rw [hp, hstage rfl, hr, succeeds_callOne]
        refine ⟨hs, h.update_target ha hq _ ⟨hhash, ?_⟩ fun p hp => ?_⟩
        · have hq := share_update (args.datasetName, args.blockId) htarget (newBlock args data) q
          rw [if_pos rfl] at hq
          exact hq ▸ hk
        · have hp' := share_update (args.datasetName, args.blockId) htarget (newBlock args data) p
          rwa [if_neg (Ne.symm hp)] at hp'
    · have hp : a.perform (.stage a.iteration args pulled) = (a, false) := by
        simp [Store.perform, hnone]
      rw [hp]
      exact fails (Or.inl hnone)
  · obtain ⟨j, blocks, hkeeps, hj⟩ := h.keeps hq
    have hn : ¬ (a.active = true ∧ j = i) := by
      rintro ⟨ha, rfl⟩
      exact hopen ⟨ha, (hj ha).symm⟩
    have hp : a.perform (.stage i args pulled) = (a, false) := by
      simp [Store.perform, hopen]
    obtain ⟨r, hr, hs⟩ := onActive_refuses hkeeps hn _
    rw [hp, hstage hr]
    refine ⟨succeeds_callOne.trans hs, ?_⟩
    change Represents { s with server := Function.update s.server (endpoint q) (s.server _) } a
    rw [Function.update_eq_self]
    exact h

/-! A request to all servers of the handle. -/

theorem succeeds_waitAll {replies : List Reply} :
    succeeds (waitAll false replies) = replies.all Reply.success := by
  cases hall : replies.all Reply.success with
  | true =>
    rw [waitAll_succeeded false (List.all_eq_true.mp hall)]
    rfl
  | false =>
    obtain ⟨r, hr, hf⟩ := List.all_eq_false.mp hall
    obtain ⟨x, -, -, hx⟩ := waitAll_failed false ⟨r, hr, by simpa using hf⟩
    rw [hx]
    rfl

theorem ask_success (s : Service)
    (request : PipelineHandle → Provider Datasets → Outcome Datasets) {success : Bool}
    (hne : s.handle.pipelines ≠ []) (hreply : ∀ p ∈ s.handle.pipelines,
      ∃ r, (request p (s.server (endpoint p))).reply = some r ∧ r.success = success) :
    (s.ask request).2 = success := by
  have hone : ∀ p ∈ s.handle.pipelines,
      (received (request p (s.server (endpoint p))).reply).success = success := by
    intro p hp
    obtain ⟨r, hr, hs⟩ := hreply p hp
    rw [hr]
    exact hs
  change succeeds (waitAll false (s.handle.pipelines.map _)) = success
  rw [succeeds_waitAll, List.all_map]
  cases success with
  | true => exact List.all_eq_true.mpr hone
  | false =>
    obtain ⟨p, hp⟩ := List.exists_mem_of_ne_nil _ hne
    exact List.all_eq_false.mpr ⟨p, hp, by simp [hone p hp]⟩

theorem ask_refused (h : Represents s a)
    (request : PipelineHandle → Provider Datasets → Outcome Datasets)
    (hrefused : ∀ p ∈ s.handle.pipelines, ∃ r,
      request p (s.server (endpoint p)) = respond (s.server (endpoint p)) r ∧ r.success = false) :
    s.ask request = (s, false) := by
  have hserver : updateAll endpoint (fun p t => (request p t).provider) s.handle.pipelines
      s.server = s.server := by
    apply updateAll_eq_self
    intro p hp
    obtain ⟨r, hr, -⟩ := hrefused p hp
    rw [hr]
    rfl
  refine Prod.ext ?_ (ask_success s request h.nonempty fun p hp => ?_)
  · unfold Service.ask
    rw [hserver]
  · obtain ⟨r, hr, hs⟩ := hrefused p hp
    exact ⟨r, by rw [hr]; rfl, hs⟩

/-- The servers after such a request. -/
theorem ask_server (h : Represents s a)
    (request : PipelineHandle → Provider Datasets → Outcome Datasets) :
    (∀ p ∈ s.handle.pipelines, (s.ask request).1.server (endpoint p) =
      (request p (s.server (endpoint p))).provider) ∧
    ∀ v, v ∉ s.handle.pipelines.map endpoint → (s.ask request).1.server v = s.server v :=
  ⟨fun _ hp => updateAll_of_mem h.onView.endpoints_nodup hp, fun _ hv => updateAll_of_notMem hv⟩

theorem ask_closes (h : Represents s a)
    (request : PipelineHandle → Provider Datasets → Outcome Datasets)
    (hleads : ∀ p ∈ s.handle.pipelines, Leads (request p (s.server (endpoint p)))
      (s.server (endpoint p)) s.handle.name true false a.iteration noBlocks) :
    (s.ask request).2 = true ∧ Represents (s.ask request).1 a.close := by
  obtain ⟨hlisted, hother⟩ := ask_server h request
  refine ⟨ask_success s request h.nonempty fun p hp => (hleads p hp).reply,
    h.close (fun p hp => ?_) hother⟩
  have hp' := hlisted p hp
  change updateAll _ _ _ _ _ = _ at hp'
  rw [hp']
  exact ⟨(hleads p hp).groupHash, (hleads p hp).keeps⟩

theorem refuses_outside (h : Represents s a) (hopen : ¬ a.isOpen i) (hp : p ∈ s.handle.pipelines)
    (body : PipelineState Datasets → Outcome Datasets) :
    ∃ r, onActive (s.server (endpoint p)) p.name i body = respond (s.server (endpoint p)) r ∧
      r.success = false := by
  obtain ⟨j, blocks, hkeeps, hj⟩ := h.keeps hp
  rw [h.name_eq hp]
  refine onActive_refuses hkeeps ?_ body
  rintro ⟨ha, rfl⟩
  exact hopen ⟨ha, (hj ha).symm⟩

theorem execute_refines (h : Represents s a) (i : UInt64) (autoCleanup : Bool) :
    (s.execute i autoCleanup).2 = (a.perform (.execute i autoCleanup)).2 ∧
      Represents (s.execute i autoCleanup).1 (a.perform (.execute i autoCleanup)).1 := by
  unfold Service.execute
  by_cases hopen : a.isOpen i
  · obtain ⟨ha, rfl⟩ := hopen
    have hopen : a.isOpen a.iteration := ⟨ha, rfl⟩
    cases autoCleanup with
    | true =>
      have hp : a.perform (.execute a.iteration true) = (a.close, true) := by
        simp [Store.perform, hopen]
      rw [hp]
      refine ask_closes h _ fun p hp => ?_
      rw [h.name_eq hp]
      exact execute_closes (h.listed ha p hp)
    | false =>
      have hp : a.perform (.execute a.iteration false) = (a, true) := by
        simp [Store.perform, hopen]
      have hleads : ∀ p ∈ s.handle.pipelines, Leads
          (ProviderHandlers.execute idleEnvironment (s.server (endpoint p)) p.name a.iteration
            false) (s.server (endpoint p)) s.handle.name true true a.iteration
          (share s.handle a p) := by
        intro p hp
        rw [h.name_eq hp]
        exact execute_runs (h.listed ha p hp)
      obtain ⟨hlisted, hother⟩ := ask_server h fun p t =>
        ProviderHandlers.execute idleEnvironment t p.name a.iteration false
      rw [hp]
      refine ⟨ask_success s _ h.nonempty fun p hp => (hleads p hp).reply,
        h.opened ⟨rfl, rfl⟩ rfl ha (UInt64.le_refl _) (h.current ha) (fun p hp => ?_) hother⟩
      have hp' := hlisted p hp
      change updateAll _ _ _ _ _ = _ at hp'
      rw [hp']
      exact ⟨(hleads p hp).groupHash, (hleads p hp).keeps⟩
  · have hp : a.perform (.execute i autoCleanup) = (a, false) := by
      simp [Store.perform, hopen]
    rw [hp, ask_refused h _ fun p hp => refuses_outside h hopen hp _]
    exact ⟨rfl, h⟩

theorem cleanup_refines (h : Represents s a) (i : UInt64) :
    (s.cleanup i).2 = (a.perform (.cleanup i)).2 ∧
      Represents (s.cleanup i).1 (a.perform (.cleanup i)).1 := by
  unfold Service.cleanup
  by_cases hopen : a.isOpen i
  · obtain ⟨ha, rfl⟩ := hopen
    have hopen : a.isOpen a.iteration := ⟨ha, rfl⟩
    have hp : a.perform (.cleanup a.iteration) = (a.close, true) := by
      simp [Store.perform, hopen]
    rw [hp]
    refine ask_closes h _ fun p hp => ?_
    rw [h.name_eq hp]
    exact cleanup_closes (h.listed ha p hp)
  · have hp : a.perform (.cleanup i) = (a, false) := by
      simp [Store.perform, hopen]
    rw [hp, ask_refused h _ fun p hp => refuses_outside h hopen hp _]
    exact ⟨rfl, h⟩

/-! ## Start, and the growth of the group -/

theorem earlier {j last : UInt64} (hj : j ≤ last) (hi : last = 0 ∨ last < i) :
    j = 0 ∨ j < i := by
  rw [UInt64.le_iff_toNat_le] at hj
  rw [UInt64.lt_iff_toNat_lt, ← UInt64.toNat_inj] at hi ⊢
  change last.toNat = 0 ∨ _ at hi
  change j.toNat = 0 ∨ _
  omega

theorem after_last {last : UInt64} (hi : last = 0 ∨ last < i) : last ≤ i := by
  rw [UInt64.lt_iff_toNat_lt, ← UInt64.toNat_inj] at hi
  rw [UInt64.le_iff_toNat_le]
  change last.toNat = 0 ∨ _ at hi
  omega

theorem pred_le {last : UInt64} (hi : i ≠ 0) (hle : i ≤ last) : i - 1 ≤ last := by
  have hpos : 0 < i.toNat := Nat.pos_of_ne_zero fun h0 => hi (UInt64.toNat_inj.mp h0)
  rw [UInt64.le_iff_toNat_le] at hle ⊢
  rw [FiniteCounts.toNat_sub_one hpos]
  omega

theorem Represents.server_hash (h : Represents s a) (hhash : s.handle.groupHash = hashOf s.view)
    (hp : p ∈ s.handle.pipelines) : s.handle.groupHash = (s.server (endpoint p)).groupHash :=
  hhash.trans (h.hashes p (h.mem_group hp)).symm

/-- Every server of a handle with the hash of the view accepts. -/
theorem start_opens (h : Represents s a) (hhash : s.handle.groupHash = hashOf s.view)
    (hacc : a.accepts i) (fuel : ℕ) :
    ∃ t, s.start (fuel + 1) i = some (t, true) ∧
      Represents t { a with active := true, iteration := i } := by
  obtain ⟨ha, hi⟩ := hacc
  have hleads : ∀ p ∈ s.handle.pipelines, Leads (ProviderHandlers.start idleEnvironment
      (s.server (endpoint p)) s.handle.groupHash p.name i) (s.server (endpoint p)) s.handle.name
      true true i noBlocks := by
    intro p hp
    obtain ⟨j, hj, hk⟩ := h.idle p (h.mem_group hp) (Or.inl ha)
    rw [h.name_eq hp, h.server_hash hhash hp]
    exact start_accepts hk (earlier hj hi)
  rcases attempt_served idleEnvironment s.view s.server s.handle i with
    ⟨-, hattempt⟩ | ⟨⟨p, hp, hno⟩, -⟩
  · have hafter := fun p hp => afterAttempt_all (p := p) h.onView.endpoints_nodup hattempt hp
    have hother (v : Address × UInt16) (hv : v ∉ s.handle.pipelines.map endpoint) :
        afterAttempt idleEnvironment s.view s.server s.handle i v = s.server v :=
      afterAttempt_other hv
    refine ⟨{ s with server := afterAttempt idleEnvironment s.view s.server s.handle i }, ?_, ?_⟩
    · simp only [Service.start, hattempt, Attempt.exit]
    · refine h.opened (b := { a with active := true, iteration := i }) ⟨rfl, rfl⟩ rfl rfl ?_ hhash
        (fun p hp => ?_) hother
      · exact after_last hi
      · have hshare : share s.handle { a with active := true, iteration := i } p = noBlocks :=
          share_noBlocks s.handle (a := { a with active := true, iteration := i }) (h.empty ha) p
        rw [hafter p hp, hshare]
        exact ⟨(hleads p hp).groupHash, (hleads p hp).keeps⟩
  · obtain ⟨r, hr, hs⟩ := (hleads p hp).reply
    rw [accepts_of_reply hr, hs] at hno
    cases hno

/-- A server of a handle with the hash of the view accepts a start, or refuses it for another
reason than the hash. -/
theorem start_answer (h : Represents s a) (hhash : s.handle.groupHash = hashOf s.view)
    (hp : p ∈ s.handle.pipelines) (i : UInt64) :
    (a.active = false ∧ Leads (ProviderHandlers.start idleEnvironment (s.server (endpoint p))
      s.handle.groupHash p.name i) (s.server (endpoint p)) s.handle.name true true i noBlocks) ∨
    ∃ r, ProviderHandlers.start idleEnvironment (s.server (endpoint p)) s.handle.groupHash p.name
        i = respond (s.server (endpoint p)) r ∧ r.success = false ∧
      r.value ≠ some ErrorCode.invalidGroupHash.value := by
  rw [h.name_eq hp, h.server_hash hhash hp]
  cases ha : a.active with
  | true => exact Or.inr (start_refuses _ (h.listed ha p hp) (Or.inl rfl))
  | false =>
    obtain ⟨j, -, hk⟩ := h.idle p (h.mem_group hp) (Or.inl ha)
    by_cases hj : j = 0 ∨ j < i
    · exact Or.inl ⟨rfl, start_accepts hk hj⟩
    · rw [not_or, UInt64.not_lt] at hj
      exact Or.inr (start_refuses _ hk (Or.inr hj))

section Refused

variable {exit : Exit} (h : Represents s a)
  (hattempt : attempt (servedBy idleEnvironment s.view s.server) s.handle i =
    .decided (servers s.handle) false
      ((servers s.handle).filter fun q => accepts idleEnvironment s.server s.handle i q.1) exit)

include h hattempt

/-- A server that has refused is as it was. -/
theorem afterAttempt_refused (hp : p ∈ s.handle.pipelines) {r : RequestResult Int32}
    (hr : ProviderHandlers.start idleEnvironment (s.server (endpoint p)) s.handle.groupHash p.name
      i = respond (s.server (endpoint p)) r) (hs : r.success = false) :
    afterAttempt idleEnvironment s.view s.server s.handle i (endpoint p) =
      s.server (endpoint p) := by
  have hno : accepts idleEnvironment s.server s.handle i p = false := by
    rw [accepts_of_reply (r := r) (by rw [hr]; rfl), hs]
  rw [afterAttempt_some h.onView.endpoints_nodup hattempt hp, hno, hr]
  rfl

/-- A server that has accepted is aborted. -/
theorem afterAttempt_aborted (hp : p ∈ s.handle.pipelines)
    (hl : Leads (ProviderHandlers.start idleEnvironment (s.server (endpoint p))
      s.handle.groupHash p.name i) (s.server (endpoint p)) s.handle.name true true i noBlocks) :
    (afterAttempt idleEnvironment s.view s.server s.handle i (endpoint p)).groupHash =
        (s.server (endpoint p)).groupHash ∧
      Keeps (afterAttempt idleEnvironment s.view s.server s.handle i (endpoint p)) s.handle.name
        false (i - 1) noBlocks := by
  obtain ⟨⟨r, hr, hs⟩, hg, hk⟩ := hl
  have habort := abort_closes (transfer (.ok [])) hk
  rw [afterAttempt_some h.onView.endpoints_nodup hattempt hp, accepts_of_reply hr, hs,
    h.name_eq hp]
  rw [h.name_eq hp] at habort hg
  exact ⟨habort.groupHash.trans hg, habort.keeps⟩

end Refused

/-- The server of the last iteration refuses, those that accept are aborted, and the call returns
normally. -/
theorem start_refused (h : Represents s a) (hhash : s.handle.groupHash = hashOf s.view)
    (hn : a.active = true ∨ i ≠ 0 ∧ a.iteration ≠ 0 ∧ i ≤ a.iteration) (fuel : ℕ) :
    ∃ t, s.start (fuel + 1) i = some (t, true) ∧ Represents t a := by
  obtain ⟨last, hlast, blocks, hkeeps⟩ := h.last
  obtain ⟨r, hr, hfalse, -⟩ := start_refuses (transfer (.ok [])) hkeeps
    (hn.imp_right And.right)
  have hrefused : ProviderHandlers.start idleEnvironment (s.server (endpoint last))
      s.handle.groupHash last.name i = respond (s.server (endpoint last)) r := by
    rw [h.name_eq hlast, h.server_hash hhash hlast]
    exact hr
  have hno : accepts idleEnvironment s.server s.handle i last = false := by
    rw [accepts_of_reply (r := r) (by rw [hrefused]; rfl), hfalse]
  rcases attempt_served idleEnvironment s.view s.server s.handle i with ⟨hall, -⟩ | ⟨-, hattempt⟩
  · rw [hall last hlast] at hno
    cases hno
  have hretry : ((servers s.handle).any fun q => hashRefused
      ((servedBy idleEnvironment s.view s.server).start s.handle.groupHash q i)) = false := by
    rw [List.any_eq_false]
    intro q hq
    rcases start_answer h hhash (mem_pipelines hq) i with ⟨-, ⟨r, hr, hs⟩, -, -⟩ | ⟨r, hr, -, hv⟩
    · simp [servedBy, hr, hashRefused, isHashRefusal, hs]
    · simp [servedBy, hr, respond, hashRefused, isHashRefusal, hv]
  rw [hretry] at hattempt
  have hkept := fun p hp r hr hs => afterAttempt_refused (p := p) (r := r) h hattempt hp hr hs
  have haborted := fun p hp hl => afterAttempt_aborted (p := p) h hattempt hp hl
  have hother (v : Address × UInt16) (hv : v ∉ s.handle.pipelines.map endpoint) :
      afterAttempt idleEnvironment s.view s.server s.handle i v = s.server v :=
    afterAttempt_other hv
  refine ⟨{ s with server := afterAttempt idleEnvironment s.view s.server s.handle i }, ?_, ?_⟩
  · simp [Service.start, hattempt, Attempt.exit]
  · refine ⟨h.named, h.members, h.distinct, h.onView, h.hashes_of (fun p hp => ?_) hother,
      h.current,
      ⟨last, hlast, blocks, ?_⟩, fun ha p hp => ?_, fun p hg hp => ?_, h.empty⟩
    · rcases start_answer h hhash hp i with ⟨-, hleads⟩ | ⟨r, hr, hs, -⟩
      · exact (haborted p hp hleads).1
      · exact congrArg Provider.groupHash (hkept p hp r hr hs)
    · change Keeps (afterAttempt _ _ _ _ _ _) _ _ _ _
      rw [hkept last hlast r hrefused hfalse]
      exact hkeeps
    · change Keeps (afterAttempt _ _ _ _ _ _) _ _ _ _
      rcases start_answer h hhash hp i with ⟨ha', -⟩ | ⟨r, hr, hs, -⟩
      · rw [ha] at ha'
        cases ha'
      · rw [hkept p hp r hr hs]
        exact h.listed ha p hp
    · change ∃ j ≤ a.iteration, Keeps (afterAttempt _ _ _ _ _ _) s.handle.name false j noBlocks
      by_cases hlisted : p ∈ s.handle.pipelines
      · rcases start_answer h hhash hlisted i with ⟨ha, hleads⟩ | ⟨r, hr, hs, -⟩
        · obtain ⟨h0, -, hle⟩ := hn.resolve_left (by simp [ha])
          exact ⟨i - 1, pred_le h0 hle, (haborted p hlisted hleads).2⟩
        · rw [hkept p hlisted r hr hs]
          exact h.idle p hg hp
      · rw [hother _ (h.endpoint_notMem hg hlisted)]
        exact h.idle p hg hp

/-- A handle on the whole group. -/
theorem Represents.refreshed (h : Represents s a) (ha : a.active = false)
    {h' : DistributedPipelineHandle} (hname : h'.name = s.handle.name)
    (hid : h'.providerId = s.handle.providerId) (hpipelines : h'.pipelines = s.group)
    (hhash : h'.groupHash = hashOf s.view) : Represents { s with handle := h' } a := by
  obtain ⟨last, hlast, blocks, hkeeps⟩ := h.last
  have hgroup : Service.group { s with handle := h' } = s.group := by
    unfold Service.group
    rw [hname, hid]
  refine ⟨⟨hname.trans h.named.1, hid.trans h.named.2⟩, h.members, h.distinct, ⟨?_, ?_⟩,
    ?_, fun _ => hhash, ⟨last, ?_, blocks, ?_⟩, ?_, ?_, h.empty⟩
  · change h'.pipelines.Nodup
    rw [hpipelines]
    exact handles_nodup h.distinct s.handle.providerId s.handle.name
  · intro p hp
    change p ∈ Service.group { s with handle := h' }
    rw [hgroup, ← hpipelines]
    exact hp
  · rw [hgroup]
    exact h.hashes
  · rw [hpipelines]
    exact h.mem_group hlast
  · change Keeps _ h'.name _ _ _
    rw [hname]
    exact hkeeps
  · intro hactive
    rw [ha] at hactive
    cases hactive
  · intro p hg _
    rw [hgroup] at hg
    change ∃ j ≤ a.iteration, Keeps _ h'.name _ _ _
    rw [hname]
    exact h.idle p hg (Or.inl ha)

/-- With another hash every server refuses, and the handle is refreshed. -/
theorem start_retries (h : Represents s a) (hhash : s.handle.groupHash ≠ hashOf s.view)
    (i : UInt64) (fuel : ℕ) :
    ∃ h', h'.groupHash = hashOf s.view ∧
      s.start (fuel + 1) i = Service.start fuel { s with handle := h' } i ∧
      Represents { s with handle := h' } a := by
  have ha : a.active = false := by
    by_contra ha
    exact hhash (h.current (by simpa using ha))
  have hrefused : ∀ p ∈ s.handle.pipelines, ProviderHandlers.start idleEnvironment
      (s.server (endpoint p)) s.handle.groupHash p.name i = respond (s.server (endpoint p))
        (.failure .invalidGroupHash "Inconsistent group view") := by
    intro p hp
    refine start_hashRefused ?_
    rw [h.hashes p (h.mem_group hp)]
    exact hhash
  obtain ⟨last, hlast, -⟩ := h.last
  have hno : accepts idleEnvironment s.server s.handle i last = false := by
    rw [accepts_of_reply (r := .failure .invalidGroupHash "Inconsistent group view")
      (by rw [hrefused last hlast]; rfl)]
    rfl
  rcases attempt_served idleEnvironment s.view s.server s.handle i with ⟨hall, -⟩ | ⟨-, hattempt⟩
  · rw [hall last hlast] at hno
    cases hno
  have hretry : ((servers s.handle).any fun q => hashRefused
      ((servedBy idleEnvironment s.view s.server).start s.handle.groupHash q i)) = true := by
    obtain ⟨j, hj⟩ := exists_place hlast
    refine List.any_eq_true.mpr ⟨(last, j), hj, ?_⟩
    simp only [servedBy, hrefused last hlast]
    rfl
  rw [hretry] at hattempt
  have hserver : afterAttempt idleEnvironment s.view s.server s.handle i = s.server := by
    funext v
    by_cases hv : v ∈ s.handle.pipelines.map endpoint
    · obtain ⟨p, hp, rfl⟩ := List.mem_map.mp hv
      exact afterAttempt_refused h hattempt hp (hrefused p hp) rfl
    · exact afterAttempt_other hv
  obtain ⟨h', hr, hname, hid, -, hpipelines, hh'⟩ := refresh_result h.distinct
    (fun _ => servedBy idleEnvironment s.view s.server) s.handle 0 rfl
  refine ⟨h', hh', ?_, h.refreshed ha hname hid hpipelines hh'⟩
  simp only [Service.start, hattempt, Attempt.exit, if_true, hserver, hr]

theorem start_current (h : Represents s a) (hhash : s.handle.groupHash = hashOf s.view)
    (hi : i ≠ 0 ∨ a.iteration = 0) (fuel : ℕ) :
    ∃ t, s.start (fuel + 1) i = some (t, (a.perform (.start i)).2) ∧
      Represents t (a.perform (.start i)).1 := by
  by_cases hacc : a.accepts i
  · have hp : a.perform (.start i) = ({ a with active := true, iteration := i }, true) := by
      simp only [Store.perform, if_pos hacc]
    rw [hp]
    exact start_opens h hhash hacc fuel
  · have hp : a.perform (.start i) = (a, true) := by
      simp only [Store.perform, if_neg hacc]
    rw [hp]
    refine start_refused h hhash ?_ fuel
    by_cases ha : a.active = true
    · exact Or.inl ha
    · rw [Store.accepts, not_and, not_or, UInt64.not_lt] at hacc
      obtain ⟨h0, hle⟩ := hacc (by simpa using ha)
      exact Or.inr ⟨hi.resolve_right h0, h0, hle⟩

/-- Two attempts are enough. -/
theorem start_refines (h : Represents s a) (hi : i ≠ 0 ∨ a.iteration = 0) (fuel : ℕ) :
    ∃ t, s.start (fuel + 2) i = some (t, (a.perform (.start i)).2) ∧
      Represents t (a.perform (.start i)).1 := by
  by_cases hhash : s.handle.groupHash = hashOf s.view
  · exact start_current h hhash hi (fuel + 1)
  · obtain ⟨h', hh', hstart, hrep⟩ := start_retries h hhash i (fuel + 1)
    rw [hstart]
    exact start_current hrep hh' hi fuel

theorem Represents.grown (h : Represents s a) {view : View} {newcomers : Servers Datasets}
    (hg : Allowed a (.grow view newcomers)) :
    Represents (s.grow view newcomers) { a with members := view } := by
  obtain ⟨ha, hdistinct, hmembers, hnew⟩ := hg
  rw [← h.members] at hmembers hnew
  rw [← h.named.1, ← h.named.2] at hnew
  have hsubset : ∀ p ∈ s.group, p ∈ handles view s.handle.name s.handle.providerId := by
    intro p hp
    obtain ⟨m, hm, rfl⟩ := List.mem_map.mp hp
    exact List.mem_map_of_mem (hmembers m hm)
  -- a member keeps what it has, whatever its hash becomes
  have hkept : ∀ p ∈ s.group, ∀ {active j blocks},
      Keeps (s.server (endpoint p)) s.handle.name active j blocks →
      Keeps ((s.grow view newcomers).server (endpoint p)) s.handle.name active j blocks := by
    intro p hp active j blocks hk
    refine hk.congr ?_
    change (if endpoint p ∈ s.group.map endpoint then _ else _ : Provider Datasets).pipelines = _
    rw [if_pos (List.mem_map_of_mem hp)]
  obtain ⟨last, hlast, blocks, hk⟩ := h.last
  refine ⟨h.named, rfl, hdistinct, ⟨h.onView.nodup, fun p hp => hsubset p (h.mem_group hp)⟩,
    fun _ _ => rfl, fun hactive => ?_, ⟨last, hlast, blocks, hkept last (h.mem_group hlast) hk⟩,
    fun hactive => ?_, fun p hp _ => ?_, h.empty⟩
  · rw [ha] at hactive
    cases hactive
  · rw [ha] at hactive
    cases hactive
  · obtain ⟨m, hm, rfl⟩ := List.mem_map.mp hp
    by_cases hold : m ∈ s.view
    · have hmem : (⟨s.handle.name, m.2, s.handle.providerId⟩ : PipelineHandle) ∈ s.group :=
        List.mem_map_of_mem hold
      obtain ⟨j, hj, hk⟩ := h.idle _ hmem (Or.inl ha)
      exact ⟨j, hj, hkept _ hmem hk⟩
    · refine ⟨0, UInt64.zero_le, (hnew m hm hold).congr ?_⟩
      have hnot : (m.2, s.handle.providerId) ∉ s.group.map endpoint := by
        rw [List.mem_map]
        rintro ⟨q, hq, he⟩
        obtain ⟨m', hm', rfl⟩ := List.mem_map.mp hq
        have haddr : m'.2 = m.2 := congrArg Prod.fst he
        have hsame := List.inj_on_of_nodup_map hdistinct.addresses (hmembers m' hm') hm haddr
        exact hold (hsame ▸ hm')
      change (if (m.2, s.handle.providerId) ∈ s.group.map endpoint then _ else _ :
        Provider Datasets).pipelines = _
      rw [if_neg hnot]
      rfl

/-! ## Runs -/

theorem serve_refines (fuel : ℕ) (s : Service) (a : Store) (e : Event) (h : Represents s a)
    (hg : Allowed a e) :
    ∃ t, s.serve (fuel + 2) e = some (t, (a.perform e).2) ∧
      Represents t (next Store.perform a e) := by
  cases e with
  | start i => exact start_refines h hg fuel
  | stage i args pulled =>
    obtain ⟨hr, ht⟩ := stage_refines h i args pulled
    exact ⟨_, by rw [← hr]; rfl, ht⟩
  | execute i autoCleanup =>
    obtain ⟨hr, ht⟩ := execute_refines h i autoCleanup
    exact ⟨_, by rw [← hr]; rfl, ht⟩
  | cleanup i =>
    obtain ⟨hr, ht⟩ := cleanup_refines h i
    exact ⟨_, by rw [← hr]; rfl, ht⟩
  | grow view newcomers => exact ⟨_, rfl, h.grown hg⟩

/-- A handle with servers of a group whose members hold its view, with new pipelines. -/
structure Fresh (s : Service) : Prop where
  distinct : Distinct s.view
  onView : OnView s.view s.handle
  nonempty : s.handle.pipelines ≠ []
  members : ∀ p ∈ s.group, (s.server (endpoint p)).groupHash = hashOf s.view ∧
    Keeps (s.server (endpoint p)) s.handle.name false 0 noBlocks

/-- The store without blocks. -/
def Service.store (s : Service) : Store where
  name := s.handle.name
  providerId := s.handle.providerId
  members := s.view

theorem Fresh.represents (h : Fresh s) : Represents s s.store where
  named := ⟨rfl, rfl⟩
  members := rfl
  distinct := h.distinct
  onView := h.onView
  hashes p hp := (h.members p hp).1
  current := Bool.noConfusion
  last := by
    obtain ⟨p, hp⟩ := List.exists_mem_of_ne_nil _ h.nonempty
    exact ⟨p, hp, noBlocks, (h.members p (h.onView.members p hp)).2⟩
  listed := Bool.noConfusion
  idle p hp _ := ⟨0, UInt64.zero_le, (h.members p hp).2⟩
  empty _ := rfl

/-- In every run the calls end, with at most two attempts of each start, with the results of
one store, and the servers represent it. -/
theorem servers_refine_store (h : Fresh s) (events : List Event)
    (hg : Guarded Allowed s.store (path (next Store.perform) s.store events)) (fuel : ℕ) :
    ∃ t, calls (Service.serve (fuel + 2)) s events =
        some (t, answers Store.perform s.store events) ∧
      Represents t (events.foldl (next Store.perform) s.store) :=
  calls_refine (serve_refines fuel) h.represents hg

end Representing

/-! One member, which another one joins between two iterations. -/

def newServer (view : View) : Provider Datasets :=
  (ProviderHandlers.initial "" (hashOf view) []).register "p" ∅

theorem newServer_keeps (view : View) : Keeps (newServer view) "p" false 0 noBlocks := by
  refine ⟨⟨⟨0, ∅⟩, false, 0⟩, Finmap.lookup_insert _, rfl, rfl, fun j d b => ?_⟩
  rw [find_empty]
  simp [noBlocks]

def oneMember : Service where
  view := [(1, [97])]
  handle := oneServer
  server := fun _ => newServer [(1, [97])]

theorem oneMember_fresh : Fresh oneMember := by
  refine ⟨⟨by decide, by decide⟩, ⟨by decide, fun p hp => ?_⟩, by decide, fun p hp => ?_⟩
  · obtain rfl := List.mem_singleton.mp hp
    exact List.mem_cons_self ..
  · exact ⟨rfl, newServer_keeps _⟩

def growingRun : List Event :=
  [.start 1, .stage 1 (blockArgs 0) (.ok []), .stage 1 (blockArgs 0) (.ok []), .start 3,
    .stage 3 (blockArgs 1) (.ok []), .cleanup 1, .grow twoMembers fun _ => newServer twoMembers,
    .start 2, .stage 2 (blockArgs 0) (.ok []), .execute 2 true]

theorem servers_refine_store_while_growing :
    ∃ t, calls (Service.serve 2) oneMember growingRun =
      some (t, [true, true, false, true, false, true, true, true, true, true]) := by
  have hg : Guarded Allowed oneMember.store
      (path (next Store.perform) oneMember.store growingRun) := by
    refine ⟨Or.inl (by decide), trivial, trivial, Or.inl (by decide), trivial, trivial,
      ⟨rfl, ⟨by decide, by decide⟩, ?_, ?_⟩, Or.inl (by decide), trivial, trivial, trivial⟩
    · decide
    · exact fun m _ _ => newServer_keeps _
  obtain ⟨t, ht, -⟩ := servers_refine_store oneMember_fresh growingRun hg 0
  exact ⟨t, ht⟩

end ElasticStaging
