import Colza.ClientGroups
import Colza.ServedStart
import Mathlib.Algebra.BigOperators.Fin
import Mathlib.Algebra.Order.Group.Multiset

/-!
# The iterations of one client

Every rank of a client runs `start`, any number of synchronous calls of `stage`, `execute`
and `cleanup` for each iteration of a list. Rank 0 talks to the servers for all ranks, other
than in `stage`. A request or its reply is in flight until it is delivered, in any order.
A server that processes whole iterations in their order answers each request with a success.
-/
namespace ClientServers

open Interfaces ProviderHandlers OpenIterations ClientHandles DistributedStart ServedStart
open ClientGroups (Channel)

abbrev Endpoint := Address × UInt16

/-- Where a rank is. The iterations after the current one are still to do. `start` and
`cleanup` are at the barrier of these calls, and so is `staging` without calls at the one
of `execute`. -/
inductive Place where
  | start (todo : List UInt64)
  | starting (i : UInt64) (todo : List UInt64)
  | waitingOk (i : UInt64) (todo : List UInt64)
  | staging (i : UInt64) (calls : List StageArgs) (todo : List UInt64)
  | awaiting (i : UInt64) (p : PipelineHandle) (calls : List StageArgs) (todo : List UInt64)
  | executing (i : UInt64) (todo : List UInt64)
  | cleanup (i : UInt64) (todo : List UInt64)
  | cleaning (i : UInt64) (todo : List UInt64)
  | refused
  | threw

/-- The handles of the ranks, and what they stage in each iteration. -/
structure Client (n : ℕ) where
  handle : Fin (n + 1) → DistributedPipelineHandle
  calls : Fin (n + 1) → UInt64 → List StageArgs

/-- `oks` are the broadcasts that a rank has not taken, and `log` what a server has
processed, with its replies. -/
structure State (n : ℕ) (β : Type) where
  place : Fin (n + 1) → Place
  oks : Fin (n + 1) → List Bool
  channel : Fin (n + 1) → Endpoint → Channel
  server : Endpoint → Provider β
  log : Endpoint → List (Request × RequestResult Int32)

inductive Event (n : ℕ) where
  | barrier
  | process (k : Fin (n + 1)) (v : Endpoint)
  | decide
  | receive (k : Fin (n + 1))
  | stage (k : Fin (n + 1))
  | staged (k : Fin (n + 1))
  | executed
  | cleaned
  | others (v : Endpoint)

variable {n : ℕ} {β : Type}

namespace Client

variable (c : Client n)

def name : String := (c.handle 0).name

/-- The pipelines that rank 0 sends to. -/
def pipelines : List PipelineHandle := (c.handle 0).pipelines

def endpoints : List Endpoint := c.pipelines.map endpoint

end Client

/-- Where a rank goes from a barrier, if it is at one. The other ranks return from `execute`
and `cleanup` at once. -/
def pass (k : Fin (n + 1)) : Place → Option Place
  | .start (i :: todo) => some (if k = 0 then .starting i todo else .waitingOk i todo)
  | .staging i [] todo => some (if k = 0 then .executing i todo else .cleanup i todo)
  | .cleanup i todo => some (if k = 0 then .cleaning i todo else .start todo)
  | _ => none

/-- One request to each of the pipelines. -/
def post (pipelines : List PipelineHandle) (request : PipelineHandle → Request) (v : Endpoint) :
    Channel :=
  match pipelines.find? fun p => endpoint p = v with
  | some p => .request (request p)
  | none => .quiet

/-- What rank 0 sends after a barrier. -/
def sends (h : DistributedPipelineHandle) : Place → Endpoint → Channel
  | .starting i _ => post h.pipelines fun p => .start h.groupHash p.name i
  | .executing i _ => post h.pipelines fun p => .execute p.name i false
  | .cleaning i _ => post h.pipelines fun p => .cleanup p.name i
  | _ => fun _ => .quiet

/-- The flag that an attempt broadcasts. -/
def broadcastOk {σ : Type} : Attempt σ → Bool
  | .decided _ ok _ _ => ok
  | .threw _ _ => false

namespace State

def goto (s : State n β) (k : Fin (n + 1)) (place : Place) (channel : Endpoint → Channel) :
    State n β :=
  { s with place := Function.update s.place k place
           channel := Function.update s.channel k channel }

/-- A server has processed a request of rank `k`. -/
def serve (s : State n β) (k : Fin (n + 1)) (v : Endpoint) (r : Request) (t : Provider β)
    (result : RequestResult Int32) : State n β :=
  { s with
    channel := Function.update s.channel k (Function.update (s.channel k) v (.reply result))
    server := Function.update s.server v t
    log := Function.update s.log v (s.log v ++ [(r, result)]) }

def requests (s : State n β) (v : Endpoint) : List Request := (s.log v).map Prod.fst

/-- Rank 0 does not receive its own broadcast. -/
def broadcast (s : State n β) (ok : Bool) : State n β :=
  { s with oks := fun k => if k = 0 then s.oks k else s.oks k ++ [ok] }

end State

/-- Every pipeline of rank 0 has replied. -/
def Replied (c : Client n) (s : State n β) (replies : PipelineHandle → RequestResult Int32) :
    Prop :=
  ∀ p ∈ c.pipelines, s.channel 0 (endpoint p) = .reply (replies p)

instance (c : Client n) (s : State n β) (replies : PipelineHandle → RequestResult Int32) :
    Decidable (Replied c s replies) :=
  inferInstanceAs (Decidable (∀ p ∈ c.pipelines, s.channel 0 (endpoint p) = .reply (replies p)))

/-- An attempt that is refused is not followed further, and a rank that throws leaves its
loop. Other clients do not use the pipeline. -/
inductive Step (env : Endpoint → Environment β) (c : Client n) (s : State n β) :
    Event n → State n β → Prop where
  | barrier (places : Fin (n + 1) → Place) : (∀ k, pass k (s.place k) = some (places k)) →
      Step env c s .barrier { s with
        place := places
        channel := Function.update s.channel 0 (sends (c.handle 0) (places 0)) }
  | process {k v r result} : s.channel k v = .request r →
      (process (env v) (s.server v) r).reply = some result → Step env c s (.process k v)
        (s.serve k v r (process (env v) (s.server v) r).provider result)
  | decide {i todo} (replies : PipelineHandle → RequestResult Int32) :
      s.place 0 = .starting i todo → Replied c s replies → Step env c s .decide
        (let a := runAttempt (fun p => .reply (replies p)) (fun _ => .reply {}) c.pipelines
         let ok := broadcastOk a
         (s.broadcast ok).goto 0 (if ok then .staging i (c.calls 0 i) todo else .refused)
          fun _ => .quiet)
  | receive {k i todo ok oks} : s.place k = .waitingOk i todo → s.oks k = ok :: oks →
      Step env c s (.receive k) ({ s with oks := Function.update s.oks k oks }.goto k
        (if ok then .staging i (c.calls k i) todo else .refused) fun _ => .quiet)
  | stage {k i args calls todo p} : s.place k = .staging i (args :: calls) todo →
      stageTarget (c.handle k) args.datasetName i args.blockId = .ok p →
      Step env c s (.stage k) (s.goto k (.awaiting i p calls todo)
        (post [p] fun p => .stage p.name i args))
  | staged {k i p calls todo result} : s.place k = .awaiting i p calls todo →
      s.channel k (endpoint p) = .reply result → Step env c s (.staged k)
        (s.goto k (if result.success then .staging i calls todo else .threw) fun _ => .quiet)
  | executed {i todo} (replies : PipelineHandle → RequestResult Int32) :
      s.place 0 = .executing i todo → Replied c s replies → Step env c s .executed
        (s.goto 0 (if c.pipelines.all fun p => (replies p).success then .cleanup i todo else .threw)
          fun _ => .quiet)
  | cleaned {i todo} (replies : PipelineHandle → RequestResult Int32) :
      s.place 0 = .cleaning i todo → Replied c s replies → Step env c s .cleaned
        (s.goto 0 (if c.pipelines.all fun p => (replies p).success then .start todo else .threw)
          fun _ => .quiet)
  | others (v : Endpoint) (t : Provider β) : t.groupHash = (s.server v).groupHash →
      t.pipelines.lookup c.name = (s.server v).pipelines.lookup c.name → Step env c s (.others v)
        { s with server := Function.update s.server v t }

/-- The handles list the pipelines of the whole view, and rank 0 has its hash. -/
structure Client.OnView (c : Client n) (view : View) : Prop where
  distinct : Distinct view
  pipelines : ∀ k, (c.handle k).pipelines = handles view c.name (c.handle 0).providerId
  groupHash : (c.handle 0).groupHash = hashOf view

/-- No call has been made, every server holds the view, and its pipeline is new. -/
structure Fresh (c : Client n) (view : View) (iterations : List UInt64) (s : State n β) : Prop where
  place : ∀ k, s.place k = .start iterations
  oks : ∀ k, s.oks k = []
  channel : ∀ k v, s.channel k v = .quiet
  log : ∀ v, s.log v = []
  groupHash : ∀ v ∈ c.endpoints, (s.server v).groupHash = hashOf view
  pipeline : ∀ v ∈ c.endpoints, InactiveAt (s.server v) c.name 0

def Finished (s : State n β) : Prop := ∀ k, s.place k = .start []

/-- Neither a rank nor a server can go on. -/
def Stuck (env : Endpoint → Environment β) (c : Client n) (s : State n β) : Prop :=
  ∀ e t, Step env c s e t → ∃ v, e = .others v

/-! ## What a step leaves as it is -/

section Frame

variable {c : Client n} {view : View} {s : State n β} {k : Fin (n + 1)}

theorem name_of_mem (hc : c.OnView view) {p : PipelineHandle} (hp : p ∈ c.pipelines) :
    p.name = c.name := by
  rw [Client.pipelines, hc.pipelines] at hp
  exact name_of_mem_handles hp

theorem endpoint_mem {p : PipelineHandle} (hp : p ∈ c.pipelines) : endpoint p ∈ c.endpoints :=
  List.mem_map_of_mem hp

/-- Blocks go to the pipelines of rank 0. -/
theorem target_mem (hc : c.OnView view) {k : Fin (n + 1)} {p : PipelineHandle}
    {datasetName : String} {i blockId : UInt64}
    (h : stageTarget (c.handle k) datasetName i blockId = .ok p) : p ∈ c.pipelines := by
  have hne : (c.handle k).pipelines ≠ [] := by
    intro hnil
    rw [stageTarget, dif_pos (List.length_eq_zero_iff.mpr hnil)] at h
    cases h
  obtain ⟨p', hp', h'⟩ := stageTarget_mem hne datasetName i blockId
  obtain rfl : p' = p := Except.ok.inj (h'.symm.trans h)
  rw [hc.pipelines k] at hp'
  rw [Client.pipelines, hc.pipelines 0]
  exact hp'

theorem post_of_mem (hc : c.OnView view) {v : Endpoint} (hv : v ∈ c.endpoints)
    (request : String → Request) :
    post c.pipelines (fun p => request p.name) v = .request (request c.name) := by
  unfold post
  cases hf : c.pipelines.find? fun p => decide (endpoint p = v) with
  | none =>
    obtain ⟨p, hp, rfl⟩ := List.mem_map.mp hv
    rw [List.find?_eq_none] at hf
    exact (hf p hp (by simp)).elim
  | some p =>
    simp only [name_of_mem hc (List.mem_of_find?_eq_some hf)]

theorem post_of_notMem {pipelines : List PipelineHandle} {request : PipelineHandle → Request}
    {v : Endpoint} (hv : v ∉ pipelines.map endpoint) : post pipelines request v = .quiet := by
  unfold post
  cases hf : pipelines.find? fun p => decide (endpoint p = v) with
  | none => rfl
  | some p =>
    have he : endpoint p = v := by simpa using List.find?_some hf
    exact (hv (List.mem_map.mpr ⟨p, List.mem_of_find?_eq_some hf, he⟩)).elim

theorem post_single (p : PipelineHandle) (request : PipelineHandle → Request) :
    post [p] request (endpoint p) = .request (request p) := by
  simp [post]

section Serve

variable {v : Endpoint} {r : Request} {u : Provider β} {result : RequestResult Int32}

theorem serve_channel {j : Fin (n + 1)} {v' : Endpoint} (hne : j ≠ k ∨ v' ≠ v) :
    (s.serve k v r u result).channel j v' = s.channel j v' := by
  by_cases hj : j = k
  · subst hj
    have hv : v' ≠ v := hne.resolve_left fun hne => hne rfl
    simp [State.serve, hv]
  · simp [State.serve, hj]

theorem serve_channel_self : (s.serve k v r u result).channel k v = .reply result := by
  simp [State.serve]

theorem serve_server_of_ne {v' : Endpoint} (hv : v' ≠ v) :
    (s.serve k v r u result).server v' = s.server v' := Function.update_of_ne hv ..

theorem serve_server_self : (s.serve k v r u result).server v = u := Function.update_self ..

theorem serve_log_of_ne {v' : Endpoint} (hv : v' ≠ v) :
    (s.serve k v r u result).log v' = s.log v' := Function.update_of_ne hv ..

theorem serve_log_self : (s.serve k v r u result).log v = s.log v ++ [(r, result)] :=
  Function.update_self ..

end Serve

section Goto

variable {place : Place} {ch : Endpoint → Channel}

theorem goto_place_self : (s.goto k place ch).place k = place := Function.update_self ..

theorem goto_channel_self : (s.goto k place ch).channel k = ch := Function.update_self ..

theorem goto_place_of_ne {j : Fin (n + 1)} (hj : j ≠ k) :
    (s.goto k place ch).place j = s.place j := Function.update_of_ne hj ..

theorem goto_channel_of_ne {j : Fin (n + 1)} (hj : j ≠ k) :
    (s.goto k place ch).channel j = s.channel j := Function.update_of_ne hj ..

end Goto

end Frame

/-! ## The order of the requests -/

/-- The stage request to a server, if the block is addressed to it. -/
def stageRequest (h : DistributedPipelineHandle) (v : Endpoint) (i : UInt64) (args : StageArgs) :
    Option Request :=
  match stageTarget h args.datasetName i args.blockId with
  | .ok p => if endpoint p = v then some (.stage p.name i args) else none
  | .error _ => none

def addressed (h : DistributedPipelineHandle) (v : Endpoint) (i : UInt64) (calls : List StageArgs) :
    List Request :=
  calls.filterMap (stageRequest h v i)

/-- The stage requests of all ranks that are addressed to a server in an iteration. -/
def stageRequests (c : Client n) (v : Endpoint) (i : UInt64) : Multiset Request :=
  ∑ k, (addressed (c.handle k) v i (c.calls k i) : Multiset Request)

def startRequest (c : Client n) (i : UInt64) : Request := .start (c.handle 0).groupHash c.name i

/-- What a server processes in an iteration, in this order. -/
def IsBlock (c : Client n) (v : Endpoint) (i : UInt64) (l : List Request) : Prop :=
  ∃ stages : List Request, (stages : Multiset Request) = stageRequests c v i ∧
    l = startRequest c i :: (stages ++ [.execute c.name i false, .cleanup c.name i])

/-- What a server processes in these iterations, one after the other. -/
def Blocks (c : Client n) (v : Endpoint) (iterations : List UInt64) (l : List Request) : Prop :=
  ∃ blocks, List.Forall₂ (IsBlock c v) iterations blocks ∧ l = blocks.flatten

/-! ## Blocks -/

section Blocks

variable {c : Client n} {v : Endpoint} {done todo : List UInt64} {l l' b r : List Request}
  {i : UInt64}

theorem Blocks.append (h : Blocks c v done l) (h' : Blocks c v todo l') :
    Blocks c v (done ++ todo) (l ++ l') := by
  obtain ⟨bs, hbs, rfl⟩ := h
  obtain ⟨bs', hbs', rfl⟩ := h'
  exact ⟨bs ++ bs', List.rel_append hbs hbs', List.flatten_append.symm⟩

theorem Blocks.single (h : IsBlock c v i b) : Blocks c v [i] b := by
  refine ⟨[b], .cons h .nil, ?_⟩
  rw [List.flatten_singleton]

theorem exists_block (c : Client n) (v : Endpoint) (i : UInt64) : ∃ b, IsBlock c v i b :=
  ⟨_, _, Multiset.coe_toList _, rfl⟩

theorem exists_blocks (c : Client n) (v : Endpoint) (todo : List UInt64) :
    ∃ l, Blocks c v todo l := by
  induction todo with
  | nil => exact ⟨[], [], .nil, rfl⟩
  | cons i todo ih =>
    obtain ⟨l, hl⟩ := ih
    obtain ⟨b, hb⟩ := exists_block c v i
    exact ⟨b ++ l, (Blocks.single hb).append hl⟩

/-- Whole iterations and a part of the next one. -/
theorem Blocks.extends (h : Blocks c v done l) (hb : IsBlock c v i (b ++ r)) :
    ∃ t, Blocks c v (done ++ i :: todo) t ∧ l ++ b <+: t := by
  obtain ⟨l', hl'⟩ := exists_blocks c v todo
  have hall := h.append ((Blocks.single hb).append hl')
  refine ⟨_, hall, r ++ l', ?_⟩
  simp only [List.append_assoc]

end Blocks

/-! ## What a server has processed -/

/-- Where a server is. In an open iteration it has processed these stage requests. -/
inductive ServerPlace where
  | idle (todo : List UInt64)
  | opened (i : UInt64) (stages : Multiset Request)
  | executed (i : UInt64)

/-- The requests that a server has processed and the state of its pipeline, after the
iterations that are done. -/
inductive Served (c : Client n) (v : Endpoint) (done : List UInt64) (s : Provider β)
    (requests : List Request) : ServerPlace → Prop where
  | idle {todo j} : Blocks c v done requests → InactiveAt s c.name j →
      (∀ i ∈ todo, j = 0 ∨ j < i) → Served c v done s requests (.idle todo)
  | opened {i} {l stages : List Request} : Blocks c v done l →
      requests = l ++ startRequest c i :: stages → ActiveAt s c.name i →
      Served c v done s requests (.opened i (stages : Multiset Request))
  | executed {i} {l stages : List Request} : Blocks c v done l →
      (stages : Multiset Request) = stageRequests c v i →
      requests = l ++ startRequest c i :: (stages ++ [.execute c.name i false]) →
      ActiveAt s c.name i → Served c v done s requests (.executed i)

section Served

variable {c : Client n} {v : Endpoint} {done todo : List UInt64} {s t : Provider β}
  {requests : List Request} {i : UInt64} {env : Environment β} {at' : ServerPlace}

theorem Served.congr (h : Served c v done s requests at')
    (hl : t.pipelines.lookup c.name = s.pipelines.lookup c.name) :
    Served c v done t requests at' := by
  cases h with
  | idle hb hi hj =>
    apply Served.idle hb _ hj
    obtain ⟨st, hst, ha⟩ := hi
    exact ⟨st, hl.trans hst, ha⟩
  | opened hb hr ha =>
    apply Served.opened hb hr
    obtain ⟨st, hst, ha⟩ := ha
    exact ⟨st, hl.trans hst, ha⟩
  | executed hb hs hr ha =>
    apply Served.executed hb hs hr
    obtain ⟨st, hst, ha⟩ := ha
    exact ⟨st, hl.trans hst, ha⟩

/-- A request succeeds and leaves the server there. -/
def Serves (env : Environment β) (c : Client n) (v : Endpoint) (done : List UInt64)
    (s : Provider β) (requests : List Request) (r : Request) (at' : ServerPlace) : Prop :=
  (process env s r).succeeded ∧ Served c v done (process env s r).provider (requests ++ [r]) at'

theorem Served.start (hb : Succeeds env.backend) (hg : s.groupHash = (c.handle 0).groupHash)
    (h : Served c v done s requests (.idle (i :: todo))) :
    Serves env c v done s requests (startRequest c i) (.opened i 0) := by
  cases h with
  | idle hblocks hi hj =>
    have hready : ReadyFor env s c.name i := hi.ready hb (hj i (List.mem_cons_self ..))
    have hacc : StartAccepted env s (c.handle 0).groupHash c.name i := hg ▸ hready.start_accepted
    obtain ⟨hs, ha⟩ := activeAt_start hacc
    exact ⟨hs, .opened hblocks rfl ha⟩

theorem Served.stage (hb : Succeeds env.backend) {stages : Multiset Request}
    (h : Served c v done s requests (.opened i stages)) (args : StageArgs) :
    Serves env c v done s requests (.stage c.name i args)
      (.opened i (stages + {.stage c.name i args})) := by
  cases h with
  | @opened _ l stages hblocks hr ha =>
    obtain ⟨hs, ha⟩ := activeAt_stage hb ha args
    have hadd : (stages : Multiset Request) + {.stage c.name i args} =
        ((stages ++ [.stage c.name i args] : List Request) : Multiset Request) := rfl
    rw [hadd]
    refine ⟨hs, .opened hblocks ?_ ha⟩
    rw [hr]
    simp only [List.append_assoc, List.cons_append]

theorem Served.execute (hb : Succeeds env.backend)
    (h : Served c v done s requests (.opened i (stageRequests c v i))) :
    Serves env c v done s requests (.execute c.name i false) (.executed i) := by
  generalize hall : stageRequests c v i = all at h
  cases h with
  | @opened _ l stages hblocks hr ha =>
    obtain ⟨hs, ha⟩ := activeAt_execute hb ha
    refine ⟨hs, .executed hblocks hall.symm ?_ ha⟩
    rw [hr]
    simp only [List.append_assoc, List.cons_append]

theorem Served.cleanup (hb : Succeeds env.backend) (htodo : ∀ j ∈ todo, i < j)
    (h : Served c v done s requests (.executed i)) :
    Serves env c v (done ++ [i]) s requests (.cleanup c.name i) (.idle todo) := by
  cases h with
  | @executed _ l stages hblocks hall hr ha =>
    obtain ⟨hs, hi⟩ := inactiveAt_cleanup hb ha
    refine ⟨hs, .idle ?_ hi fun j hj => Or.inr (htodo j hj)⟩
    have hblock : IsBlock c v i
        (startRequest c i :: (stages ++ [.execute c.name i false, .cleanup c.name i])) :=
      ⟨stages, hall, rfl⟩
    have hdone := hblocks.append (.single hblock)
    rw [hr]
    simpa only [List.append_assoc, List.cons_append, List.nil_append] using hdone

/-- What has been processed is the beginning of all that there is to process. -/
theorem Served.idle_begins (h : Served c v done s requests (.idle todo)) :
    ∃ l, Blocks c v (done ++ todo) l ∧ requests <+: l := by
  cases h with
  | idle hblocks _ _ =>
    obtain ⟨l, hl⟩ := exists_blocks c v todo
    exact ⟨_, hblocks.append hl, List.prefix_append ..⟩

theorem Served.opened_begins {stages left : Multiset Request}
    (h : Served c v done s requests (.opened i stages))
    (hall : stages + left = stageRequests c v i) :
    ∃ l, Blocks c v (done ++ i :: todo) l ∧ requests <+: l := by
  cases h with
  | @opened _ l stages hblocks hr _ =>
    rw [hr]
    apply hblocks.extends (r := left.toList ++ [.execute c.name i false, .cleanup c.name i])
    refine ⟨stages ++ left.toList, ?_, ?_⟩
    · rw [← Multiset.coe_add, Multiset.coe_toList, hall]
    · simp only [List.append_assoc, List.cons_append]

theorem Served.executed_begins (h : Served c v done s requests (.executed i)) :
    ∃ l, Blocks c v (done ++ i :: todo) l ∧ requests <+: l := by
  cases h with
  | @executed _ l stages hblocks hall hr _ =>
    rw [hr]
    apply hblocks.extends (r := [.cleanup c.name i])
    refine ⟨stages, hall, ?_⟩
    simp only [List.append_assoc, List.cons_append, List.nil_append]

end Served

end ClientServers
