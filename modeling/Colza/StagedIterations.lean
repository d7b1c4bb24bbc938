import Colza.IterationOrder
import Colza.StagingServers
import Mathlib.Data.Set.List

/-!
# The blocks that an iteration runs on

The ranks of a client stage their blocks at the same time, each block on the server that the hash
function chooses. When a server executes an iteration it keeps the blocks of all ranks that are
meant for it, with the bytes that the ranks have exposed, and nothing else.
-/
namespace StagedIterations

open GuardedRuns Interfaces ProviderHandlers OpenIterations ClientHandles DistributedStart
open ServedStart ClientServers ClientEras IterationOrder StagedBlocks StagingServers
open ClientGroups (Channel)

variable {n : ℕ}

/-! ## Blocks and requests -/

/-- The servers pull the blocks from the memory of the ranks, and every transfer succeeds. -/
def pulling (bytes : StageArgs → List UInt8) : Environment Datasets :=
  dummyEnvironment fun args => .ok (bytes args)

def key (args : StageArgs) : String × UInt64 := (args.datasetName, args.blockId)

/-- The hash function sends the block to this server. -/
def goesTo (h : DistributedPipelineHandle) (v : Endpoint) (i : UInt64) (args : StageArgs) : Bool :=
  match stageTarget h args.datasetName i args.blockId with
  | .ok p => endpoint p = v
  | .error _ => false

/-- The blocks of all ranks for one server. -/
def sentTo (c : Client n) (v : Endpoint) (i : UInt64) : Multiset StageArgs :=
  ∑ k, (((c.calls k i).filter (goesTo (c.handle k) v i) : List StageArgs) : Multiset StageArgs)

/-- No two calls of `stage` in the iteration have the same dataset name and block id. -/
def DistinctBlocks (c : Client n) (i : UInt64) : Prop :=
  (∑ k, (((c.calls k i).map key : List (String × UInt64)) : Multiset (String × UInt64))).Nodup

section Content

variable (bytes : StageArgs → List UInt8)

def put (blocks : Blocks) (args : StageArgs) : Blocks :=
  Function.update blocks (key args) (some (newBlock args (bytes args)))

/-- What is kept after a request that has succeeded. -/
def after (blocks : Blocks) : Request → Blocks
  | .stage _ _ args => put bytes blocks args
  | .start .. | .cleanup .. => noBlocks
  | _ => blocks

def content (requests : List Request) : Blocks := requests.foldl (after bytes) noBlocks

variable {bytes}

theorem content_concat (requests : List Request) (r : Request) :
    content bytes (requests ++ [r]) = after bytes (content bytes requests) r := by
  unfold content
  rw [List.foldl_append]
  rfl

/-- Blocks with different keys do not get in each other's way. -/
theorem put_all {sent : List StageArgs} (hn : (sent.map key).Nodup) (x : String × UInt64)
    (block : DataBlock) :
    sent.foldl (put bytes) noBlocks x = some block ↔
      ∃ args ∈ sent, key args = x ∧ block = newBlock args (bytes args) := by
  induction sent using List.reverseRecOn with
  | nil => simp [noBlocks]
  | append_singleton sent a ih =>
    rw [List.map_append, List.map_singleton, List.nodup_append] at hn
    rw [List.foldl_append, List.foldl_cons, List.foldl_nil, put]
    by_cases hx : key a = x
    · subst hx
      rw [Function.update_self]
      constructor
      · intro h
        exact ⟨a, List.mem_append_right _ (List.mem_singleton_self a), rfl,
          (Option.some.inj h).symm⟩
      · rintro ⟨args, hargs, hk, rfl⟩
        rcases List.mem_append.mp hargs with hargs | hargs
        · exact (hn.2.2 _ (List.mem_map_of_mem hargs) _ (List.mem_singleton_self _) hk).elim
        · rw [List.mem_singleton.mp hargs]
    · rw [Function.update_of_ne (Ne.symm hx), ih hn.1]
      constructor
      · rintro ⟨args, hargs, hk⟩
        exact ⟨args, List.mem_append_left _ hargs, hk⟩
      · rintro ⟨args, hargs, hk, hb⟩
        rcases List.mem_append.mp hargs with hargs | hargs
        · exact ⟨args, hargs, hk, hb⟩
        · rw [List.mem_singleton.mp hargs] at hk
          exact (hx hk).elim

end Content

section Sent

variable {c : Client n} {view : View} {v : Endpoint} {i : UInt64}

theorem stage_injective (name : String) (i : UInt64) :
    Function.Injective (Request.stage name i) := fun _ _ h => (Request.stage.inj h).2.2

theorem addressed_eq (hc : c.OnView view) (k : Fin (n + 1)) (v : Endpoint) (i : UInt64)
    (calls : List StageArgs) :
    addressed (c.handle k) v i calls =
      (calls.filter (goesTo (c.handle k) v i)).map (.stage c.name i) := by
  induction calls with
  | nil => rfl
  | cons args calls ih =>
    unfold addressed at ih ⊢
    cases ht : stageTarget (c.handle k) args.datasetName i args.blockId with
    | error e =>
      have hnone : stageRequest (c.handle k) v i args = none := by simp only [stageRequest, ht]
      have hgoes : goesTo (c.handle k) v i args = false := by simp only [goesTo, ht]
      rw [List.filterMap_cons_none hnone, List.filter_cons_of_neg (by simp [hgoes]), ih]
    | ok p =>
      have hname : p.name = c.name := name_of_mem hc (target_mem hc ht)
      by_cases hp : endpoint p = v
      · have hsome : stageRequest (c.handle k) v i args = some (.stage c.name i args) := by
          simp only [stageRequest, ht, hp, if_true, hname]
        have hgoes : goesTo (c.handle k) v i args = true := by simp [goesTo, ht, hp]
        rw [List.filterMap_cons_some hsome, List.filter_cons_of_pos hgoes, ih, List.map_cons]
      · have hnone : stageRequest (c.handle k) v i args = none := by
          simp only [stageRequest, ht, hp, if_false]
        have hgoes : goesTo (c.handle k) v i args = false := by simp [goesTo, ht, hp]
        rw [List.filterMap_cons_none hnone, List.filter_cons_of_neg (by simp [hgoes]), ih]

theorem stageRequests_eq (hc : c.OnView view) (v : Endpoint) (i : UInt64) :
    stageRequests c v i = (sentTo c v i).map (.stage c.name i) := by
  unfold stageRequests sentTo
  rw [← Multiset.coe_mapAddMonoidHom, map_sum]
  refine Finset.sum_congr rfl fun k _ => ?_
  rw [addressed_eq hc]
  rfl

theorem sentTo_nodup (hd : DistinctBlocks c i) : ((sentTo c v i).map key).Nodup := by
  refine Multiset.nodup_of_le ?_ hd
  unfold sentTo
  rw [← Multiset.coe_mapAddMonoidHom, map_sum]
  refine Finset.sum_le_sum fun k _ => ?_
  exact Multiset.map_le_map (Multiset.coe_le.mpr List.filter_sublist.subperm)

/-- What an open iteration has taken are blocks of the ranks, and they are kept. -/
theorem opened_content {done : List UInt64} {s : Provider Datasets} {requests : List Request}
    {stages : Multiset Request} (hc : c.OnView view) (hd : DistinctBlocks c i)
    (h : Served c v done s requests (.opened i stages)) (hle : stages ≤ stageRequests c v i)
    (bytes : StageArgs → List UInt8) :
    ∃ sent ≤ sentTo c v i, stages = sent.map (.stage c.name i) ∧ ∀ x block,
      content bytes requests x = some block ↔
        ∃ args ∈ sent, key args = x ∧ block = newBlock args (bytes args) := by
  cases h with
  | @opened _ l stages hblocks hrequests hactive =>
    rw [stageRequests_eq hc] at hle
    have hmem : ∀ r ∈ stages, r ∈ Set.range (Request.stage c.name i) := by
      intro r hr
      obtain ⟨args, -, hargs⟩ := Multiset.mem_map.mp (Multiset.mem_of_le hle hr)
      exact ⟨args, hargs⟩
    obtain ⟨sent, rfl⟩ : stages ∈ Set.range (List.map (Request.stage c.name i)) := by
      rw [Set.range_list_map]
      exact hmem
    have hsent : (sent : Multiset StageArgs) ≤ sentTo c v i := by
      rwa [← Multiset.map_coe, Multiset.map_le_map_iff (stage_injective c.name i)] at hle
    refine ⟨sent, hsent, rfl, fun x block => ?_⟩
    have hcontent : content bytes requests = sent.foldl (put bytes) noBlocks := by
      unfold content
      rw [hrequests, List.foldl_append, List.foldl_cons, List.foldl_map]
      rfl
    have hnodup : (sent.map key).Nodup :=
      Multiset.coe_nodup.mp (Multiset.nodup_of_le (Multiset.map_le_map hsent) (sentTo_nodup hd))
    rw [hcontent, put_all hnodup]
    rfl

end Sent

/-! ## A server that passes over blocks that are there -/

section Lenient

variable (bytes : StageArgs → List UInt8)

/-- The same backend class, except that `stage` has no error. -/
def lenient : Environment Datasets :=
  { pulling bytes with
    backend := { (pulling bytes).backend with
      stage := fun m i args => ({ value := some 0 }, ((pulling bytes).backend.stage m i args).2) } }

theorem lenient_succeeds : Succeeds (lenient bytes).backend where
  start _ _ := rfl
  stage _ _ _ := rfl
  execute _ _ := rfl
  cleanup _ _ := rfl

variable {bytes}

/-- Without such a block there is no difference. -/
theorem process_lenient {s : Provider Datasets} {r : Request}
    (h : ∀ name i args, r = .stage name i args → ∀ st, s.pipelines.lookup name = some st →
      alreadyExists st.pipeline.state i args = false) :
    process (lenient bytes) s r = process (pulling bytes) s r := by
  cases r with
  | stage name i args =>
    change stage (lenient bytes) s name i args = stage (pulling bytes) s name i args
    unfold stage onActive
    cases hl : s.pipelines.lookup name with
    | none => rfl
    | some st =>
      have hnew := h name i args rfl st hl
      have hstage : (lenient bytes).backend.stage st.pipeline.state i args =
          (pulling bytes).backend.stage st.pipeline.state i args := by
        simp [lenient, pulling, dummyEnvironment, DummyPipeline, DummyPipeline.stage, hnew]
      simp only [hstage]
  | createPipeline | destroyPipeline | checkPipeline | start | execute | cleanup | abort | leave =>
    rfl

end Lenient

/-! ## One step -/

/-- A server keeps what its requests have put there, and nothing between two iterations. -/
def Holds (bytes : StageArgs → List UInt8) (c : Client n) (s : Provider Datasets)
    (requests : List Request) : Prop :=
  ∃ active i, Keeps s c.name active i (content bytes requests) ∧
    (active = false → content bytes requests = noBlocks)

section Steps

variable {bytes : StageArgs → List UInt8} {c : Client n} {view : View}
  {iterations done : List UInt64} {s t : State n Datasets} {e : Era} {k : Fin (n + 1)}
  {v : Endpoint} {r : Request} {i : UInt64}

theorem Holds.congr {u u' : Provider Datasets} {requests : List Request}
    (h : Holds bytes c u requests)
    (hl : u'.pipelines.lookup c.name = u.pipelines.lookup c.name) : Holds bytes c u' requests := by
  obtain ⟨active, j, ⟨st, hst, hkept⟩, hnone⟩ := h
  exact ⟨active, j, ⟨st, hl.trans hst, hkept⟩, hnone⟩

theorem Holds.inactive {u : Provider Datasets} {requests : List Request}
    (h : Holds bytes c u requests) (hi : InactiveAt u c.name i) :
    Keeps u c.name false i noBlocks := by
  obtain ⟨active, j, ⟨st, hl, rfl, rfl, hfind⟩, hnone⟩ := h
  obtain ⟨st', hl', hst, rfl⟩ := hi
  obtain rfl : st = st' := Option.some.inj (hl.symm.trans hl')
  rw [hnone hst] at hfind
  exact ⟨st, hl, hst, rfl, hfind⟩

theorem Holds.active {u : Provider Datasets} {requests : List Request}
    (h : Holds bytes c u requests) (ha : ActiveAt u c.name i) :
    Keeps u c.name true i (content bytes requests) := by
  obtain ⟨active, j, ⟨st, hl, rfl, rfl, hfind⟩, -⟩ := h
  obtain ⟨st', hl', hst, rfl⟩ := ha
  obtain rfl : st = st' := Option.some.inj (hl.symm.trans hl')
  exact ⟨st, hl, hst, rfl, hfind⟩

theorem holds_of_keeps {u : Provider Datasets} {requests : List Request} {active : Bool}
    (hk : Keeps u c.name active i (after bytes (content bytes requests) r))
    (hnone : active = false → after bytes (content bytes requests) r = noBlocks) :
    Holds bytes c u (requests ++ [r]) := by
  rw [← content_concat] at hk hnone
  exact ⟨active, i, hk, hnone⟩

/-- The two backend classes do the same, and the server keeps what it is to keep. -/
def Processes (bytes : StageArgs → List UInt8) (c : Client n) (u : Provider Datasets)
    (requests : List Request) (r : Request) : Prop :=
  process (lenient bytes) u r = process (pulling bytes) u r ∧
    Holds bytes c (process (pulling bytes) u r).provider (requests ++ [r])

section Server

variable {u : Provider Datasets} {requests : List Request} {left : Multiset Request}

/-- A request of rank 0. -/
theorem processes_rpc (hg : u.groupHash = (c.handle 0).groupHash) (he : e.Rpc)
    (h : ServerAt c v done u requests left e (.request r)) (hh : Holds bytes c u requests) :
    Processes bytes c u requests r := by
  cases he with
  | start i todo =>
    cases h with
    | startSent hserved =>
      cases hserved with
      | @idle _ j hblocks hi hj =>
        refine ⟨process_lenient fun _ _ _ hr => (by cases hr), ?_⟩
        have hleads : Leads (start (pulling bytes) u u.groupHash c.name i) u c.name true true i
            noBlocks := start_accepts (hh.inactive hi) (hj i (List.mem_cons_self ..))
        rw [hg] at hleads
        exact holds_of_keeps hleads.keeps Bool.noConfusion
  | execute i todo =>
    cases h with
    | executeSent hserved =>
      generalize stageRequests c v i = all at hserved
      cases hserved with
      | opened hblocks hr ha =>
        refine ⟨process_lenient fun _ _ _ hr => (by cases hr), ?_⟩
        have hleads : Leads (execute (pulling bytes) u c.name i false) u c.name true true i
            (content bytes requests) := execute_runs (hh.active ha)
        exact holds_of_keeps hleads.keeps Bool.noConfusion
  | cleanup i todo =>
    cases h with
    | cleanupSent hserved =>
      cases hserved with
      | executed hblocks hall hr ha =>
        refine ⟨process_lenient fun _ _ _ hr => (by cases hr), ?_⟩
        have hleads : Leads (cleanup (pulling bytes) u c.name i) u c.name true false i noBlocks :=
          cleanup_closes (hh.active ha)
        exact holds_of_keeps hleads.keeps fun _ => rfl

/-- A block that is still to be staged is not there. -/
theorem processes_stage (hc : c.OnView view) (hd : DistinctBlocks c i) {stages : Multiset Request}
    {args : StageArgs} (h : Served c v done u requests (.opened i stages))
    (hle : stages + {.stage c.name i args} ≤ stageRequests c v i) (hh : Holds bytes c u requests) :
    Processes bytes c u requests (.stage c.name i args) := by
  obtain ⟨sent, -, hstages, hcontent⟩ := opened_content hc hd h
    ((Multiset.le_add_right _ _).trans hle) bytes
  have hnew : key args ∉ sent.map key := by
    rw [hstages, stageRequests_eq hc, ← Multiset.map_singleton, ← Multiset.map_add,
      Multiset.map_le_map_iff (stage_injective c.name i)] at hle
    have hnodup := Multiset.nodup_of_le (Multiset.map_le_map hle) (sentTo_nodup (v := v) hd)
    rw [Multiset.map_add, Multiset.map_singleton, add_comm, Multiset.singleton_add] at hnodup
    exact (Multiset.nodup_cons.mp hnodup).1
  have hnone : content bytes requests (args.datasetName, args.blockId) = none := by
    cases hx : content bytes requests (args.datasetName, args.blockId) with
    | none => rfl
    | some block =>
      obtain ⟨args', hmem, hkey, -⟩ := (hcontent _ _).mp hx
      exact (hnew (Multiset.mem_map.mpr ⟨args', hmem, hkey⟩)).elim
  have hkeeps : Keeps u c.name true i (content bytes requests) := by
    cases h with
    | opened hblocks hr ha => exact hh.active ha
  refine ⟨process_lenient ?_, ?_⟩
  · intro name i' args' hr st hl
    obtain ⟨rfl, rfl, rfl⟩ := Request.stage.inj hr
    obtain ⟨st', hl', -, -, hfind⟩ := hkeeps
    obtain rfl : st = st' := Option.some.inj (hl.symm.trans hl')
    simp [alreadyExists, hfind, hnone]
  · have hleads : Leads (stage (pulling bytes) u c.name i args) u c.name true true i
        (put bytes (content bytes requests) args) := stage_stores hkeeps hnone rfl
    exact holds_of_keeps hleads.keeps Bool.noConfusion

end Server

/-- The stage request of a rank is one of those that are still to be processed. -/
theorem request_pending {p : PipelineHandle} {calls : List StageArgs} {todo : List UInt64}
    (hplace : s.place k = .awaiting i p calls todo) (hch : s.channel k v = .request r) :
    {r} ≤ allPending c s v := by
  have hsingle : pending c k v (s.place k) (s.channel k v) ≤ allPending c s v :=
    Finset.single_le_sum (f := fun k => pending c k v (s.place k) (s.channel k v))
      (fun _ _ => Multiset.zero_le _) (Finset.mem_univ k)
  refine le_trans ?_ hsingle
  rw [hplace, hch]
  exact Multiset.le_add_right _ _

theorem processes (hc : c.OnView view) (hd : ∀ i ∈ iterations, DistinctBlocks c i)
    (h : Invariant c iterations e done s) (hch : s.channel k v = .request r)
    (hh : ∀ v ∈ c.endpoints, Holds bytes c (s.server v) (s.requests v)) :
    Processes bytes c (s.server v) (s.requests v) r := by
  rcases (h.ranks k).request hch with
    ⟨rfl, hv, he, -, -⟩ | ⟨i, todo, p, calls, args, rfl, hplace, -, hp, rfl, rfl, -⟩
  · have hserver := h.servers v hv
    rw [hch] at hserver
    exact processes_rpc (h.groupHash v hv) he hserver (hh v hv)
  · have hv := endpoint_mem hp
    have hserver := h.servers _ hv
    have hleft : {.stage c.name i args} ≤ allPending c s (endpoint p) :=
      request_pending hplace hch
    have hi : i ∈ iterations := by
      rw [h.iterations]
      exact List.mem_append_right _ (List.mem_cons_self ..)
    generalize s.channel 0 (endpoint p) = x at hserver
    cases hserver with
    | staging hserved hall =>
      refine processes_stage hc (hd i hi) hserved ?_ (hh _ hv)
      rw [← hall]
      exact Multiset.add_le_add_left hleft

/-- Servers that process the requests in flight alike take the same steps. -/
theorem step_congr {β : Type} {env env' : Endpoint → Environment β} {s t : State n β}
    {event : Event n} (h : ∀ k v r, s.channel k v = .request r →
      process (env v) (s.server v) r = process (env' v) (s.server v) r)
    (hs : Step env c s event t) : Step env' c s event t := by
  cases hs with
  | barrier places hp => exact .barrier places hp
  | process hch hr =>
    rw [h _ _ _ hch] at hr ⊢
    exact .process hch hr
  | decide replies hplace hr => exact .decide replies hplace hr
  | receive hplace hoks => exact .receive hplace hoks
  | stage hplace ht => exact .stage hplace ht
  | staged hplace hreply => exact .staged hplace hreply
  | executed replies hplace hr => exact .executed replies hplace hr
  | cleaned replies hplace hr => exact .cleaned replies hplace hr
  | others v u hg hl => exact .others v u hg hl

theorem holds_step {event : Event n} (hc : c.OnView view)
    (hd : ∀ i ∈ iterations, DistinctBlocks c i) (h : Invariant c iterations e done s)
    (hh : ∀ v ∈ c.endpoints, Holds bytes c (s.server v) (s.requests v))
    (hs : Step (fun _ => pulling bytes) c s event t) :
    ∀ v ∈ c.endpoints, Holds bytes c (t.server v) (t.requests v) := by
  cases hs with
  | @process k v r result hch hr =>
    intro v' hv'
    by_cases hv : v' = v
    · subst hv
      rw [serve_server_self, serve_requests_self]
      exact (processes hc hd h hch hh).2
    · have hrequests : (s.serve k v r (process (pulling bytes) (s.server v) r).provider
          result).requests v' = s.requests v' := by
        rw [State.requests, serve_log_of_ne hv]
        rfl
      rw [serve_server_of_ne hv, hrequests]
      exact hh v' hv'
  | others v u hg hl =>
    intro v' hv'
    change Holds bytes c (Function.update s.server v u v') (s.requests v')
    by_cases hv : v' = v
    · subst hv
      rw [Function.update_self]
      exact (hh v' hv').congr hl
    · rw [Function.update_of_ne hv]
      exact hh v' hv'
  | barrier | decide | receive | stage | staged | executed | cleaned => exact hh

end Steps

/-! ## Runs -/

section Runs

variable {bytes : StageArgs → List UInt8} {c : Client n} {view : View}
  {iterations : List UInt64} {s t : State n Datasets}

/-- Every server begins with a pipeline without blocks. -/
def Empty (c : Client n) (s : State n Datasets) : Prop :=
  ∀ v ∈ c.endpoints, Keeps (s.server v) c.name false 0 noBlocks

theorem reachable (hc : c.OnView view) (hinc : iterations.Pairwise (· < ·))
    (hd : ∀ i ∈ iterations, DistinctBlocks c i) (hs : Fresh c view iterations s)
    (hempty : Empty c s) (h : Reaches (Step (fun _ => pulling bytes) c) s t) :
    (∃ e done, Invariant c iterations e done t) ∧
      ∀ v ∈ c.endpoints, Holds bytes c (t.server v) (t.requests v) := by
  have hstep : ∀ s event t, ((∃ e done, Invariant c iterations e done s) ∧
      ∀ v ∈ c.endpoints, Holds bytes c (s.server v) (s.requests v)) →
      Step (fun _ => pulling bytes) c s event t →
      (∃ e done, Invariant c iterations e done t) ∧
        ∀ v ∈ c.endpoints, Holds bytes c (t.server v) (t.requests v) := by
    rintro s event t ⟨⟨e, done, hi⟩, hh⟩ hstep
    refine ⟨?_, holds_step hc hd hi hh hstep⟩
    have hlenient : Step (fun _ => lenient bytes) c s event t :=
      step_congr (fun k v r hch => (processes hc hd hi hch hh).1.symm) hstep
    exact invariant_step hc (fun _ => lenient_succeeds bytes) hinc hi hlenient
  refine h.invariant hstep ⟨⟨_, _, invariant_fresh hc hs⟩, fun v hv => ?_⟩
  have hlog : s.requests v = [] := by rw [State.requests, hs.log, List.map_nil]
  rw [hlog]
  exact ⟨false, 0, hempty v hv, fun _ => rfl⟩

/-- A request for an execution finds all blocks. -/
theorem executes_on_all {e : Era} {done : List UInt64} {k : Fin (n + 1)} {v : Endpoint}
    {i : UInt64} (hc : c.OnView view) (hd : ∀ i ∈ iterations, DistinctBlocks c i)
    (h : Invariant c iterations e done t)
    (hh : ∀ v ∈ c.endpoints, Holds bytes c (t.server v) (t.requests v))
    (hch : t.channel k v = .request (.execute c.name i false)) :
    ∃ blocks, Keeps (t.server v) c.name true i blocks ∧ ∀ x block,
      blocks x = some block ↔
        ∃ args ∈ sentTo c v i, key args = x ∧ block = newBlock args (bytes args) := by
  rcases (h.ranks k).request hch with ⟨rfl, hv, he, -, -⟩ | ⟨_, _, _, _, _, -, -, -, -, -, hr, -⟩
  · have hserver := h.servers v hv
    have hi : i ∈ e.remaining → i ∈ iterations := fun hi => by
      rw [h.iterations]
      exact List.mem_append_right _ hi
    rw [hch] at hserver
    generalize hx : Channel.request (.execute c.name i false) = x at hserver
    cases hserver with
    | startSent => cases hx
    | cleanupSent => cases hx
    | started | executeReplied | cleanupReplied => cases hx
    | before | staging | executed => cases he
    | executeSent hserved =>
      cases hx
      have hactive : ActiveAt (t.server v) c.name i := by
        generalize stageRequests c v i = all at hserved
        cases hserved with
        | opened hblocks hr ha => exact ha
      obtain ⟨sent, -, hstages, hcontent⟩ := opened_content hc (hd i (hi (List.mem_cons_self ..)))
        hserved le_rfl bytes
      rw [stageRequests_eq hc] at hstages
      obtain rfl : sentTo c v i = sent :=
        Multiset.map_injective (stage_injective c.name i) hstages
      exact ⟨_, (hh v hv).active hactive, hcontent⟩
  · cases hr

/-- Between the iterations nothing is kept. -/
theorem finished_empty {e : Era} {done : List UInt64}
    (h : Invariant c iterations e done t)
    (hh : ∀ v ∈ c.endpoints, Holds bytes c (t.server v) (t.requests v)) (hf : Finished t) :
    ∀ v ∈ c.endpoints, ∃ i, Keeps (t.server v) c.name false i noBlocks := by
  intro v hv
  have hroot := h.ranks 0
  rw [hf 0] at hroot
  have hserver := h.servers v hv
  generalize t.oks 0 = oks at hroot
  generalize t.channel 0 = ch at hroot hserver
  cases hroot with
  | before _ =>
    generalize ch v = x at hserver
    cases hserver with
    | before hserved =>
      cases hserved with
      | @idle _ j hblocks hi hj => exact ⟨j, (hh v hv).inactive hi⟩
  | left hk _ => exact (hk rfl).elim

/-- Every block of a rank is meant for a server. -/
theorem sentTo_some (hc : c.OnView view) (hview : view ≠ []) {k : Fin (n + 1)} {i : UInt64}
    {args : StageArgs} (hargs : args ∈ c.calls k i) : ∃ v ∈ c.endpoints, args ∈ sentTo c v i := by
  have hne : (c.handle k).pipelines ≠ [] := by
    rw [hc.pipelines k, handles]
    simpa using hview
  obtain ⟨p, -, ht⟩ := stageTarget_mem hne args.datasetName i args.blockId
  refine ⟨endpoint p, endpoint_mem (target_mem hc ht), ?_⟩
  refine Multiset.mem_sum.mpr ⟨k, Finset.mem_univ k, ?_⟩
  rw [Multiset.mem_coe, List.mem_filter]
  exact ⟨hargs, by simp [goesTo, ht]⟩

/-- What holds in every state that the ranks and the servers reach. -/
structure Complete (bytes : StageArgs → List UInt8) (c : Client n) (view : View)
    (t : State n Datasets) : Prop where
  executes : ∀ k v i, t.channel k v = .request (.execute c.name i false) →
    ∃ blocks, Keeps (t.server v) c.name true i blocks ∧ ∀ x block,
      blocks x = some block ↔
        ∃ args ∈ sentTo c v i, key args = x ∧ block = newBlock args (bytes args)
  placed : view ≠ [] → ∀ k i, ∀ args ∈ c.calls k i, ∃ v ∈ c.endpoints, args ∈ sentTo c v i
  succeed : ∀ v, ∀ x ∈ t.log v, x.2.success = true
  finishes : view ≠ [] → Stuck (fun _ => pulling bytes) c t → Finished t
  empty : Finished t → ∀ v ∈ c.endpoints, ∃ i, Keeps (t.server v) c.name false i noBlocks

/-- For any number of ranks and servers, in every interleaving. -/
theorem iterations_complete (hc : c.OnView view) (hinc : iterations.Pairwise (· < ·))
    (hd : ∀ i ∈ iterations, DistinctBlocks c i) (hs : Fresh c view iterations s)
    (hempty : Empty c s) (h : Reaches (Step (fun _ => pulling bytes) c) s t) :
    Complete bytes c view t := by
  obtain ⟨⟨e, done, hi⟩, hh⟩ := reachable hc hinc hd hs hempty h
  refine ⟨fun k v i => executes_on_all hc hd hi hh, fun hview k i args => sentTo_some hc hview,
    hi.replies, fun hview hstuck => ?_, finished_empty hi hh⟩
  have hlenient : Stuck (fun _ => lenient bytes) c t := fun event u hu =>
    hstuck event u (step_congr (fun k v r hch => (processes hc hd hi hch hh).1) hu)
  exact finished_of_stuck hlenient hc hview (fun _ => lenient_succeeds bytes) hinc hi

end Runs

/-! Two ranks and two servers, up to the execution of the first iteration. -/

def newServers : State 1 Datasets :=
  ⟨fun _ => .start [0, 7], fun _ => [], fun _ _ => .quiet,
    fun _ => (ProviderHandlers.initial "" (hashOf twoMembers) []).register "p" ∅, fun _ => []⟩

theorem first_iteration_complete :
    ∃ t, Reaches (Step (fun _ => pulling fun _ => [7]) twoRanks) newServers t ∧
      t.channel 0 ([98], 0) = .request (.execute "p" 0 false) ∧
      Complete (fun _ => [7]) twoRanks twoMembers t := by
  have h : Reaches (Step (fun _ => pulling fun _ => [7]) twoRanks) newServers newServers := .refl
  have h := h.snoc (.barrier (fun k => if k = 0 then .starting 0 [7] else .waitingOk 0 [7])
    fun _ => rfl)
  have h := h.snoc (.process (k := 0) (v := ([98], 0)) rfl rfl)
  have h := h.snoc (.process (k := 0) (v := ([97], 0)) rfl rfl)
  have h := h.snoc (.decide (fun _ => { value := some 0 }) rfl (by decide))
  have h := h.snoc (.receive (k := 1) rfl rfl)
  have h := h.snoc (.stage (k := 1) (p := ⟨"p", [98], 0⟩) rfl rfl)
  have h := h.snoc (.stage (k := 0) (p := ⟨"p", [97], 0⟩) rfl rfl)
  have h := h.snoc (.process (k := 1) (v := ([98], 0)) rfl rfl)
  have h := h.snoc (.process (k := 0) (v := ([97], 0)) rfl rfl)
  have h := h.snoc (.staged (k := 0) rfl rfl)
  have h := h.snoc (.staged (k := 1) rfl rfl)
  have h := h.snoc (.barrier (fun k => if k = 0 then .executing 0 [7] else .cleanup 0 [7])
    (Fin.forall_fin_two.mpr ⟨rfl, rfl⟩))
  have hview : twoRanks.OnView twoMembers := ⟨⟨by decide, by decide⟩, fun _ => rfl, rfl⟩
  have hfresh : Fresh twoRanks twoMembers [0, 7] newServers :=
    ⟨fun _ => rfl, fun _ => rfl, fun _ _ => rfl, fun _ => rfl, fun _ _ => rfl,
      fun _ _ => ⟨_, Finmap.lookup_insert _, rfl, rfl⟩⟩
  have hempty : Empty twoRanks newServers := by
    refine fun v _ => ⟨_, Finmap.lookup_insert _, rfl, rfl, fun j d b => ?_⟩
    rw [find_empty]
    simp [noBlocks]
  have hd : ∀ i ∈ [0, 7], DistinctBlocks twoRanks i := by
    intro i _
    change (∑ k : Fin 2,
      (([blockOf k].map key : List (String × UInt64)) : Multiset (String × UInt64))).Nodup
    decide
  exact ⟨_, h, rfl, iterations_complete hview (by decide) hd hfresh hempty h⟩

end StagedIterations
