import Colza.ClientEras

/-!
# The order in which servers process the requests of a client

In every interleaving a server processes a beginning of whole iterations, and no run stops
before all iterations are done.
-/
namespace IterationOrder

open GuardedRuns Interfaces ProviderHandlers OpenIterations ClientHandles DistributedStart
open ServedStart ClientServers ClientEras
open ClientGroups (Channel)

variable {n : ℕ} {β : Type} {env : Endpoint → Environment β} {c : Client n} {view : View}
  {iterations done : List UInt64} {s t : State n β} {e : Era}

theorem requests_begin (h : Invariant c iterations e done s) {v : Endpoint}
    (hv : v ∈ c.endpoints) : ∃ l, Blocks c v iterations l ∧ s.requests v <+: l := by
  have hserver := h.servers v hv
  rw [h.iterations]
  generalize s.channel 0 v = x at hserver
  cases hserver with
  | before hserved => exact hserved.idle_begins
  | startSent hserved => exact hserved.idle_begins
  | started hserved _ => exact hserved.opened_begins (zero_add _)
  | staging hserved hall => exact hserved.opened_begins hall
  | executeSent hserved => exact hserved.opened_begins (add_zero _)
  | executeReplied hserved _ => exact hserved.executed_begins
  | executed hserved => exact hserved.executed_begins
  | cleanupSent hserved => exact hserved.executed_begins
  | @cleanupReplied i todo _ hserved _ =>
    have hassoc : done ++ i :: todo = done ++ [i] ++ todo := by simp
    change ∃ l, Blocks c v (done ++ i :: todo) l ∧ _
    rw [hassoc]
    exact hserved.idle_begins

theorem requests_finished (h : Invariant c iterations e done s) (hf : Finished s)
    {v : Endpoint} (hv : v ∈ c.endpoints) : Blocks c v iterations (s.requests v) := by
  have hroot := h.ranks 0
  rw [hf 0] at hroot
  have he : e = .before [] := by
    generalize s.oks 0 = oks at hroot
    cases hroot with
    | before _ => rfl
    | left hk _ => exact (hk rfl).elim
  subst he
  have hserver := h.servers v hv
  rw [h.iterations]
  change Blocks c v (done ++ []) _
  rw [List.append_nil]
  generalize s.channel 0 v = x at hserver
  cases hserver with
  | before hserved =>
    cases hserved with
    | idle hblocks _ _ => exact hblocks

section Progress

theorem no_barrier (hstuck : Stuck env c s) :
    ¬ ∀ k, ∃ place, pass k (s.place k) = some place := by
  intro hall
  choose places hplaces using hall
  obtain ⟨v, hv⟩ := hstuck _ _ (.barrier places hplaces)
  cases hv

/-- A server that has a request can process it. -/
theorem no_request (hstuck : Stuck env c s) (hb : ∀ v, Succeeds (env v).backend)
    (hinc : iterations.Pairwise (· < ·)) (h : Invariant c iterations e done s) (k : Fin (n + 1))
    (v : Endpoint) (r : Request) : s.channel k v ≠ .request r := by
  intro hch
  obtain ⟨result, hr, -⟩ := h.succeeded hb hinc hch
  obtain ⟨v', hv'⟩ := hstuck _ _ (.process hch hr)
  cases hv'

/-- What rank 0 has got from a server, if it is a reply. -/
def replyOf : Channel → RequestResult Int32
  | .reply result => result
  | _ => {}

/-- Without a request in flight rank 0 has all its replies. -/
theorem all_replied (h : Invariant c iterations e done s) (he : e.Rpc)
    (hnone : ∀ v r, s.channel 0 v ≠ .request r) :
    Replied c s fun p => replyOf (s.channel 0 (endpoint p)) := by
  intro p hp
  have hserver := h.servers _ (endpoint_mem hp)
  have hno := hnone (endpoint p)
  dsimp only
  generalize s.channel 0 (endpoint p) = x at hserver hno ⊢
  cases he with
  | start i todo =>
    cases hserver with
    | startSent _ => exact (hno _ rfl).elim
    | started _ _ => rfl
  | execute i todo =>
    cases hserver with
    | executeSent _ => exact (hno _ rfl).elim
    | executeReplied _ _ => rfl
  | cleanup i todo =>
    cases hserver with
    | cleanupSent _ => exact (hno _ rfl).elim
    | cleanupReplied _ _ => rfl

/-- A rank that stages gets to the next barrier. -/
theorem all_staged (hstuck : Stuck env c s) (hc : c.OnView view) (hview : view ≠ [])
    {i : UInt64} {todo : List UInt64} (h : Invariant c iterations (.staging i todo) done s)
    (hnone : ∀ k v r, s.channel k v ≠ .request r) (k : Fin (n + 1)) :
    s.place k = .staging i [] todo := by
  have hrank := h.ranks k
  have hno := hnone k
  generalize hplace : s.place k = place at hrank ⊢
  generalize hoks : s.oks k = oks at hrank
  generalize hch : s.channel k = ch at hrank hno
  cases hrank with
  | told _ _ =>
    obtain ⟨v, hv⟩ := hstuck _ _ (.receive hplace hoks)
    cases hv
  | @staging _ calls _ _ _ =>
    cases calls with
    | nil => rfl
    | cons args calls =>
      have hne : (c.handle k).pipelines ≠ [] := by
        rw [hc.pipelines k, handles]
        simpa using hview
      obtain ⟨p, -, ht⟩ := stageTarget_mem hne args.datasetName i args.blockId
      obtain ⟨v, hv⟩ := hstuck _ _ (.stage hplace ht)
      cases hv
  | sent args _ _ hsent => exact (hno _ _ hsent).elim
  | answered _ _ hanswered _ =>
    obtain ⟨v, hv⟩ := hstuck _ _ (.staged hplace (hch ▸ hanswered))
    cases hv

/-- No run stops before all ranks have done all iterations. -/
theorem finished_of_stuck (hstuck : Stuck env c s) (hc : c.OnView view) (hview : view ≠ [])
    (hb : ∀ v, Succeeds (env v).backend) (hinc : iterations.Pairwise (· < ·))
    (h : Invariant c iterations e done s) : Finished s := by
  have hnone := no_request hstuck hb hinc h
  have hroot := h.ranks 0
  cases e with
  | before todo =>
    have hplace : ∀ k, s.place k = .start todo := by
      intro k
      have hrank := h.ranks k
      generalize s.place k = place at hrank ⊢
      generalize s.oks k = oks at hrank
      cases hrank with
      | before _ => rfl
    cases todo with
    | nil => exact hplace
    | cons i todo =>
      refine (no_barrier hstuck fun k => ?_).elim
      rw [hplace]
      exact ⟨_, rfl⟩
  | staging i todo =>
    refine (no_barrier hstuck fun k => ?_).elim
    rw [all_staged hstuck hc hview h hnone k]
    exact ⟨_, rfl⟩
  | executed i todo =>
    refine (no_barrier hstuck fun k => ?_).elim
    have hrank := h.ranks k
    generalize s.place k = place at hrank ⊢
    generalize s.oks k = oks at hrank
    cases hrank with
    | executed _ => exact ⟨_, rfl⟩
  | starting i todo =>
    have hreplied := all_replied h (.start i todo) (hnone 0)
    generalize hplace : s.place 0 = place at hroot
    generalize s.oks 0 = oks at hroot
    cases hroot with
    | starting _ _ =>
      obtain ⟨v, hv⟩ := hstuck _ _ (.decide _ hplace hreplied)
      cases hv
    | waiting hk _ => exact (hk rfl).elim
  | executing i todo =>
    have hreplied := all_replied h (.execute i todo) (hnone 0)
    generalize hplace : s.place 0 = place at hroot
    generalize s.oks 0 = oks at hroot
    cases hroot with
    | executing _ _ =>
      obtain ⟨v, hv⟩ := hstuck _ _ (.executed _ hplace hreplied)
      cases hv
    | passed hk _ => exact (hk rfl).elim
  | cleaning i todo =>
    have hreplied := all_replied h (.cleanup i todo) (hnone 0)
    generalize hplace : s.place 0 = place at hroot
    generalize s.oks 0 = oks at hroot
    cases hroot with
    | cleaning _ _ =>
      obtain ⟨v, hv⟩ := hstuck _ _ (.cleaned _ hplace hreplied)
      cases hv
    | left hk _ => exact (hk rfl).elim

end Progress

/-- For any number of ranks and servers, in every interleaving. A server has always processed
a beginning of whole iterations in their order, every request has succeeded, and no run stops
before all iterations are done. -/
theorem requests_in_order (hc : c.OnView view) (hb : ∀ v, Succeeds (env v).backend)
    (hinc : iterations.Pairwise (· < ·)) (hs : Fresh c view iterations s)
    (h : Reaches (Step env c) s t) :
    (∀ v ∈ c.endpoints, (∃ l, Blocks c v iterations l ∧ t.requests v <+: l) ∧
      (Finished t → Blocks c v iterations (t.requests v))) ∧
    (∀ v, ∀ x ∈ t.log v, x.2.success = true) ∧
    (view ≠ [] → Stuck env c t → Finished t) := by
  obtain ⟨e, done, hinv⟩ := invariant_reachable hc hb hinc hs h
  refine ⟨fun v hv => ⟨requests_begin hinv hv, fun hf => requests_finished hinv hf hv⟩,
    hinv.replies, fun hview hstuck => ?_⟩
  exact finished_of_stuck hstuck hc hview hb hinc hinv

/-! Two ranks and two servers: each rank stages one block, with its rank as the block id. -/

def blockOf (k : Fin 2) : StageArgs :=
  ⟨"na+sm://1", "mydata", UInt64.ofNat k, [32, 54], [0, 0], .float64, ⟨[]⟩⟩

def twoRanks : Client 1 where
  handle _ := { twoServers with groupHash := hashOf twoMembers }
  calls k _ := [blockOf k]

def notStarted : State 1 Unit :=
  ⟨fun _ => .start [0, 7], fun _ => [], fun _ _ => .quiet, fun _ => readyProvider, fun _ => []⟩

theorem first_iteration_staged :
    ∃ t, Reaches (Step (fun _ => ProviderRuns.acceptingEnvironment) twoRanks) notStarted t ∧
      t.requests ([98], 0) = [startRequest twoRanks 0, .stage "p" 0 (blockOf 1)] ∧
      (∃ l, Blocks twoRanks ([98], 0) [0, 7] l ∧ t.requests ([98], 0) <+: l) ∧
      ∀ x ∈ t.log ([98], 0), x.2.success = true := by
  have h : Reaches (Step (fun _ => ProviderRuns.acceptingEnvironment) twoRanks) notStarted
    notStarted := .refl
  have h := h.snoc (.barrier (fun k => if k = 0 then .starting 0 [7] else .waitingOk 0 [7])
    fun _ => rfl)
  have h := h.snoc (.process (k := 0) (v := ([98], 0)) rfl rfl)
  have h := h.snoc (.process (k := 0) (v := ([97], 0)) rfl rfl)
  have h := h.snoc (.decide (fun _ => {}) rfl (by decide))
  have h := h.snoc (.receive (k := 1) rfl rfl)
  have h := h.snoc (.stage (k := 1) (p := ⟨"p", [98], 0⟩) rfl rfl)
  have h := h.snoc (.process (k := 1) (v := ([98], 0)) rfl rfl)
  have hview : twoRanks.OnView twoMembers := ⟨⟨by decide, by decide⟩, fun _ => rfl, rfl⟩
  have hfresh : Fresh twoRanks twoMembers [0, 7] notStarted :=
    ⟨fun _ => rfl, fun _ => rfl, fun _ _ => rfl, fun _ => rfl, fun _ _ => rfl,
      fun _ _ => ⟨_, Finmap.lookup_insert _, rfl, rfl⟩⟩
  have hall := requests_in_order hview
    (fun _ => ⟨fun _ _ => rfl, fun _ _ _ => rfl, fun _ _ => rfl, fun _ _ => rfl⟩) (by decide)
    hfresh h
  exact ⟨_, h, rfl, (hall.1 ([98], 0) (by decide)).1, hall.2.1 _⟩

end IterationOrder
