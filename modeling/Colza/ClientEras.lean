import Colza.ClientServers
import Colza.FiniteCounts
import Colza.GuardedRuns

/-!
# What holds between two barriers

Rank 0 says where the client is: between two barriers every other rank is in one of a few
places, and every server has processed the requests of the iterations that are done and a
part of those of the current one.
-/
namespace ClientEras

open FiniteCounts GuardedRuns Interfaces ProviderHandlers OpenIterations ClientHandles
open DistributedStart ServedStart ClientServers
open ClientGroups (Channel)

variable {n : ℕ} {β : Type}

/-- Where rank 0 is, and with it the client. -/
inductive Era where
  | before (todo : List UInt64)
  | starting (i : UInt64) (todo : List UInt64)
  | staging (i : UInt64) (todo : List UInt64)
  | executing (i : UInt64) (todo : List UInt64)
  | executed (i : UInt64) (todo : List UInt64)
  | cleaning (i : UInt64) (todo : List UInt64)

/-- The iterations that are not done. -/
def Era.remaining : Era → List UInt64
  | .before todo => todo
  | .starting i todo | .staging i todo | .executing i todo | .executed i todo | .cleaning i todo =>
    i :: todo

/-- The next era, if all ranks are at a barrier. -/
def Era.next : Era → Option Era
  | .before (i :: todo) => some (.starting i todo)
  | .staging i todo => some (.executing i todo)
  | .executed i todo => some (.cleaning i todo)
  | _ => none

def Quiet (channel : Endpoint → Channel) : Prop := ∀ v, channel v = .quiet

/-- Rank 0 has something in flight with its own servers only. -/
def Outside (c : Client n) (channel : Endpoint → Channel) : Prop :=
  ∀ v, v ∉ c.endpoints → channel v = .quiet

def Only (p : PipelineHandle) (channel : Endpoint → Channel) : Prop :=
  ∀ v, v ≠ endpoint p → channel v = .quiet

/-- Where a rank may be, the broadcasts it has not taken and what it has in flight. -/
inductive RankAt (c : Client n) (k : Fin (n + 1)) :
    Era → Place → List Bool → (Endpoint → Channel) → Prop where
  | before {todo ch} : Quiet ch → RankAt c k (.before todo) (.start todo) [] ch
  | starting {i todo ch} : k = 0 → Outside c ch →
      RankAt c k (.starting i todo) (.starting i todo) [] ch
  | waiting {i todo ch} : k ≠ 0 → Quiet ch → RankAt c k (.starting i todo) (.waitingOk i todo) [] ch
  | told {i todo ch} : k ≠ 0 → Quiet ch → RankAt c k (.staging i todo) (.waitingOk i todo) [true] ch
  | staging {i calls todo ch} : Quiet ch →
      RankAt c k (.staging i todo) (.staging i calls todo) [] ch
  | sent {i p calls todo ch} (args : StageArgs) : p ∈ c.pipelines → Only p ch →
      ch (endpoint p) = .request (.stage c.name i args) →
      RankAt c k (.staging i todo) (.awaiting i p calls todo) [] ch
  | answered {i p calls todo ch result} : p ∈ c.pipelines → Only p ch →
      ch (endpoint p) = .reply result → result.success = true →
      RankAt c k (.staging i todo) (.awaiting i p calls todo) [] ch
  | executing {i todo ch} : k = 0 → Outside c ch →
      RankAt c k (.executing i todo) (.executing i todo) [] ch
  | passed {i todo ch} : k ≠ 0 → Quiet ch → RankAt c k (.executing i todo) (.cleanup i todo) [] ch
  | executed {i todo ch} : Quiet ch → RankAt c k (.executed i todo) (.cleanup i todo) [] ch
  | cleaning {i todo ch} : k = 0 → Outside c ch →
      RankAt c k (.cleaning i todo) (.cleaning i todo) [] ch
  | left {i todo ch} : k ≠ 0 → Quiet ch → RankAt c k (.cleaning i todo) (.start todo) [] ch

/-- A server, and what is in flight between it and rank 0, other than a stage request. The
multiset are the stage requests that are still to be processed. -/
inductive ServerAt (c : Client n) (v : Endpoint) (done : List UInt64) (s : Provider β)
    (requests : List Request) (left : Multiset Request) : Era → Channel → Prop where
  | before {todo ch} : Served c v done s requests (.idle todo) →
      ServerAt c v done s requests left (.before todo) ch
  | startSent {i todo} : Served c v done s requests (.idle (i :: todo)) →
      ServerAt c v done s requests left (.starting i todo) (.request (startRequest c i))
  | started {i todo result} : Served c v done s requests (.opened i 0) → result.success = true →
      ServerAt c v done s requests left (.starting i todo) (.reply result)
  | staging {i todo stages ch} : Served c v done s requests (.opened i stages) →
      stages + left = stageRequests c v i → ServerAt c v done s requests left (.staging i todo) ch
  | executeSent {i todo} : Served c v done s requests (.opened i (stageRequests c v i)) →
      ServerAt c v done s requests left (.executing i todo) (.request (.execute c.name i false))
  | executeReplied {i todo result} : Served c v done s requests (.executed i) →
      result.success = true → ServerAt c v done s requests left (.executing i todo) (.reply result)
  | executed {i todo ch} : Served c v done s requests (.executed i) →
      ServerAt c v done s requests left (.executed i todo) ch
  | cleanupSent {i todo} : Served c v done s requests (.executed i) →
      ServerAt c v done s requests left (.cleaning i todo) (.request (.cleanup c.name i))
  | cleanupReplied {i todo result} : Served c v (done ++ [i]) s requests (.idle todo) →
      result.success = true → ServerAt c v done s requests left (.cleaning i todo) (.reply result)

theorem ServerAt.congr {c : Client n} {v : Endpoint} {done : List UInt64} {s t : Provider β}
    {requests : List Request} {left : Multiset Request} {e : Era} {x : Channel}
    (h : ServerAt c v done s requests left e x)
    (hl : t.pipelines.lookup c.name = s.pipelines.lookup c.name) :
    ServerAt c v done t requests left e x := by
  cases h with
  | before h => exact .before (h.congr hl)
  | startSent h => exact .startSent (h.congr hl)
  | started h hs => exact .started (h.congr hl) hs
  | staging h hall => exact .staging (h.congr hl) hall
  | executeSent h => exact .executeSent (h.congr hl)
  | executeReplied h hs => exact .executeReplied (h.congr hl) hs
  | executed h => exact .executed (h.congr hl)
  | cleanupSent h => exact .cleanupSent (h.congr hl)
  | cleanupReplied h hs => exact .cleanupReplied (h.congr hl) hs

def requestsOf : Channel → Multiset Request
  | .request r => {r}
  | _ => 0

/-- The stage requests of a rank to a server that are in flight or not sent yet. -/
def pending (c : Client n) (k : Fin (n + 1)) (v : Endpoint) : Place → Channel → Multiset Request
  | .waitingOk i _, _ => (addressed (c.handle k) v i (c.calls k i) : Multiset Request)
  | .staging i calls _, _ => (addressed (c.handle k) v i calls : Multiset Request)
  | .awaiting i _ calls _, ch =>
    requestsOf ch + (addressed (c.handle k) v i calls : Multiset Request)
  | _, _ => 0

def allPending (c : Client n) (s : State n β) (v : Endpoint) : Multiset Request :=
  ∑ k, pending c k v (s.place k) (s.channel k v)

structure Invariant (c : Client n) (iterations : List UInt64) (e : Era) (done : List UInt64)
    (s : State n β) : Prop where
  iterations : iterations = done ++ e.remaining
  ranks : ∀ k, RankAt c k e (s.place k) (s.oks k) (s.channel k)
  servers : ∀ v ∈ c.endpoints,
    ServerAt c v done (s.server v) (s.requests v) (allPending c s v) e (s.channel 0 v)
  groupHash : ∀ v ∈ c.endpoints, (s.server v).groupHash = (c.handle 0).groupHash
  replies : ∀ v, ∀ x ∈ s.log v, x.2.success = true

section Runs

variable {env : Endpoint → Environment β} {c : Client n} {view : View}
  {iterations done : List UInt64} {s t : State n β} {e : Era}

theorem invariant_fresh (hc : c.OnView view) (h : Fresh c view iterations s) :
    Invariant c iterations (.before iterations) [] s := by
  refine ⟨rfl, fun k => ?_, fun v hv => ?_, fun v hv => ?_, fun v x hx => ?_⟩
  · rw [h.place, h.oks]
    exact .before (h.channel k)
  · have hlog : s.requests v = [] := by rw [State.requests, h.log, List.map_nil]
    rw [hlog]
    exact .before (.idle ⟨[], .nil, rfl⟩ (h.pipeline v hv) fun _ _ => Or.inl rfl)
  · rw [h.groupHash v hv, hc.groupHash]
  · rw [h.log] at hx
    cases hx

/-! ## A server processes a request -/

section Serve

variable {k : Fin (n + 1)} {v : Endpoint} {r : Request} {u : Provider β}
  {result : RequestResult Int32}

theorem serve_requests_self : (s.serve k v r u result).requests v = s.requests v ++ [r] := by
  simp [State.requests, serve_log_self]

theorem serve_pending_of_ne {v' : Endpoint} (hv : v' ≠ v) :
    allPending c (s.serve k v r u result) v' = allPending c s v' := by
  apply Finset.sum_congr rfl
  intro j _
  rw [serve_channel (Or.inr hv)]
  rfl

/-- What rank `k` has had processed is no longer pending. -/
theorem serve_pending_self {a : Multiset Request}
    (hk : pending c k v (s.place k) (s.channel k v) =
      a + pending c k v (s.place k) (.reply result)) :
    allPending c s v = a + allPending c (s.serve k v r u result) v := by
  apply sum_eq_add
  · rw [serve_channel_self]
    exact hk
  · intro j hj
    rw [serve_channel (Or.inl hj)]
    rfl

theorem Invariant.serve (h : Invariant c iterations e done s) (hs : result.success = true)
    (hu : u.groupHash = (s.server v).groupHash)
    (hrank : RankAt c k e (s.place k) (s.oks k) ((s.serve k v r u result).channel k))
    (hserver : ServerAt c v done u (s.requests v ++ [r]) (allPending c (s.serve k v r u result) v) e
      ((s.serve k v r u result).channel 0 v)) :
    Invariant c iterations e done (s.serve k v r u result) := by
  refine ⟨h.iterations, fun j => ?_, fun v' hv' => ?_, fun v' hv' => ?_, fun v' x hx => ?_⟩
  · by_cases hj : j = k
    · subst hj
      exact hrank
    · have hch : (s.serve k v r u result).channel j = s.channel j := by
        funext v'
        exact serve_channel (Or.inl hj)
      rw [hch]
      exact h.ranks j
  · by_cases hv : v' = v
    · subst hv
      rw [serve_server_self, serve_requests_self]
      exact hserver
    · have hreq : (s.serve k v r u result).requests v' = s.requests v' := by
        rw [State.requests, serve_log_of_ne hv]
        rfl
      rw [serve_server_of_ne hv, hreq, serve_pending_of_ne hv, serve_channel (Or.inr hv)]
      exact h.servers v' hv'
  · by_cases hv : v' = v
    · subst hv
      rw [serve_server_self, hu]
      exact h.groupHash v' hv'
    · rw [serve_server_of_ne hv]
      exact h.groupHash v' hv'
  · by_cases hv : v' = v
    · subst hv
      rw [serve_log_self] at hx
      rcases List.mem_append.mp hx with hx | hx
      · exact h.replies v' x hx
      · rw [List.mem_singleton.mp hx]
        exact hs
    · rw [serve_log_of_ne hv] at hx
      exact h.replies v' x hx

/-- Rank 0 waits for the replies to the requests it has sent to all pipelines. -/
inductive Era.Rpc : Era → Prop where
  | start (i todo) : Rpc (.starting i todo)
  | execute (i todo) : Rpc (.executing i todo)
  | cleanup (i todo) : Rpc (.cleaning i todo)

/-- A request in flight is one of rank 0 to its pipelines, or the stage request that its
rank waits for. -/
theorem RankAt.request {place : Place} {oks : List Bool} {ch : Endpoint → Channel}
    (h : RankAt c k e place oks ch) (hr : ch v = .request r) :
    (k = 0 ∧ v ∈ c.endpoints ∧ e.Rpc ∧ Outside c ch ∧
      ∀ ch', Outside c ch' → RankAt c k e place oks ch') ∨
    ∃ i todo p calls args, e = .staging i todo ∧ place = .awaiting i p calls todo ∧ oks = [] ∧
      p ∈ c.pipelines ∧ v = endpoint p ∧ r = .stage c.name i args ∧ Only p ch := by
  have hquiet : ¬ Quiet ch := by
    intro hq
    rw [hq v] at hr
    cases hr
  have hin : Outside c ch → v ∈ c.endpoints := by
    intro ho
    by_contra hv
    rw [ho v hv] at hr
    cases hr
  cases h with
  | before hq => exact (hquiet hq).elim
  | waiting _ hq => exact (hquiet hq).elim
  | told _ hq => exact (hquiet hq).elim
  | staging hq => exact (hquiet hq).elim
  | passed _ hq => exact (hquiet hq).elim
  | executed hq => exact (hquiet hq).elim
  | left _ hq => exact (hquiet hq).elim
  | starting hk ho => exact Or.inl ⟨hk, hin ho, .start .., ho, fun ch' => .starting hk⟩
  | executing hk ho => exact Or.inl ⟨hk, hin ho, .execute .., ho, fun ch' => .executing hk⟩
  | cleaning hk ho => exact Or.inl ⟨hk, hin ho, .cleanup .., ho, fun ch' => .cleaning hk⟩
  | @sent i p calls todo _ args hp ho hs =>
    have hv : v = endpoint p := by
      by_contra hne
      rw [ho v hne] at hr
      cases hr
    subst hv
    rw [hs] at hr
    cases hr
    exact Or.inr ⟨i, todo, p, calls, args, rfl, rfl, rfl, hp, rfl, rfl, ho⟩
  | @answered i p calls todo _ result hp ho hs _ =>
    by_cases hv : v = endpoint p
    · rw [hv, hs] at hr
      cases hr
    · rw [ho v hv] at hr
      cases hr

/-- The request of rank 0 succeeds. -/
theorem ServerAt.process {env : Environment β} {u : Provider β} {requests : List Request}
    {left : Multiset Request} (hb : Succeeds env.backend)
    (hg : u.groupHash = (c.handle 0).groupHash)
    (hinc : e.remaining.Pairwise (· < ·)) (he : e.Rpc)
    (h : ServerAt c v done u requests left e (.request r)) :
    (process env u r).succeeded ∧ ∀ left' result, result.success = true →
      ServerAt c v done (process env u r).provider (requests ++ [r]) left' e (.reply result) := by
  cases he with
  | start i todo =>
    cases h with
    | startSent h =>
      obtain ⟨hs, h'⟩ := h.start hb hg
      exact ⟨hs, fun _ _ => .started h'⟩
  | execute i todo =>
    cases h with
    | executeSent h =>
      obtain ⟨hs, h'⟩ := h.execute hb
      exact ⟨hs, fun _ _ => .executeReplied h'⟩
  | cleanup i todo =>
    cases h with
    | cleanupSent h =>
      obtain ⟨hs, h'⟩ := h.cleanup hb (List.pairwise_cons.mp hinc).1
      exact ⟨hs, fun _ _ => .cleanupReplied h'⟩

theorem success_of_reply {o : ProviderHandlers.Outcome β} (hs : o.succeeded)
    (hr : o.reply = some result) : result.success = true := by
  obtain ⟨r, hr', hs⟩ := hs
  rw [hr] at hr'
  rw [Option.some.inj hr']
  exact hs

theorem Invariant.remaining_increasing (h : Invariant c iterations e done s)
    (hinc : iterations.Pairwise (· < ·)) : e.remaining.Pairwise (· < ·) := by
  rw [h.iterations] at hinc
  exact (List.pairwise_append.mp hinc).2.1

/-- A request in flight succeeds. -/
theorem Invariant.succeeded (hb : ∀ v, Succeeds (env v).backend)
    (hinc : iterations.Pairwise (· < ·)) (h : Invariant c iterations e done s)
    (hch : s.channel k v = .request r) :
    (ProviderHandlers.process (env v) (s.server v) r).succeeded := by
  rcases (h.ranks k).request hch with
    ⟨rfl, hv, he, -, -⟩ | ⟨i, todo, p, calls, args, rfl, -, -, hp, rfl, rfl, -⟩
  · have hserver := h.servers v hv
    rw [hch] at hserver
    exact (hserver.process (hb v) (h.groupHash v hv) (h.remaining_increasing hinc) he).1
  · have hserver := h.servers _ (endpoint_mem hp)
    generalize s.channel 0 (endpoint p) = ch at hserver
    cases hserver with
    | staging hserved _ => exact (hserved.stage (hb _) args).1

theorem Invariant.process (hb : ∀ v, Succeeds (env v).backend)
    (hinc : iterations.Pairwise (· < ·)) (h : Invariant c iterations e done s)
    (hch : s.channel k v = .request r)
    (hr : (ProviderHandlers.process (env v) (s.server v) r).reply = some result) :
    Invariant c iterations e done
      (s.serve k v r (ProviderHandlers.process (env v) (s.server v) r).provider result) := by
  have hres := success_of_reply (h.succeeded hb hinc hch) hr
  apply h.serve hres (process_groupHash ..)
  · -- the rank of the request
    rcases (h.ranks k).request hch with
      ⟨rfl, hv, -, ho, hkeep⟩ | ⟨i, todo, p, calls, args, rfl, hplace, hoks, hp, rfl, -, ho⟩
    · apply hkeep
      intro v' hv'
      have hne : v' ≠ v := fun he => hv' (he ▸ hv)
      rw [serve_channel (Or.inr hne)]
      exact ho v' hv'
    · rw [hplace, hoks]
      refine .answered hp (fun v' hv' => ?_) serve_channel_self hres
      rw [serve_channel (Or.inr hv')]
      exact ho v' hv'
  · -- the server
    rcases (h.ranks k).request hch with
      ⟨rfl, hv, he, -, -⟩ | ⟨i, todo, p, calls, args, rfl, hplace, -, hp, rfl, rfl, -⟩
    · have hserver := h.servers v hv
      rw [hch] at hserver
      rw [serve_channel_self]
      exact (hserver.process (hb v) (h.groupHash v hv) (h.remaining_increasing hinc) he).2 _ _ hres
    · have hserver := h.servers _ (endpoint_mem hp)
      generalize s.channel 0 (endpoint p) = ch at hserver
      cases hserver with
      | @staging _ _ stages _ hserved hall =>
        refine .staging (hserved.stage (hb _) args).2 ?_
        rw [← hall, add_assoc]
        congr 1
        symm
        apply serve_pending_self
        rw [hch, hplace]
        simp [pending, requestsOf]

end Serve

/-! ## A barrier -/

section Barrier

variable {k : Fin (n + 1)} {e' : Era} {place place' : Place} {oks : List Bool}
  {ch : Endpoint → Channel}

/-- Rank 0 is only at a barrier when the era ends there. -/
theorem RankAt.next (h : RankAt c 0 e place oks ch)
    (hp : pass (0 : Fin (n + 1)) place = some place') :
    ∃ e', e.next = some e' := by
  cases h with
  | @before todo _ _ =>
    cases todo with
    | nil => cases hp
    | cons i todo => exact ⟨_, rfl⟩
  | staging _ => exact ⟨_, rfl⟩
  | executed _ => exact ⟨_, rfl⟩
  | waiting hk _ => exact (hk rfl).elim
  | told hk _ => exact (hk rfl).elim
  | passed hk _ => exact (hk rfl).elim
  | left hk _ => exact (hk rfl).elim
  | _ => cases hp

theorem sends_outside (place : Place) : Outside c (sends (c.handle 0) place) := by
  intro v hv
  cases place with
  | starting i todo => exact post_of_notMem hv
  | executing i todo => exact post_of_notMem hv
  | cleaning i todo => exact post_of_notMem hv
  | _ => rfl

/-- A rank that passes the barrier at the end of an era, with nothing left to stage. -/
theorem RankAt.pass (he : e.next = some e') (h : RankAt c k e place oks ch)
    (hp : pass k place = some place') :
    Quiet ch ∧ (∀ v x, pending c k v place x = 0) ∧
      ∀ ch', (k = 0 → Outside c ch') → (k ≠ 0 → Quiet ch') → RankAt c k e' place' oks ch' := by
  cases h with
  | @before todo _ hq =>
    cases todo with
    | nil => cases he
    | cons i todo =>
      cases he
      refine ⟨hq, fun _ _ => rfl, fun ch' ho hq' => ?_⟩
      by_cases hk : k = 0
      · simp only [ClientServers.pass, hk, if_true, Option.some.injEq] at hp
        exact hp ▸ .starting hk (ho hk)
      · simp only [ClientServers.pass, hk, if_false, Option.some.injEq] at hp
        exact hp ▸ .waiting hk (hq' hk)
  | @staging i calls todo _ hq =>
    cases he
    cases calls with
    | cons args calls => cases hp
    | nil =>
      refine ⟨hq, fun _ _ => rfl, fun ch' ho hq' => ?_⟩
      by_cases hk : k = 0
      · simp only [ClientServers.pass, hk, if_true, Option.some.injEq] at hp
        exact hp ▸ .executing hk (ho hk)
      · simp only [ClientServers.pass, hk, if_false, Option.some.injEq] at hp
        exact hp ▸ .passed hk (hq' hk)
  | executed hq =>
    cases he
    refine ⟨hq, fun _ _ => rfl, fun ch' ho hq' => ?_⟩
    by_cases hk : k = 0
    · simp only [ClientServers.pass, hk, if_true, Option.some.injEq] at hp
      exact hp ▸ .cleaning hk (ho hk)
    · simp only [ClientServers.pass, hk, if_false, Option.some.injEq] at hp
      exact hp ▸ .left hk (hq' hk)
  | told _ _ => cases hp
  | sent _ _ _ _ => cases hp
  | answered _ _ _ _ => cases hp
  | _ => cases he

/-- Rank 0 sends the requests of the next era. -/
theorem ServerAt.pass (hc : c.OnView view) {v : Endpoint} {u : Provider β}
    {requests : List Request} {x : Channel} (hv : v ∈ c.endpoints) (he : e.next = some e')
    (h : ServerAt c v done u requests 0 e x) (hroot : RankAt c 0 e' place [] ch)
    (left : Multiset Request) :
    ServerAt c v done u requests left e' (sends (c.handle 0) place v) := by
  cases h with
  | @before todo _ h =>
    cases todo with
    | nil => cases he
    | cons i todo =>
      cases he
      cases hroot with
      | starting _ _ =>
        have hpost : sends (c.handle 0) (.starting i todo) v = .request (startRequest c i) :=
          post_of_mem hc hv fun name => .start (c.handle 0).groupHash name i
        rw [hpost]
        exact .startSent h
      | waiting hk _ => exact (hk rfl).elim
  | @staging i todo stages _ h hall =>
    cases he
    rw [add_zero] at hall
    subst hall
    cases hroot with
    | executing _ _ =>
      have hpost : sends (c.handle 0) (.executing i todo) v =
          .request (.execute c.name i false) := post_of_mem hc hv fun name => .execute name i false
      rw [hpost]
      exact .executeSent h
    | passed hk _ => exact (hk rfl).elim
  | @executed i todo _ h =>
    cases he
    cases hroot with
    | cleaning _ _ =>
      have hpost : sends (c.handle 0) (.cleaning i todo) v = .request (.cleanup c.name i) :=
        post_of_mem hc hv fun name => .cleanup name i
      rw [hpost]
      exact .cleanupSent h
    | left hk _ => exact (hk rfl).elim
  | _ => cases he

theorem Era.next_remaining (he : e.next = some e') : e'.remaining = e.remaining := by
  cases e with
  | before todo =>
    cases todo with
    | nil => cases he
    | cons i todo =>
      cases he
      rfl
  | staging i todo =>
    cases he
    rfl
  | executed i todo =>
    cases he
    rfl
  | _ => cases he

theorem Invariant.barrier (hc : c.OnView view) (h : Invariant c iterations e done s)
    {places : Fin (n + 1) → Place} (hp : ∀ k, ClientServers.pass k (s.place k) = some (places k)) :
    ∃ e', Invariant c iterations e' done { s with
      place := places
      channel := Function.update s.channel 0 (sends (c.handle 0) (places 0)) } := by
  obtain ⟨e', he⟩ := (h.ranks 0).next (hp 0)
  have hpass := fun k => (h.ranks k).pass he (hp k)
  have hzero : ∀ v, allPending c s v = 0 := by
    intro v
    apply Finset.sum_eq_zero
    intro k _
    exact (hpass k).2.1 v _
  have hoks : s.oks 0 = [] := by
    have h0 := h.ranks 0
    have h1 := hp 0
    generalize s.oks 0 = oks at h0 ⊢
    generalize s.place 0 = place at h0 h1
    cases h0 with
    | told hk _ => exact (hk rfl).elim
    | _ => rfl
  have hroot : RankAt c 0 e' (places 0) [] (sends (c.handle 0) (places 0)) :=
    hoks ▸ (hpass 0).2.2 _ (fun _ => sends_outside _) fun hk => (hk rfl).elim
  refine ⟨e', ?_, fun k => ?_, fun v hv => ?_, h.groupHash, h.replies⟩
  · rw [Era.next_remaining he]
    exact h.iterations
  · apply (hpass k).2.2
    · rintro rfl
      simp only [Function.update_self]
      exact sends_outside _
    · intro hk
      simp only [Function.update_of_ne hk]
      exact (hpass k).1
  · have hserver := h.servers v hv
    rw [hzero v] at hserver
    simp only [Function.update_self]
    exact hserver.pass hc hv he hroot _

end Barrier

/-! ## Rank 0 has its replies -/

section Replies

variable {i : UInt64} {todo : List UInt64} {replies : PipelineHandle → RequestResult Int32}

/-- The era where rank 0 waits for its pipelines. -/
def eraOf : Place → Option Era
  | .starting i todo => some (.starting i todo)
  | .executing i todo => some (.executing i todo)
  | .cleaning i todo => some (.cleaning i todo)
  | _ => none

theorem Invariant.era {e' : Era} (h : Invariant c iterations e done s)
    (he : eraOf (s.place 0) = some e') : e = e' ∧ e.Rpc ∧ s.oks 0 = [] := by
  have hroot := h.ranks 0
  generalize s.place 0 = place at hroot he
  generalize s.oks 0 = oks at hroot
  cases hroot with
  | starting _ _ =>
    cases he
    exact ⟨rfl, .start .., rfl⟩
  | executing _ _ =>
    cases he
    exact ⟨rfl, .execute .., rfl⟩
  | cleaning _ _ =>
    cases he
    exact ⟨rfl, .cleanup .., rfl⟩
  | _ => cases he

theorem Invariant.replied (h : Invariant c iterations e done s) (he : e.Rpc)
    (hr : Replied c s replies) : ∀ p ∈ c.pipelines, (replies p).success = true := by
  intro p hp
  have hserver := h.servers _ (endpoint_mem hp)
  rw [hr p hp] at hserver
  cases he with
  | start i todo =>
    cases hserver with
    | started _ hs => exact hs
  | execute i todo =>
    cases hserver with
    | executeReplied _ hs => exact hs
  | cleanup i todo =>
    cases hserver with
    | cleanupReplied _ hs => exact hs

/-- A rank and its place among all ranks. -/
theorem ranks_goto {k : Fin (n + 1)} {place : Place} {ch : Endpoint → Channel} {e' : Era}
    (hk : RankAt c k e' place (s.oks k) ch)
    (hothers : ∀ j, j ≠ k → RankAt c j e' (s.place j) (s.oks j) (s.channel j)) (j : Fin (n + 1)) :
    RankAt c j e' ((s.goto k place ch).place j) ((s.goto k place ch).oks j)
      ((s.goto k place ch).channel j) := by
  by_cases hj : j = k
  · subst hj
    rw [goto_place_self, goto_channel_self]
    exact hk
  · rw [goto_place_of_ne hj, goto_channel_of_ne hj]
    exact hothers j hj

theorem Invariant.decide (h : Invariant c iterations e done s)
    (hplace : s.place 0 = .starting i todo) (hr : Replied c s replies) :
    Invariant c iterations (.staging i todo) done
      ((s.broadcast true).goto 0 (.staging i (c.calls 0 i) todo) fun _ => .quiet) := by
  have he : eraOf (s.place 0) = some (.starting i todo) := by
    rw [hplace]
    rfl
  obtain ⟨rfl, -, hoks⟩ := h.era he
  have htold : ∀ j, j ≠ 0 → RankAt c j (.staging i todo) (s.place j) (s.oks j ++ [true])
      (s.channel j) := by
    intro j hj
    have hrank := h.ranks j
    generalize s.place j = place at hrank ⊢
    generalize s.oks j = oks at hrank ⊢
    cases hrank with
    | starting hk _ => exact (hj hk).elim
    | waiting _ hq => exact .told hj hq
  have hranks : ∀ j, RankAt c j (.staging i todo)
      (((s.broadcast true).goto 0 (.staging i (c.calls 0 i) todo) fun _ => .quiet).place j)
      ((s.broadcast true).oks j)
      (((s.broadcast true).goto 0 (.staging i (c.calls 0 i) todo) fun _ => .quiet).channel j) := by
    apply ranks_goto
    · have hbroadcast : (s.broadcast true).oks 0 = s.oks 0 := by simp [State.broadcast]
      rw [hbroadcast, hoks]
      exact .staging fun _ => rfl
    · intro j hj
      have hbroadcast : (s.broadcast true).oks j = s.oks j ++ [true] := by
        simp [State.broadcast, hj]
      rw [hbroadcast]
      exact htold j hj
  refine ⟨h.iterations, hranks, fun v hv => ?_, h.groupHash, h.replies⟩
  obtain ⟨p, hp, rfl⟩ := List.mem_map.mp hv
  have hserver := h.servers _ hv
  rw [hr p hp] at hserver
  cases hserver with
  | started hserved _ =>
    refine .staging hserved ?_
    rw [zero_add]
    -- no rank has staged anything
    apply Finset.sum_congr rfl
    intro j _
    by_cases hj : j = 0
    · subst hj
      rw [goto_place_self]
      rfl
    · have hpl : s.place j = .waitingOk i todo := by
        have hrank := h.ranks j
        generalize s.place j = place at hrank ⊢
        generalize s.oks j = oks at hrank
        cases hrank with
        | starting hk _ => exact (hj hk).elim
        | waiting _ _ => rfl
      rw [goto_place_of_ne hj]
      change pending c j _ (s.place j) _ = _
      rw [hpl]
      rfl

theorem Invariant.executed (h : Invariant c iterations e done s)
    (hplace : s.place 0 = .executing i todo) (hr : Replied c s replies) :
    Invariant c iterations (.executed i todo) done
      (s.goto 0 (.cleanup i todo) fun _ => .quiet) := by
  have he : eraOf (s.place 0) = some (.executing i todo) := by
    rw [hplace]
    rfl
  obtain ⟨rfl, -, hoks⟩ := h.era he
  refine ⟨h.iterations, ranks_goto ?_ fun j hj => ?_, fun v hv => ?_, h.groupHash, h.replies⟩
  · rw [hoks]
    exact .executed fun _ => rfl
  · have hrank := h.ranks j
    generalize s.place j = place at hrank ⊢
    generalize s.oks j = oks at hrank ⊢
    cases hrank with
    | executing hk _ => exact (hj hk).elim
    | passed _ hq => exact .executed hq
  · obtain ⟨p, hp, rfl⟩ := List.mem_map.mp hv
    have hserver := h.servers _ hv
    rw [hr p hp] at hserver
    cases hserver with
    | executeReplied hserved _ => exact .executed hserved

theorem Invariant.cleaned (h : Invariant c iterations e done s)
    (hplace : s.place 0 = .cleaning i todo) (hr : Replied c s replies) :
    Invariant c iterations (.before todo) (done ++ [i])
      (s.goto 0 (.start todo) fun _ => .quiet) := by
  have he : eraOf (s.place 0) = some (.cleaning i todo) := by
    rw [hplace]
    rfl
  obtain ⟨rfl, -, hoks⟩ := h.era he
  refine ⟨?_, ranks_goto ?_ fun j hj => ?_, fun v hv => ?_, h.groupHash, h.replies⟩
  · rw [h.iterations, List.append_assoc]
    rfl
  · rw [hoks]
    exact .before fun _ => rfl
  · have hrank := h.ranks j
    generalize s.place j = place at hrank ⊢
    generalize s.oks j = oks at hrank ⊢
    cases hrank with
    | cleaning hk _ => exact (hj hk).elim
    | left _ hq => exact .before hq
  · obtain ⟨p, hp, rfl⟩ := List.mem_map.mp hv
    have hserver := h.servers _ hv
    rw [hr p hp] at hserver
    cases hserver with
    | cleanupReplied hserved _ => exact .before hserved

end Replies

/-! ## Staging -/

section Staging

variable {k : Fin (n + 1)} {i : UInt64} {todo : List UInt64} {calls : List StageArgs}

/-- A rank goes on between two barriers. What it still has to stage stays the same. -/
theorem Invariant.take (h : Invariant c iterations (.staging i todo) done s) {place : Place}
    {oks : List Bool} {ch : Endpoint → Channel} (hrank : RankAt c k (.staging i todo) place oks ch)
    (hpending : ∀ v, pending c k v place (ch v) = pending c k v (s.place k) (s.channel k v)) :
    Invariant c iterations (.staging i todo) done
      ({ s with oks := Function.update s.oks k oks }.goto k place ch) := by
  refine ⟨h.iterations, ranks_goto ?_ fun j hj => ?_, fun v hv => ?_, h.groupHash, h.replies⟩
  · simp only [Function.update_self]
    exact hrank
  · simp only [Function.update_of_ne hj]
    exact h.ranks j
  · have hsum : allPending c ({ s with oks := Function.update s.oks k oks }.goto k place ch) v =
        allPending c s v := by
      apply Finset.sum_congr rfl
      intro j _
      by_cases hj : j = k
      · subst hj
        rw [goto_place_self, goto_channel_self]
        exact hpending v
      · rw [goto_place_of_ne hj, goto_channel_of_ne hj]
    rw [hsum]
    have hserver := h.servers v hv
    generalize s.channel 0 v = x at hserver
    cases hserver with
    | staging hserved hall => exact .staging hserved hall

theorem Invariant.move (h : Invariant c iterations (.staging i todo) done s) {place : Place}
    {ch : Endpoint → Channel} (hrank : RankAt c k (.staging i todo) place (s.oks k) ch)
    (hpending : ∀ v, pending c k v place (ch v) = pending c k v (s.place k) (s.channel k v)) :
    Invariant c iterations (.staging i todo) done (s.goto k place ch) := by
  have hmoved := h.take hrank hpending
  rwa [Function.update_eq_self] at hmoved

theorem Invariant.receive (h : Invariant c iterations e done s) {ok : Bool} {oks : List Bool}
    (hplace : s.place k = .waitingOk i todo) (hoks : s.oks k = ok :: oks) :
    ok = true ∧ Invariant c iterations e done
      ({ s with oks := Function.update s.oks k oks }.goto k (.staging i (c.calls k i) todo)
        fun _ => .quiet) := by
  have hrank := h.ranks k
  rw [hplace, hoks] at hrank
  have he : e = .staging i todo ∧ ok = true ∧ oks = [] := by
    cases hrank with
    | told _ _ => exact ⟨rfl, rfl, rfl⟩
  obtain ⟨rfl, rfl, rfl⟩ := he
  refine ⟨rfl, h.take (.staging fun _ => rfl) fun v => ?_⟩
  rw [hplace]
  rfl

theorem post_single_only (p : PipelineHandle) (request : PipelineHandle → Request) :
    Only p (post [p] request) := by
  intro v hv
  apply post_of_notMem
  simpa using hv

/-- The first call is in flight to its target. -/
theorem addressed_cons {v : Endpoint} {args : StageArgs} {p : PipelineHandle}
    (ht : stageTarget (c.handle k) args.datasetName i args.blockId = .ok p) :
    (addressed (c.handle k) v i (args :: calls) : Multiset Request) =
      requestsOf (post [p] (fun p => .stage p.name i args) v) +
        (addressed (c.handle k) v i calls : Multiset Request) := by
  by_cases hv : v = endpoint p
  · subst hv
    rw [post_single]
    simp [addressed, stageRequest, ht, requestsOf]
  · rw [post_single_only p _ v hv]
    have hne : endpoint p ≠ v := Ne.symm hv
    simp [addressed, stageRequest, ht, requestsOf, hne]

theorem Invariant.stage (hc : c.OnView view) (h : Invariant c iterations e done s)
    {args : StageArgs} {p : PipelineHandle} (hplace : s.place k = .staging i (args :: calls) todo)
    (ht : stageTarget (c.handle k) args.datasetName i args.blockId = .ok p) :
    Invariant c iterations e done
      (s.goto k (.awaiting i p calls todo) (post [p] fun p => .stage p.name i args)) := by
  have hp := target_mem hc ht
  have hrank := h.ranks k
  rw [hplace] at hrank
  have he : e = .staging i todo ∧ s.oks k = [] := by
    generalize s.oks k = oks at hrank
    cases hrank with
    | staging _ => exact ⟨rfl, rfl⟩
  obtain ⟨rfl, hoks⟩ := he
  apply h.move
  · rw [hoks]
    refine .sent args hp (post_single_only p _) ?_
    rw [post_single, name_of_mem hc hp]
  · intro v
    rw [hplace]
    exact (addressed_cons ht).symm

theorem Invariant.staged (h : Invariant c iterations e done s) {p : PipelineHandle}
    {result : RequestResult Int32} (hplace : s.place k = .awaiting i p calls todo)
    (hreply : s.channel k (endpoint p) = .reply result) :
    result.success = true ∧
      Invariant c iterations e done (s.goto k (.staging i calls todo) fun _ => .quiet) := by
  have hrank := h.ranks k
  rw [hplace] at hrank
  have he : e = .staging i todo ∧ s.oks k = [] ∧ Only p (s.channel k) ∧ result.success = true := by
    generalize s.oks k = oks at hrank
    generalize s.channel k = ch at hrank hreply
    cases hrank with
    | sent _ _ _ hsent =>
      rw [hsent] at hreply
      cases hreply
    | answered _ honly hanswered hs =>
      rw [hanswered] at hreply
      cases hreply
      exact ⟨rfl, rfl, honly, hs⟩
  obtain ⟨rfl, hoks, honly, hs⟩ := he
  refine ⟨hs, h.move ?_ fun v => ?_⟩
  · rw [hoks]
    exact .staging fun _ => rfl
  · rw [hplace]
    have hnone : requestsOf (s.channel k v) = 0 := by
      by_cases hv : v = endpoint p
      · rw [hv, hreply]
        rfl
      · rw [honly v hv]
        rfl
    change _ = requestsOf (s.channel k v) + _
    rw [hnone, zero_add]
    rfl

end Staging

/-! ## All steps -/

theorem Invariant.others (h : Invariant c iterations e done s) {v : Endpoint} {u : Provider β}
    (hg : u.groupHash = (s.server v).groupHash)
    (hl : u.pipelines.lookup c.name = (s.server v).pipelines.lookup c.name) :
    Invariant c iterations e done { s with server := Function.update s.server v u } := by
  refine ⟨h.iterations, h.ranks, fun v' hv' => ?_, fun v' hv' => ?_, h.replies⟩
  · by_cases hv : v' = v
    · subst hv
      simp only [Function.update_self]
      exact (h.servers v' hv').congr hl
    · simp only [Function.update_of_ne hv]
      exact h.servers v' hv'
  · by_cases hv : v' = v
    · subst hv
      simp only [Function.update_self]
      exact hg.trans (h.groupHash v' hv')
    · simp only [Function.update_of_ne hv]
      exact h.groupHash v' hv'

theorem invariant_step (hc : c.OnView view) (hb : ∀ v, Succeeds (env v).backend)
    (hinc : iterations.Pairwise (· < ·)) {event : Event n} (h : Invariant c iterations e done s)
    (hs : Step env c s event t) : ∃ e' done', Invariant c iterations e' done' t := by
  cases hs with
  | barrier places hp =>
    obtain ⟨e', h'⟩ := h.barrier hc hp
    exact ⟨e', done, h'⟩
  | process hch hr => exact ⟨e, done, h.process hb hinc hch hr⟩
  | @decide i todo replies hplace hr =>
    have he : eraOf (s.place 0) = some (.starting i todo) := by
      rw [hplace]
      rfl
    have hall := h.replied (h.era he).2.1 hr
    have ha : runAttempt (fun p => Rpc.reply (replies p)) (fun _ => .reply {}) c.pipelines =
        .decided c.pipelines true [] .returned := by
      apply runAttempt_accepted
      intro p hp
      exact hall p hp
    refine ⟨.staging i todo, done, ?_⟩
    simp only [ha, broadcastOk, if_true]
    exact h.decide hplace hr
  | receive hplace hoks =>
    obtain ⟨rfl, h'⟩ := h.receive hplace hoks
    exact ⟨e, done, h'⟩
  | stage hplace ht => exact ⟨e, done, h.stage hc hplace ht⟩
  | staged hplace hreply =>
    obtain ⟨hs, h'⟩ := h.staged hplace hreply
    refine ⟨e, done, ?_⟩
    rw [hs, if_pos rfl]
    exact h'
  | @executed i todo replies hplace hr =>
    have he : eraOf (s.place 0) = some (.executing i todo) := by
      rw [hplace]
      rfl
    have hall := h.replied (h.era he).2.1 hr
    refine ⟨.executed i todo, done, ?_⟩
    rw [List.all_eq_true.mpr hall, if_pos rfl]
    exact h.executed hplace hr
  | @cleaned i todo replies hplace hr =>
    have he : eraOf (s.place 0) = some (.cleaning i todo) := by
      rw [hplace]
      rfl
    have hall := h.replied (h.era he).2.1 hr
    refine ⟨.before todo, done ++ [i], ?_⟩
    rw [List.all_eq_true.mpr hall, if_pos rfl]
    exact h.cleaned hplace hr
  | others v u hg hl => exact ⟨e, done, h.others hg hl⟩

theorem invariant_reachable (hc : c.OnView view) (hb : ∀ v, Succeeds (env v).backend)
    (hinc : iterations.Pairwise (· < ·)) (hs : Fresh c view iterations s)
    (h : Reaches (Step env c) s t) : ∃ e done, Invariant c iterations e done t := by
  apply h.invariant _ ⟨_, _, invariant_fresh hc hs⟩
  rintro s' event t' ⟨e, done, h'⟩ hstep
  exact invariant_step hc hb hinc h' hstep

end Runs

end ClientEras
