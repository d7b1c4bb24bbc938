import Colza.HandleCollectives
import Colza.StartCollectives

/-!
# A client's handle over many iterations

Every rank makes its handle and then calls `start` again and again. Rank 0 builds its list
of servers from SSG, the others build theirs from its broadcasts, in the first call and in
every refresh. An exception ends the program of a rank; a finite session is one that is
left between two calls.
-/
namespace SessionCollectives

open GuardedRuns Interfaces ClientHandles CollectiveNetwork DistributedStart
open HandleCollectives (Request)

/-! ## The programs -/

/-- Rank 0 makes its handle, or it is in start call number `c`. -/
inductive RootAt where
  | making (made : Made)
  | calling (c : ℕ) (place : StartCollectives.RootAt)

inductive LeafPlace where
  | making (place : HandleCollectives.LeafAt)
  | calling (c : ℕ) (place : StartCollectives.LeafAt)

/-- Another rank with what it meets in each call and attempt. Attempt 0 has no refresh; its
entry in call 0 is for the first handle. -/
structure LeafAt where
  clients : ℕ → ℕ → ClientEnv
  place : LeafPlace

/-- Between two calls: the number of the next one and the handle. -/
def RootAt.between : RootAt → Option (ℕ × DistributedPipelineHandle)
  | .making ⟨[], .ok h⟩ => some (0, h)
  | .calling c (.returned _ h) => some (c + 1, h)
  | _ => none

def LeafPlace.between : LeafPlace → Option (ℕ × DistributedPipelineHandle)
  | .making (.left (.ok h)) => some (0, h)
  | .calling c (.returned _ h) => some (c + 1, h)
  | _ => none

section Programs

variable (env : ℕ → ℕ → AttemptEnv) (q : Request) (iterations : ℕ → UInt64)

/-- The barrier of a start call comes first. -/
def rootCall (r : RootAt) : Option (Call × Option Payload) :=
  match r.between with
  | some _ => some (.barrier, none)
  | none =>
    match r with
    | .making made => HandleCollectives.root.call made
    | .calling _ place => StartCollectives.rootCall place

def rootNext (r : RootAt) : RootAt :=
  match r.between with
  | some (c, h) =>
    .calling c (StartCollectives.rootNext (env c) (iterations c) (.entering h))
  | none =>
    match r with
    | .making made => .making (HandleCollectives.root.next made)
    | .calling c place => .calling c (StartCollectives.rootNext (env c) (iterations c) place)

def root : Root RootAt Payload := ⟨rootCall, rootNext env iterations⟩

def leafCall (m : LeafAt) : Option Call :=
  match m.place.between with
  | some _ => some .barrier
  | none =>
    match m.place with
    | .making place => HandleCollectives.leafCall place
    | .calling _ place => StartCollectives.leafCall place

def leafPlace (clients : ℕ → ℕ → ClientEnv) (m : LeafPlace) (x : Option Payload) : LeafPlace :=
  match m.between with
  | some (c, h) => .calling c (StartCollectives.leafNext (clients c) (.entering h) x)
  | none =>
    match m with
    | .making place => .making (HandleCollectives.leafNext q (clients 0 0) place x)
    | .calling c place => .calling c (StartCollectives.leafNext (clients c) place x)

def leaf : Leaf LeafAt Payload :=
  ⟨leafCall, fun m x => { m with place := leafPlace q m.clients m.place x }⟩

/-- Rank 0 at the begin of the session. -/
def rootStart : RootAt :=
  .making (makeOnMaster (env 0 0).client q.ssgGroupFile q.providerId q.pipelineName q.check)

/-- The session, whatever each of the ranks meets. -/
def SessionReachable {n : ℕ} (clients : Fin n → ℕ → ℕ → ClientEnv) :
    State n RootAt LeafAt Payload → Prop :=
  Reachable (root env iterations) (leaf q) (rootStart env q) fun k =>
    ⟨clients k, .making .waitingSize⟩

/-- SSG only gives addresses that fit into a slot. -/
def ShortAddresses : Prop :=
  ∀ c k gid i addr, Resolves (env c k).client gid i addr → ShortAddress addr

end Programs

/-! ## What the other ranks build from a broadcast -/

/-- The pipelines in the slots of a buffer. -/
def slots (name : String) (providerId : UInt16) (size : ℕ) (packed : List UInt8) :
    List PipelineHandle :=
  (List.range size).map fun i => ⟨name, cString (packed.drop (i * slotSize)), providerId⟩

/-- What two ranks have in common when they hold the same servers. -/
structure Same (h h' : DistributedPipelineHandle) : Prop where
  pipelines : h'.pipelines = h.pipelines
  name : h'.name = h.name
  providerId : h'.providerId = h.providerId

/-- What is left of the call of rank 0, and what another rank with this name and provider id
waits for: the size, or the addresses of this many members. -/
inductive Sharing (name : String) (providerId : UInt16) : Made → Option ℕ → Prop where
  | failing {e} : Sharing name providerId ⟨[.groupSize (-1)], .error e⟩ none
  | size {size : ℕ} {packed h} : h.name = name → h.providerId = providerId →
      h.pipelines = slots name providerId size packed →
      Sharing name providerId ⟨[.groupSize size, .addresses packed], .ok h⟩ none
  | addresses {size : ℕ} {packed h} : h.name = name → h.providerId = providerId →
      h.pipelines = slots name providerId size packed →
      Sharing name providerId ⟨[.addresses packed], .ok h⟩ (some size)

/-- Rank 0 leaves in silence, or the others will build its list. -/
theorem makeOnMaster_sharing (env : ClientEnv) (ssgGroupFile : String) (providerId : UInt16)
    (name : String) (check : Bool)
    (hshort : ∀ gid i addr, Resolves env gid i addr → ShortAddress addr) :
    (∃ e, makeOnMaster env ssgGroupFile providerId name check = ⟨[], .error e⟩) ∨
      Sharing name providerId (makeOnMaster env ssgGroupFile providerId name check) none := by
  by_cases hgroup : ∃ gid size, env.groupIdLoad ssgGroupFile = some gid ∧
      env.groupObserve gid = true ∧ env.groupSize gid = some size
  · obtain ⟨gid, size, hload, hobserve, hsize⟩ := hgroup
    rw [makeOnMaster_eq hload hobserve hsize]
    cases hr : resolveMembers env gid providerId name check (List.range' 0 size) with
    | error e =>
      cases e with
      | silent e => exact Or.inl ⟨e, rfl⟩
      | announced e => exact Or.inr .failing
    | ok added =>
      obtain ⟨hlen, hall⟩ := resolveMembers_ok hr
      rw [List.length_range'] at hlen
      subst hlen
      refine Or.inr (.size rfl rfl (unpack_packed fun p hp => ?_).symm)
      obtain ⟨hname, hid, i, hres⟩ := hall p hp
      exact ⟨hname, hid, hshort gid i p.address hres⟩
  · exact Or.inl (makeOnMaster_no_group hgroup)

theorem makeFromAddresses_same {client : ClientEnv} {ssgGroupFile name : String}
    {providerId : UInt16} {size : ℕ} {packed : List UInt8} {h h' : DistributedPipelineHandle}
    (hname : h.name = name) (hid : h.providerId = providerId)
    (hp : h.pipelines = slots name providerId size packed)
    (hm : makeFromAddresses client ssgGroupFile providerId name size packed = .ok h') :
    Same h h' := by
  unfold makeFromAddresses at hm
  cases hu : unpackPipelines client packed providerId name (List.range size) with
  | error e =>
    rw [hu] at hm
    cases hm
  | ok pipelines =>
    rw [hu] at hm
    obtain rfl := Except.ok.inj hm
    exact ⟨(unpackPipelines_ok hu).trans hp.symm, hname.symm, hid.symm⟩

/-! ## Rank 0 and another rank -/

section Sim

def makingAt : Option ℕ → HandleCollectives.LeafAt
  | none => .waitingSize
  | some size => .waitingAddresses size

def refreshingAt (k : ℕ) (h : DistributedPipelineHandle) : Option ℕ → StartCollectives.LeafAt
  | none => .waitingSize k h
  | some size => .waitingAddresses k h size

/-- Both are at the same place with the same servers, or they have no collective in common
and the other rank has not returned from its call. -/
inductive Sim (q : Request) : RootAt → LeafAt → Prop where
  | making {clients made w} : Sharing q.pipelineName q.providerId made w →
      Sim q (.making made) ⟨clients, .making (makingAt w)⟩
  | made {clients h h'} : Same h h' →
      Sim q (.making ⟨[], .ok h⟩) ⟨clients, .making (.left (.ok h'))⟩
  | deciding {clients c k h h' ok exit} : Same h h' → (ok = true → exit = .returned) →
      Sim q (.calling c (.deciding k h ok exit)) ⟨clients, .calling c (.waitingOk k h')⟩
  | refreshing {clients c k h' broadcast later result w} :
      Sharing h'.name h'.providerId ⟨broadcast :: later, result⟩ w →
      Sim q (.calling c (.refreshing k broadcast later result))
        ⟨clients, .calling c (refreshingAt k h' w)⟩
  | returned {clients c k h h'} : Same h h' →
      Sim q (.calling c (.returned k h)) ⟨clients, .calling c (.returned k h')⟩
  | apart {r m} : (∀ e, rootCall r = some e → leafCall m ≠ some e.1) →
      (∀ c k h, m.place ≠ .calling c (.returned k h)) → Sim q r m

variable {env : ℕ → ℕ → AttemptEnv} {q : Request} {iterations : ℕ → UInt64}

/-- A rank that has ended is apart from one that has not returned. -/
theorem Sim.of_root_left {r : RootAt} {m : LeafAt} (hr : rootCall r = none)
    (hm : ∀ c k h, m.place ≠ .calling c (.returned k h)) : Sim q r m := by
  refine .apart (fun e he => ?_) hm
  rw [hr] at he
  cases he

theorem Sim.of_leaf_left {r : RootAt} {m : LeafAt} (hm : leafCall m = none)
    (hplace : ∀ c k h, m.place ≠ .calling c (.returned k h)) : Sim q r m := by
  refine .apart (fun e _ he => ?_) hplace
  rw [hm] at he
  cases he

/-- All ranks accept an attempt only when it ends the call. -/
theorem exit_of_ok {env : AttemptEnv} {h : DistributedPipelineHandle} {iteration : UInt64}
    {sent aborted : List (PipelineHandle × ℕ)} {exit : Exit}
    (ha : attempt env h iteration = .decided sent true aborted exit) :
    exit = .returned ∧ ∀ p ∈ servers h,
      AcceptedBy (fun p => env.start h.groupHash p iteration) (attempt env h iteration) p := by
  have ho := runAttempt_outcome (fun p => env.start h.groupHash p iteration)
    (fun p => env.abort p iteration) (servers h)
  change Outcome _ _ _ (attempt env h iteration) at ho
  rw [ha] at ho ⊢
  cases ho with
  | accepted hacc => exact ⟨rfl, fun p hp => ⟨hp, hacc p hp⟩⟩

theorem sim_begin {clients : ℕ → ℕ → ClientEnv} {c k : ℕ} {h h' : DistributedPipelineHandle}
    (hs : Same h h') : Sim q
      (.calling c (StartCollectives.beginAttempt (env c) (iterations c) k h))
      ⟨clients, .calling c (.waitingOk k h')⟩ := by
  unfold StartCollectives.beginAttempt
  cases ha : attempt (env c k) h (iterations c) with
  | threw sent e => exact .of_root_left rfl fun _ _ _ hp => by cases hp
  | decided sent ok aborted exit =>
    refine .deciding hs ?_
    rintro rfl
    exact (exit_of_ok ha).1

theorem sim_refresh {clients : ℕ → ℕ → ClientEnv} {c k : ℕ} {h h' : DistributedPipelineHandle}
    (hshort : ShortAddresses env) (hs : Same h h') : Sim q
      (.calling c (StartCollectives.continueRefresh (env c) (iterations c) (k + 1)
        (refresh (env c) h (k + 1))))
      ⟨clients, .calling c (.waitingSize (k + 1) h')⟩ := by
  rcases makeOnMaster_sharing (env c (k + 1)).client h.ssgGroupFile h.providerId h.name false
    (fun gid i addr => hshort c (k + 1) gid i addr) with ⟨e, he⟩ | hsharing
  · unfold refresh
    rw [he]
    exact .of_root_left rfl fun _ _ _ hp => by cases hp
  · change Sharing _ _ (refresh (env c) h (k + 1)) none at hsharing
    rw [← hs.name, ← hs.providerId] at hsharing
    generalize refresh (env c) h (k + 1) = made at hsharing ⊢
    have hat : refreshingAt (k + 1) h' none = .waitingSize (k + 1) h' := rfl
    rw [← hat]
    cases hsharing with
    | failing => exact .refreshing .failing
    | size hname hid hp => exact .refreshing (.size hname hid hp)

theorem leafNext_size {clients : ℕ → ClientEnv} {k : ℕ} {h : DistributedPipelineHandle}
    (size : ℕ) : StartCollectives.leafNext clients (.waitingSize k h) (some (.groupSize size)) =
      .waitingAddresses k h size :=
  StartCollectives.leaf_size clients k h size

/-- Both go through a broadcast of `makeDistributedPipelineHandle` in the first call. -/
theorem sim_making {clients : ℕ → ℕ → ClientEnv} {made : Made} {w : Option ℕ}
    (hs : Sharing q.pipelineName q.providerId made w) {e : Call × Option Payload}
    (he : rootCall (.making made) = some e) :
    Sim q (rootNext env iterations (.making made))
      ⟨clients, leafPlace q clients (.making (makingAt w)) e.2⟩ := by
  cases hs with
  | failing =>
    obtain rfl : (Call.bcast 4, some (Payload.groupSize (-1))) = e := Option.some.inj he
    exact .of_root_left rfl fun _ _ _ hp => by cases hp
  | @size size packed h hname hid hp =>
    obtain rfl : (Call.bcast 4, some (Payload.groupSize size)) = e := Option.some.inj he
    have hne : (size : ℤ) ≠ -1 := by omega
    have hleaf : leafPlace q clients (.making (makingAt none)) (some (.groupSize size)) =
        .making (makingAt (some size)) := by
      simp [leafPlace, LeafPlace.between, makingAt, HandleCollectives.leafNext, hne]
    rw [hleaf]
    exact .making (.addresses hname hid hp)
  | @addresses size packed h hname hid hp =>
    obtain rfl : (Call.bcast packed.length, some (Payload.addresses packed)) = e :=
      Option.some.inj he
    change Sim q (.making ⟨[], .ok h⟩) ⟨clients, .making (.left (makeFromAddresses (clients 0 0)
      q.ssgGroupFile q.providerId q.pipelineName size packed))⟩
    cases hm : makeFromAddresses (clients 0 0) q.ssgGroupFile q.providerId q.pipelineName size
      packed with
    | error e => exact .of_leaf_left rfl fun _ _ _ hp => by cases hp
    | ok h' => exact .made (makeFromAddresses_same hname hid hp hm)

/-- Both go through a broadcast of a refresh. -/
theorem sim_refreshing {clients : ℕ → ℕ → ClientEnv} {c k : ℕ} {broadcast : Payload}
    {later : List Payload} {result : Except Exception DistributedPipelineHandle}
    {h' : DistributedPipelineHandle} {w : Option ℕ}
    (hs : Sharing h'.name h'.providerId ⟨broadcast :: later, result⟩ w) :
    Sim q (rootNext env iterations (.calling c (.refreshing k broadcast later result)))
      ⟨clients, leafPlace q clients (.calling c (refreshingAt k h' w)) (some broadcast)⟩ := by
  cases hs with
  | failing => exact .of_root_left rfl fun _ _ _ hp => by cases hp
  | @size size packed h hname hid hp =>
    have hleaf : leafPlace q clients (.calling c (refreshingAt k h' none))
        (some (.groupSize size)) = .calling c (refreshingAt k h' (some size)) := by
      simp only [leafPlace, LeafPlace.between, refreshingAt, leafNext_size]
    rw [hleaf]
    exact .refreshing (.addresses hname hid hp)
  | @addresses size packed h hname hid hp =>
    cases hm : makeFromAddresses (clients c k) h'.ssgGroupFile h'.providerId h'.name size
      packed with
    | error e =>
      have hleaf : leafPlace q clients (.calling c (refreshingAt k h' (some size)))
          (some (.addresses packed)) = .calling c (.threw k e) := by
        simp only [leafPlace, LeafPlace.between, refreshingAt, StartCollectives.leafNext, hm]
      rw [hleaf]
      exact .of_leaf_left rfl fun _ _ _ hp => by cases hp
    | ok h'' =>
      have hleaf : leafPlace q clients (.calling c (refreshingAt k h' (some size)))
          (some (.addresses packed)) = .calling c (.waitingOk k h'') := by
        simp only [leafPlace, LeafPlace.between, refreshingAt, StartCollectives.leafNext, hm]
      rw [hleaf]
      exact sim_begin (makeFromAddresses_same hname hid hp hm)

theorem sim_start (clients : ℕ → ℕ → ClientEnv) (hshort : ShortAddresses env) :
    Sim q (rootStart env q) ⟨clients, .making .waitingSize⟩ := by
  rcases makeOnMaster_sharing (env 0 0).client q.ssgGroupFile q.providerId q.pipelineName q.check
    (fun gid i addr => hshort 0 0 gid i addr) with ⟨e, he⟩ | hsharing
  · rw [rootStart, he]
    exact .of_root_left rfl fun _ _ _ hp => by cases hp
  · exact .making hsharing

theorem sim_tracks (hshort : ShortAddresses env) :
    Tracks (root env iterations) (leaf q) (Sim q) := by
  intro r m e hsim he hm
  cases hsim with
  | making hs => exact sim_making hs he
  | made hs =>
    obtain rfl : (Call.barrier, none) = e := Option.some.inj he
    exact sim_begin hs
  | @deciding clients c k h h' ok exit hs hexit =>
    obtain rfl : (Call.bcast 1, some (Payload.ok ok)) = e := Option.some.inj he
    cases ok with
    | true =>
      obtain rfl := hexit rfl
      exact .returned hs
    | false =>
      change Sim q _ ⟨clients, .calling c (.waitingSize (k + 1) h')⟩
      cases exit with
      | retry => exact sim_refresh hshort hs
      | threw e => exact .of_root_left rfl fun _ _ _ hp => by cases hp
      | returned =>
        -- rank 0 is at the next barrier, the other rank waits for a refresh
        apply Sim.apart
        · intro e he
          obtain rfl : (Call.barrier, none) = e := Option.some.inj he
          intro hcall
          cases hcall
        · intro c k h hp
          cases hp
  | @refreshing clients c k h' broadcast later result w hs =>
    obtain rfl : (Call.bcast broadcast.bytes, some broadcast) = e := Option.some.inj he
    exact sim_refreshing hs
  | returned hs =>
    obtain rfl : (Call.barrier, none) = e := Option.some.inj he
    exact sim_begin hs
  | apart hno _ => exact (hno e he hm).elim

end Sim

/-! ## Rank 0 by itself -/

section Root

variable {env : ℕ → ℕ → AttemptEnv} {q : Request} {iterations : ℕ → UInt64}

theorem beginAttempt_cases (env : ℕ → AttemptEnv) (iteration : UInt64) (k : ℕ)
    (h : DistributedPipelineHandle) :
    (∃ e, StartCollectives.beginAttempt env iteration k h = .threw k e) ∨
      ∃ sent ok aborted exit, attempt (env k) h iteration = .decided sent ok aborted exit ∧
        StartCollectives.beginAttempt env iteration k h = .deciding k h ok exit := by
  unfold StartCollectives.beginAttempt
  cases attempt (env k) h iteration with
  | threw sent e => exact Or.inl ⟨e, rfl⟩
  | decided sent ok aborted exit => exact Or.inr ⟨sent, ok, aborted, exit, rfl, rfl⟩

/-- What rank 0 is about to broadcast as `ok` comes from its attempt. -/
def Decided (env : ℕ → ℕ → AttemptEnv) (iterations : ℕ → UInt64) : RootAt → Prop
  | .calling c (.deciding k h ok exit) =>
    ∃ sent aborted, attempt (env c k) h (iterations c) = .decided sent ok aborted exit
  | .calling _ (.returned ..) => False
  | _ => True

theorem decided_begin (c k : ℕ) (h : DistributedPipelineHandle) :
    Decided env iterations
      (.calling c (StartCollectives.beginAttempt (env c) (iterations c) k h)) := by
  rcases beginAttempt_cases (env c) (iterations c) k h with
    ⟨e, he⟩ | ⟨sent, ok, aborted, exit, ha, he⟩
  · rw [he]
    trivial
  · rw [he]
    exact ⟨sent, aborted, ha⟩

theorem decided_refresh (c k : ℕ) (made : Made) :
    Decided env iterations
      (.calling c (StartCollectives.continueRefresh (env c) (iterations c) k made)) := by
  obtain ⟨broadcasts, result⟩ := made
  cases broadcasts with
  | cons broadcast later => trivial
  | nil =>
    cases result with
    | ok h => exact decided_begin c k h
    | error e => trivial

/-- Rank 0 returns from a call only with the broadcast of its last attempt. -/
theorem decided_next (env : ℕ → ℕ → AttemptEnv) (iterations : ℕ → UInt64) (r : RootAt) :
    Decided env iterations (rootNext env iterations r) ∨ ∃ c k h ok,
      r = .calling c (.deciding k h ok .returned) ∧
        rootNext env iterations r = .calling c (.returned k h) := by
  cases r with
  | making made =>
    obtain ⟨broadcasts, result⟩ := made
    cases broadcasts with
    | cons broadcast later => exact Or.inl trivial
    | nil =>
      cases result with
      | ok h => exact Or.inl (decided_begin 0 0 h)
      | error e => exact Or.inl trivial
  | calling c place =>
    cases place with
    | entering h => exact Or.inl (decided_begin c 0 h)
    | refreshing k broadcast later result => exact Or.inl (decided_refresh c k ⟨later, result⟩)
    | deciding k h ok exit =>
      cases exit with
      | returned => exact Or.inr ⟨c, k, h, ok, rfl, rfl⟩
      | threw e => exact Or.inl trivial
      | retry => exact Or.inl (decided_refresh c (k + 1) _)
    | returned k h => exact Or.inl (decided_begin (c + 1) 0 h)
    | threw k e => exact Or.inl trivial

/-- How many calls rank 0 has entered. -/
def RootAt.entered : RootAt → ℕ
  | .making _ => 0
  | .calling c _ => c + 1

theorem entered_next (r : RootAt) : r.entered ≤ (rootNext env iterations r).entered := by
  cases r with
  | making made => exact Nat.zero_le _
  | calling c place =>
    cases place with
    | returned k h => exact Nat.le_succ (c + 1)
    | _ => exact Nat.le_refl (c + 1)

theorem entered_iterate (env : ℕ → ℕ → AttemptEnv) (iterations : ℕ → UInt64) (r : RootAt) (j : ℕ) :
    r.entered ≤ ((rootNext env iterations)^[j] r).entered := by
  induction j with
  | zero => exact Nat.le_refl _
  | succ j ih =>
    rw [Function.iterate_succ_apply']
    exact ih.trans (entered_next _)

/-- Rank 0 goes on from a call to the next one, and does not come back. -/
theorem returned_of_iterate {c k k' : ℕ} {h h' : DistributedPipelineHandle} {j : ℕ}
    (hj : (rootNext env iterations)^[j] (.calling c (.returned k h)) =
      .calling c (.returned k' h')) : k' = k ∧ h' = h := by
  cases j with
  | zero =>
    cases hj
    exact ⟨rfl, rfl⟩
  | succ j =>
    rw [Function.iterate_succ_apply] at hj
    have hle := entered_iterate env iterations
      (rootNext env iterations (.calling c (.returned k h))) j
    rw [hj] at hle
    exact (Nat.not_succ_le_self (c + 1) hle).elim

/-- The last attempt of a call that ends with the broadcast of true. -/
theorem accepted_of_broadcast {c k j : ℕ} {h : DistributedPipelineHandle}
    (hreturned : (rootNext env iterations)^[j + 1] (rootStart env q) = .calling c (.returned k h))
    (hcall : rootCall ((rootNext env iterations)^[j] (rootStart env q)) =
      some (.bcast 1, some (.ok true))) :
    ∀ p ∈ servers h, AcceptedBy (fun p => (env c k).start h.groupHash p (iterations c))
      (attempt (env c k) h (iterations c)) p := by
  rw [Function.iterate_succ_apply'] at hreturned
  rcases decided_next env iterations ((rootNext env iterations)^[j] (rootStart env q)) with
    hno | ⟨c', k', h', ok, hr, hnext⟩
  · rw [hreturned] at hno
    exact hno.elim
  · rw [hreturned] at hnext
    cases hnext
    rw [hr] at hcall
    obtain rfl : ok = true := by
      cases hcall
      rfl
    cases j with
    | zero => cases hr
    | succ j =>
      rw [Function.iterate_succ_apply'] at hr
      rcases decided_next env iterations ((rootNext env iterations)^[j] (rootStart env q)) with
        hd | ⟨_, _, _, _, -, hnext⟩
      · rw [hr] at hd
        obtain ⟨sent, aborted, ha⟩ := hd
        exact (exit_of_ok ha).2
      · rw [hr] at hnext
        cases hnext

end Root

/-- For any number of other ranks and any sequence of calls, whatever the ranks meet in each
of them: where rank 0 has broadcast true and returned, each server of the list has accepted
in the last attempt, and every rank that has returned stages to this list. -/
theorem returned_ranks_share_servers (env : ℕ → ℕ → AttemptEnv) (q : Request)
    (iterations : ℕ → UInt64) {n : ℕ} (clients : Fin n → ℕ → ℕ → ClientEnv)
    (hshort : ShortAddresses env) {s : State n RootAt LeafAt Payload}
    (hr : SessionReachable env q iterations clients s) {c k : ℕ} {h : DistributedPipelineHandle}
    (hroot : s.root = .calling c (.returned k h))
    (hok : s.log.getLast? = some (.bcast 1, some (.ok true))) :
    (∀ p ∈ servers h, AcceptedBy (fun p => (env c k).start h.groupHash p (iterations c))
      (attempt (env c k) h (iterations c)) p) ∧
    ∀ j k' h', (s.leaf j).place = .calling c (.returned k' h') →
      k' = k ∧ h'.pipelines = h.pipelines ∧
      ∀ hash datasetName iteration blockId,
        stageTarget { h' with hash := hash } datasetName iteration blockId =
            stageTarget { h with hash := hash } datasetName iteration blockId ∧
          (h.pipelines ≠ [] → ∃ p ∈ h.pipelines,
            stageTarget { h with hash := hash } datasetName iteration blockId = .ok p) := by
  have hsync := synchronized_reachable (sim_tracks hshort)
    (fun k => sim_start (clients k) hshort) hr
  have hat : (rootNext env iterations)^[s.log.length] (rootStart env q) =
      .calling c (.returned k h) := hsync.root.symm.trans hroot
  constructor
  · rw [List.getLast?_eq_getElem?] at hok
    have hlt := (List.getElem?_eq_some_iff.mp hok).1
    obtain ⟨j, hj⟩ : ∃ j, s.log.length = j + 1 := ⟨s.log.length - 1, by omega⟩
    rw [hj] at hat
    rw [hj, Nat.add_sub_cancel, hsync.log j (by omega)] at hok
    exact accepted_of_broadcast hat hok
  · intro j k' h' hplace
    have hsim := hsync.leaf j
    have hle := (hsync.issued j).length_le
    rw [List.length_map] at hle
    generalize hthen : (root env iterations).next^[(s.issued j).length] (rootStart env q) = r
      at hsim
    generalize hleaf : s.leaf j = m at hsim hplace
    cases hsim with
    | @returned clients' c' k'' h₁ h₂ hs =>
      cases hplace
      -- rank 0 has not gone on since
      have hgap : (rootNext env iterations)^[s.log.length - (s.issued j).length]
          (.calling c (.returned k' h₁)) = .calling c (.returned k h) := by
        rw [← hthen, ← hat, ← Nat.sub_add_cancel hle, Function.iterate_add_apply]
        simp [root]
      obtain ⟨rfl, rfl⟩ := returned_of_iterate hgap
      refine ⟨rfl, hs.pipelines, fun hash datasetName iteration blockId => ⟨?_, fun hne => ?_⟩⟩
      · apply stageTarget_congr
        · exact hs.pipelines
        · rfl
      · have hne' : { h with hash := hash }.pipelines ≠ [] := hne
        exact stageTarget_mem hne' datasetName iteration blockId
    | apart _ hno => exact (hno c k' h' hplace).elim
    | @refreshing _ _ _ _ _ _ _ w _ => cases w <;> cases hplace
    | _ => cases hplace

/-! Three ranks start on two servers. The first accepts, the second already knows a third one and
refuses the hash; after a refresh all three accept. -/

def growing : ℕ → View
  | 0 => [(1, [97]), (2, [98])]
  | _ => [(1, [97]), (2, [98]), (3, [99])]

def refusedOnce (k : ℕ) : AttemptEnv where
  client := .ofView (growing k)
  start _ p _ := .reply (if k = 0 ∧ p.2 = 1 then .failure .invalidGroupHash "" else {})
  abort _ _ := .reply {}

def growingRequest : Request := ⟨"group.ssg", 0, "p", false⟩

theorem short_of_view {view : View} (hview : ∀ m ∈ view, ShortAddress m.2) {gid : GroupId} {i : ℕ}
    {addr : Address} (hres : Resolves (.ofView view) gid i addr) : ShortAddress addr := by
  obtain ⟨id, -, haddr⟩ := hres
  cases hm : view.find? fun m => m.1 = id with
  | none =>
    have hnone : (ClientEnv.ofView view).memberAddr gid id = .error (-1) := by
      simp [ClientEnv.ofView, hm]
    rw [hnone] at haddr
    cases haddr
  | some m =>
    have hsome : (ClientEnv.ofView view).memberAddr gid id = .ok m.2 := by
      simp [ClientEnv.ofView, hm]
    obtain rfl : m.2 = addr := Except.ok.inj (hsome.symm.trans haddr)
    exact hview m (List.mem_of_find?_eq_some hm)

instance (addr : Address) : Decidable (ShortAddress addr) :=
  inferInstanceAs (Decidable (_ ∧ _))

theorem growing_short (k : ℕ) : ∀ m ∈ growing k, ShortAddress m.2 := by
  cases k with
  | zero => decide
  | succ k =>
    change ∀ m ∈ growing 1, ShortAddress m.2
    decide

theorem refusedOnce_short : ShortAddresses fun _ => refusedOnce :=
  fun _ k _ _ _ => short_of_view (growing_short k)

theorem ranks_share_servers_after_a_refresh :
    ∃ (s : State 2 RootAt LeafAt Payload) (h : DistributedPipelineHandle),
      SessionReachable (fun _ => refusedOnce) growingRequest (fun _ => 1)
        (fun _ _ k => .ofView (growing k)) s ∧
      s.root = .calling 0 (.returned 1 h) ∧
      h.pipelines = [⟨"p", [97], 0⟩, ⟨"p", [98], 0⟩, ⟨"p", [99], 0⟩] ∧
      (∀ p ∈ servers h, AcceptedBy (fun p => (refusedOnce 1).start h.groupHash p 1)
        (attempt (refusedOnce 1) h 1) p) ∧
      ∀ j, ∃ h', (s.leaf j).place = .calling 0 (.returned 1 h') ∧
        h'.pipelines = h.pipelines ∧ ∀ hash datasetName iteration blockId,
          stageTarget { h' with hash := hash } datasetName iteration blockId =
            stageTarget { h with hash := hash } datasetName iteration blockId := by
  let R := root (fun _ => refusedOnce) (fun _ => 1)
  let L := leaf growingRequest
  let s₀ : State 2 RootAt LeafAt Payload :=
    initial (rootStart (fun _ => refusedOnce) growingRequest)
    fun _ => ⟨fun _ k => .ofView (growing k), .making .waitingSize⟩
  let two : List PipelineHandle := [⟨"p", [97], 0⟩, ⟨"p", [98], 0⟩]
  let three : List PipelineHandle := [⟨"p", [97], 0⟩, ⟨"p", [98], 0⟩, ⟨"p", [99], 0⟩]
  have htwo : two.length = 2 := rfl
  have hthree : three.length = 3 := rfl
  let former := packAll (List.replicate (2 * slotSize) 0) 0 two
  let current := packAll (List.replicate (3 * slotSize) 0) 0 three
  have hformer : some (Call.bcast (2 * slotSize)) = some (Call.bcast former.length) :=
    congrArg (fun bytes => some (Call.bcast bytes)) (packed_length htwo).symm
  have hcurrent : some (Call.bcast (3 * slotSize)) = some (Call.bcast current.length) :=
    congrArg (fun bytes => some (Call.bcast bytes)) (packed_length hthree).symm
  let s₁ := s₀.together R L (.bcast 4, some (.groupSize 2))
  let s₂ := s₁.together R L (.bcast former.length, some (.addresses former))
  let s₃ := s₂.together R L (.barrier, none)
  let s₄ := s₃.together R L (.bcast 1, some (.ok false))
  let s₅ := s₄.together R L (.bcast 4, some (.groupSize 3))
  let s₆ := s₅.together R L (.bcast current.length, some (.addresses current))
  let s₇ := s₆.together R L (.bcast 1, some (.ok true))
  have h₁ : Reaches (Step R L) s₀ s₁ := reaches_together rfl fun _ => ⟨rfl, rfl⟩
  have h₂ : Reaches (Step R L) s₁ s₂ := reaches_together rfl fun _ => ⟨hformer, rfl⟩
  have h₃ : Reaches (Step R L) s₂ s₃ := reaches_together rfl fun _ => ⟨rfl, rfl⟩
  have h₄ : Reaches (Step R L) s₃ s₄ := reaches_together rfl fun _ => ⟨rfl, rfl⟩
  have h₅ : Reaches (Step R L) s₄ s₅ := reaches_together rfl fun _ => ⟨rfl, rfl⟩
  have h₆ : Reaches (Step R L) s₅ s₆ := reaches_together rfl fun _ => ⟨hcurrent, rfl⟩
  have h₇ : Reaches (Step R L) s₆ s₇ := reaches_together rfl fun _ => ⟨rfl, rfl⟩
  have hr : SessionReachable (fun _ => refusedOnce) growingRequest (fun _ => 1)
      (fun _ _ k => .ofView (growing k)) s₇ :=
    (((((h₁.trans h₂).trans h₃).trans h₄).trans h₅).trans h₆).trans h₇
  obtain ⟨haccepted, hothers⟩ :=
    returned_ranks_share_servers _ _ _ _ refusedOnce_short hr (c := 0) (k := 1) rfl rfl
  refine ⟨s₇, _, hr, rfl, rfl, haccepted, fun j => ?_⟩
  obtain ⟨-, hpipelines, htargets⟩ := hothers j 1 _ rfl
  exact ⟨_, rfl, hpipelines, fun hash datasetName iteration blockId =>
    (htargets hash datasetName iteration blockId).1⟩

end SessionCollectives
