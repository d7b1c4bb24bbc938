import Colza.DistributedStart

/-!
# The collectives of DistributedPipelineHandle::start

Rank 0 and the other ranks are programs that stop at the barrier, at the broadcasts of
`ok` and at the broadcasts of `makeDistributedPipelineHandle`. Rank 0 goes on with `retry`,
the others with `ok`. SSG and the lookups succeed, and every RPC is answered.
-/
namespace StartCollectives

open GuardedRuns Interfaces ClientHandles CollectiveNetwork DistributedStart

/-! ## The programs -/

/-- Rank 0: at the barrier, at a broadcast of the refresh before attempt `k`, at the
broadcast of `ok` in attempt `k`, or out of the call. -/
inductive RootAt where
  | entering (h : DistributedPipelineHandle)
  | refreshing (k : ℕ) (broadcast : Payload) (later : List Payload)
      (result : Except Exception DistributedPipelineHandle)
  | deciding (k : ℕ) (h : DistributedPipelineHandle) (ok : Bool) (exit : Exit)
  | returned (k : ℕ) (h : DistributedPipelineHandle)
  | threw (k : ℕ) (e : Exception)

/-- Another rank: at the barrier, waiting for the `ok` of attempt `k` or for the two
broadcasts of the refresh before it, or out of the call. -/
inductive LeafAt where
  | entering (h : DistributedPipelineHandle)
  | waitingOk (k : ℕ) (h : DistributedPipelineHandle)
  | waitingSize (k : ℕ) (h : DistributedPipelineHandle)
  | waitingAddresses (k : ℕ) (h : DistributedPipelineHandle) (size : ℕ)
  | returned (k : ℕ) (h : DistributedPipelineHandle)
  | threw (k : ℕ) (e : Exception)

section Programs

variable (env : ℕ → AttemptEnv) (clients : ℕ → ClientEnv) (iteration : UInt64)

/-- Attempt `k` of rank 0 as far as its broadcast. -/
def beginAttempt (k : ℕ) (h : DistributedPipelineHandle) : RootAt :=
  match attempt (env k) h iteration with
  | .threw _ e => .threw k e
  | .decided _ ok _ exit => .deciding k h ok exit

/-- The rest of a refresh. -/
def continueRefresh (k : ℕ) : Made → RootAt
  | ⟨broadcast :: later, result⟩ => .refreshing k broadcast later result
  | ⟨[], .ok h⟩ => beginAttempt env iteration k h
  | ⟨[], .error e⟩ => .threw k e

def rootCall : RootAt → Option (Call × Option Payload)
  | .entering _ => some (.barrier, none)
  | .refreshing _ broadcast _ _ => some (.bcast broadcast.bytes, some broadcast)
  | .deciding _ _ ok _ => some (.bcast (Payload.ok ok).bytes, some (.ok ok))
  | .returned .. | .threw .. => none

def rootNext : RootAt → RootAt
  | .entering h => beginAttempt env iteration 0 h
  | .refreshing k _ later result => continueRefresh env iteration k ⟨later, result⟩
  | .deciding k h _ exit =>
    match exit with
    | .returned => .returned k h
    | .threw e => .threw k e
    | .retry => continueRefresh env iteration (k + 1) (refresh env h (k + 1))
  | r => r

def root : Root RootAt Payload := ⟨rootCall, rootNext env iteration⟩

def leafCall : LeafAt → Option Call
  | .entering _ => some .barrier
  | .waitingOk .. => some (.bcast 1)
  | .waitingSize .. => some (.bcast 4)
  | .waitingAddresses _ _ size => some (.bcast (size * slotSize))
  | .returned .. | .threw .. => none

def leafNext : LeafAt → Option Payload → LeafAt
  | .entering h, _ => .waitingOk 0 h
  | .waitingOk k h, some (.ok ok) => if !ok then .waitingSize (k + 1) h else .returned k h
  | .waitingSize k h, some (.groupSize size) =>
    if size = -1 then .threw k (.of .ssgError "Master client could not resolve pipeline")
    else .waitingAddresses k h size.toNat
  | .waitingAddresses k h size, some (.addresses packed) =>
    match makeFromAddresses (clients k) h.ssgGroupFile h.providerId h.name size packed with
    | .ok h' => .waitingOk k h'
    | .error e => .threw k e
  | m, _ => m

def leaf : Leaf LeafAt Payload := ⟨leafCall, leafNext clients⟩

/-! ## Agreement -/

section Agrees

variable {n : ℕ} (s : State n RootAt LeafAt Payload) (k : Fin n)

/-- Rank `k` issues the collectives of rank 0, it leaves the call after the same attempt,
and no rank is left waiting. -/
structure Agrees : Prop where
  issued : leafIssued (leaf clients) s k <+: rootIssued (root env iteration) s ∨
    rootIssued (root env iteration) s <+: leafIssued (leaf clients) s k
  left : ∀ a h, s.leaf k = .returned a h → ∃ h', s.root = .returned a h'
  done : Stuck (root env iteration) (leaf clients) s →
    ∃ a h h', s.root = .returned a h ∧ s.leaf k = .returned a h' ∧
      s.issued k = s.log.map Prod.fst

end Agrees

end Programs

/-! ## Rank 0 makes one call -/

section Call

variable {env : ℕ → AttemptEnv} {h₀ : DistributedPipelineHandle} {iteration : UInt64}

/-- Rank 0 is at a place of the call on handle `h₀`. -/
inductive InCall (env : ℕ → AttemptEnv) (h₀ : DistributedPipelineHandle) (iteration : UInt64) :
    RootAt → Prop where
  | entering : InCall env h₀ iteration (.entering h₀)
  | refreshing {k h broadcast later result} : Begins env h₀ iteration k h →
      (attempt (env k) h iteration).exit = .retry → (refresh env h (k + 1)).result = result →
      InCall env h₀ iteration (.refreshing (k + 1) broadcast later result)
  | deciding {k h ok exit} : Begins env h₀ iteration k h →
      (attempt (env k) h iteration).exit = exit → InCall env h₀ iteration (.deciding k h ok exit)
  | returned {k h} : Begins env h₀ iteration k h →
      (attempt (env k) h iteration).exit = .returned → InCall env h₀ iteration (.returned k h)
  | threw {k e} : Throws env h₀ iteration → InCall env h₀ iteration (.threw k e)

theorem inCall_begin {k : ℕ} {h : DistributedPipelineHandle} (hb : Begins env h₀ iteration k h) :
    InCall env h₀ iteration (beginAttempt env iteration k h) := by
  unfold beginAttempt
  cases ha : attempt (env k) h iteration with
  | threw sent e => exact .threw ⟨k, h, e, hb, Or.inl (by rw [ha]; rfl)⟩
  | decided sent ok aborted exit => exact .deciding hb (by rw [ha]; rfl)

/-- `made` is what is left of the refresh after attempt `k`. -/
theorem inCall_refresh {k : ℕ} {h : DistributedPipelineHandle} {made : Made}
    (hb : Begins env h₀ iteration k h) (hretry : (attempt (env k) h iteration).exit = .retry)
    (hr : (refresh env h (k + 1)).result = made.result) :
    InCall env h₀ iteration (continueRefresh env iteration (k + 1) made) := by
  obtain ⟨broadcasts, result⟩ := made
  cases broadcasts with
  | cons broadcast later => exact .refreshing hb hretry hr
  | nil =>
    cases result with
    | ok h' => exact inCall_begin (.again hb hretry hr)
    | error e => exact .threw ⟨k, h, e, hb, Or.inr ⟨hretry, hr⟩⟩

theorem inCall_next {r : RootAt} (h : InCall env h₀ iteration r) :
    InCall env h₀ iteration (rootNext env iteration r) := by
  cases h with
  | entering => exact inCall_begin .first
  | refreshing hb hretry hr => exact inCall_refresh hb hretry hr
  | @deciding k h ok exit hb hexit =>
    cases exit with
    | returned => exact .returned hb hexit
    | threw e => exact .threw ⟨k, h, e, hb, Or.inl hexit⟩
    | retry => exact inCall_refresh hb hexit rfl
  | returned hb hexit => exact .returned hb hexit
  | threw ht => exact .threw ht

section Network

variable {n : ℕ} {L : Leaf LeafAt Payload} {m : Fin n → LeafAt}
  {s : State n RootAt LeafAt Payload} {k : ℕ}

theorem inCall_reachable (hr : Reachable (root env iteration) L (.entering h₀) m s) :
    InCall env h₀ iteration s.root :=
  hr.root_invariant (fun _ => inCall_next) .entering

/-- Whatever the other ranks do, rank 0 returns only as its call does by itself. -/
theorem root_returns {h : DistributedPipelineHandle}
    (hr : Reachable (root env iteration) L (.entering h₀) m s) (hs : s.root = .returned k h) :
    Returns env h₀ iteration := by
  have hc := inCall_reachable hr
  rw [hs] at hc
  cases hc with
  | returned hb hexit => exact ⟨k, h, hb, hexit⟩

theorem root_throws {e : Exception}
    (hr : Reachable (root env iteration) L (.entering h₀) m s) (hs : s.root = .threw k e) :
    Throws env h₀ iteration := by
  have hc := inCall_reachable hr
  rw [hs] at hc
  cases hc with
  | threw ht => exact ht

end Network

/-! The call depends on the attempts that begin, and on nothing else. -/

section Congruence

variable {env' : ℕ → AttemptEnv}
  (ha : ∀ k h, Begins env h₀ iteration k h →
    attempt (env k) h iteration = attempt (env' k) h iteration)
  (hclient : ∀ k, (env k).client = (env' k).client)

include ha

theorem beginAttempt_congr {k : ℕ} {h : DistributedPipelineHandle}
    (hb : Begins env h₀ iteration k h) :
    beginAttempt env iteration k h = beginAttempt env' iteration k h := by
  unfold beginAttempt
  rw [ha k h hb]

theorem continueRefresh_congr {k : ℕ} {made : Made}
    (hb : ∀ h, made.result = .ok h → Begins env h₀ iteration k h) :
    continueRefresh env iteration k made = continueRefresh env' iteration k made := by
  obtain ⟨broadcasts, result⟩ := made
  cases broadcasts with
  | cons broadcast later => rfl
  | nil =>
    cases result with
    | ok h => exact beginAttempt_congr ha (hb h rfl)
    | error e => rfl

include hclient

theorem rootNext_congr {r : RootAt} (hr : InCall env h₀ iteration r) :
    rootNext env iteration r = rootNext env' iteration r := by
  cases hr with
  | entering => exact beginAttempt_congr ha .first
  | refreshing hb hretry hresult =>
    apply continueRefresh_congr ha
    intro h' hh'
    exact .again hb hretry (hresult.trans hh')
  | @deciding k h ok exit hb hexit =>
    cases exit with
    | retry =>
      have hrefresh : refresh env h (k + 1) = refresh env' h (k + 1) := by
        unfold refresh
        rw [hclient]
      change continueRefresh env iteration (k + 1) (refresh env h (k + 1)) =
        continueRefresh env' iteration (k + 1) (refresh env' h (k + 1))
      rw [← hrefresh]
      apply continueRefresh_congr ha
      intro h' hh'
      exact .again hb hexit hh'
    | _ => rfl
  | _ => rfl

variable {n : ℕ} {L : Leaf LeafAt Payload} {s t : State n RootAt LeafAt Payload}

theorem step_congr {e : Event n} (hr : InCall env h₀ iteration s.root)
    (hs : Step (root env iteration) L s e t) : Step (root env' iteration) L s e t := by
  have hnext : (root env iteration).next s.root = (root env' iteration).next s.root :=
    rootNext_congr ha hclient hr
  cases hs with
  | @barrier x he hk =>
    have ht : s.together (root env iteration) L (.barrier, x) =
        s.together (root env' iteration) L (.barrier, x) := by
      unfold State.together
      rw [hnext]
    rw [ht]
    exact .barrier he hk
  | @send bytes x he =>
    have ht : s.send (root env iteration) (.bcast bytes, x) =
        s.send (root env' iteration) (.bcast bytes, x) := by
      unfold State.send
      rw [hnext]
    rw [ht]
    exact .send he
  | receive hk he => exact .receive hk he

theorem run_congr {p : List (Event n × State n RootAt LeafAt Payload)}
    (hr : InCall env h₀ iteration s.root) (hp : Run (Step (root env iteration) L) s p) :
    Run (Step (root env' iteration) L) s p := by
  induction hp with
  | nil => exact .nil _
  | @cons s e t p hs _ ih =>
    refine .cons (step_congr ha hclient hr hs) (ih ?_)
    cases hs with
    | barrier _ _ => exact inCall_next hr
    | send _ => exact inCall_next hr
    | receive _ _ => exact hr

end Congruence

end Call

/-! ## The network of the call -/

section Network

variable (views : ℕ → View) (replies aborts : ℕ → ℕ → RequestResult Int32)

/-- Rank 0 when the refresh before attempt `k` finds the group `views k`. -/
def groupEnv : ℕ → AttemptEnv := answeredBy (fun k => .ofView (views k)) replies aborts

/-- The programs of the call, entered with handle `h₀` on rank 0 and `hs` on the others. -/
def CallReachable {n : ℕ} (h₀ : DistributedPipelineHandle) (hs : Fin n → DistributedPipelineHandle)
    (iteration : UInt64) : State n RootAt LeafAt Payload → Prop :=
  Reachable (root (groupEnv views replies aborts) iteration) (leaf fun k => .ofView (views k))
    (.entering h₀) fun k => .entering (hs k)

/-- The number of servers in attempt `k`. -/
def serversAt (h₀ : DistributedPipelineHandle) : ℕ → ℕ
  | 0 => h₀.pipelines.length
  | k + 1 => (views (k + 1)).length

/-- Every attempt before attempt `k` was refused because of the group hash. -/
def RefusedBefore (h₀ : DistributedPipelineHandle) (k : ℕ) : Prop :=
  ∀ j < k, RefusesHash (replies j) (serversAt views h₀ j)

/-- The first attempt that is not refused because of the group hash is accepted by all. -/
def RefusedOnlyByHash (h₀ : DistributedPipelineHandle) : Prop :=
  ∀ k, RefusedBefore views replies h₀ k → ¬ RefusesHash (replies k) (serversAt views h₀ k) →
    AllAccept (replies k) (serversAt views h₀ k)

end Network

section Attempts

variable {views : ℕ → View} {replies aborts : ℕ → ℕ → RequestResult Int32}
  {h₀ h : DistributedPipelineHandle} {iteration : UInt64} {k : ℕ}

theorem beginAttempt_accepted (h : DistributedPipelineHandle)
    (ha : AllAccept (replies k) h.pipelines.length) :
    beginAttempt (groupEnv views replies aborts) iteration k h = .deciding k h true .returned := by
  obtain ⟨ok, aborted, exit, he, hok, -, hreturned⟩ := attempt_answered
    (fun k => .ofView (views k)) replies aborts h iteration k
  rw [beginAttempt, groupEnv, he, hok.mpr ha, hreturned (not_refusesHash_of_allAccept ha)]

theorem beginAttempt_refused (h : DistributedPipelineHandle)
    (hr : RefusesHash (replies k) h.pipelines.length) :
    beginAttempt (groupEnv views replies aborts) iteration k h = .deciding k h false .retry := by
  obtain ⟨ok, aborted, exit, he, hok, hretry, -⟩ := attempt_answered
    (fun k => .ofView (views k)) replies aborts h iteration k
  have hfalse : ok = false :=
    Bool.eq_false_iff.mpr fun ht => not_refusesHash_of_allAccept (hok.mp ht) hr
  rw [beginAttempt, groupEnv, he, hfalse, hretry hr]

/-- Servers refuse for other reasons only: `ok` is false, and rank 0 does not try again. -/
theorem beginAttempt_abandoned (h : DistributedPipelineHandle)
    (hr : ¬ RefusesHash (replies k) h.pipelines.length)
    (ha : ¬ AllAccept (replies k) h.pipelines.length) :
    beginAttempt (groupEnv views replies aborts) iteration k h = .deciding k h false .returned := by
  obtain ⟨ok, aborted, exit, he, hok, -, hreturned⟩ := attempt_answered
    (fun k => .ofView (views k)) replies aborts h iteration k
  have hfalse : ok = false := Bool.eq_false_iff.mpr fun ht => ha (hok.mp ht)
  rw [beginAttempt, groupEnv, he, hfalse, hreturned hr]

/-- Another rank receives the size of a group. -/
theorem leaf_size (clients : ℕ → ClientEnv) (k : ℕ) (h : DistributedPipelineHandle) (size : ℕ) :
    (leaf clients).next (.waitingSize k h) (some (.groupSize size)) =
      .waitingAddresses k h size := by
  have hne : (size : ℤ) ≠ -1 := by omega
  simp [leaf, leafNext, hne]

/-- Another rank receives the addresses. -/
theorem leaf_addresses (views : ℕ → View) (k : ℕ) (h : DistributedPipelineHandle) (size : ℕ)
    (packed : List UInt8) :
    ∃ h', (leaf fun k => .ofView (views k)).next (.waitingAddresses k h size)
      (some (.addresses packed)) = .waitingOk k h' := by
  have hlookup : ∀ addr, (ClientEnv.ofView (views k)).lookup addr = none := fun _ => rfl
  obtain ⟨h', hm⟩ := makeFromAddresses_of_lookup hlookup h.ssgGroupFile h.providerId h.name size
    packed
  refine ⟨h', ?_⟩
  simp only [leaf, leafNext, hm]

/-- A refresh of rank 0: two broadcasts, and a handle on the new group. -/
theorem refresh_groupEnv (views : ℕ → View) (replies aborts : ℕ → ℕ → RequestResult Int32)
    (h : DistributedPipelineHandle) (k : ℕ) :
    ∃ packed h', refresh (groupEnv views replies aborts) h k =
        ⟨[.groupSize (views k).length, .addresses packed], .ok h'⟩ ∧
      packed.length = (views k).length * slotSize ∧ h'.pipelines.length = (views k).length :=
  makeOnMaster_ofView (views k) h.providerId h.name h.ssgGroupFile

end Attempts

/-! ## In lockstep -/

section Lockstep

variable {views : ℕ → View} {replies aborts : ℕ → ℕ → RequestResult Int32}
  {h₀ : DistributedPipelineHandle} {iteration : UInt64}

/-- Attempt `k` is due, with a handle on the group of that attempt. -/
structure Due (views : ℕ → View) (replies : ℕ → ℕ → RequestResult Int32)
    (h₀ : DistributedPipelineHandle) (k : ℕ) (h : DistributedPipelineHandle) : Prop where
  before : RefusedBefore views replies h₀ k
  size : h.pipelines.length = serversAt views h₀ k

/-- Rank 0 and another rank are at the same place of the call. -/
inductive Sim (views : ℕ → View) (replies : ℕ → ℕ → RequestResult Int32)
    (h₀ : DistributedPipelineHandle) : RootAt → LeafAt → Prop where
  | entering {h h'} : Due views replies h₀ 0 h → Sim views replies h₀ (.entering h) (.entering h')
  | accepted {k h h'} :
      Sim views replies h₀ (.deciding k h true .returned) (.waitingOk k h')
  | refused {k h h'} : RefusedBefore views replies h₀ (k + 1) →
      Sim views replies h₀ (.deciding k h false .retry) (.waitingOk k h')
  | size {k h h' packed} {size : ℕ} : Due views replies h₀ k h →
      packed.length = size * slotSize →
      Sim views replies h₀ (.refreshing k (.groupSize size) [.addresses packed] (.ok h))
        (.waitingSize k h')
  | addresses {k h h' packed} {size : ℕ} : Due views replies h₀ k h →
      packed.length = size * slotSize →
      Sim views replies h₀ (.refreshing k (.addresses packed) [] (.ok h))
        (.waitingAddresses k h' size)
  | returned {k h h'} : Sim views replies h₀ (.returned k h) (.returned k h')

theorem refusedBefore_succ {k : ℕ} (h : RefusedBefore views replies h₀ k)
    (hr : RefusesHash (replies k) (serversAt views h₀ k)) :
    RefusedBefore views replies h₀ (k + 1) := by
  intro j hj
  rcases Nat.lt_succ_iff_lt_or_eq.mp hj with hlt | rfl
  · exact h j hlt
  · exact hr

theorem Due.sim {k : ℕ} {h h' : DistributedPipelineHandle} (hd : Due views replies h₀ k h)
    (hc : RefusedOnlyByHash views replies h₀) :
    Sim views replies h₀ (beginAttempt (groupEnv views replies aborts) iteration k h)
      (.waitingOk k h') := by
  by_cases hr : RefusesHash (replies k) h.pipelines.length
  · rw [beginAttempt_refused h hr]
    rw [hd.size] at hr
    exact .refused (refusedBefore_succ hd.before hr)
  · have ha : AllAccept (replies k) h.pipelines.length := by
      rw [hd.size] at hr ⊢
      exact hc k hd.before hr
    rw [beginAttempt_accepted h ha]
    exact .accepted

theorem sim_call {r : RootAt} {m : LeafAt} (h : Sim views replies h₀ r m) :
    leafCall m = (rootCall r).map Prod.fst := by
  cases h with
  | addresses _ hp => simp [leafCall, rootCall, Payload.bytes, hp]
  | _ => rfl

/-- The refresh after an attempt refused because of the group hash. -/
theorem sim_refresh {k : ℕ} {h h' : DistributedPipelineHandle}
    (hb : RefusedBefore views replies h₀ (k + 1)) :
    Sim views replies h₀
      (continueRefresh (groupEnv views replies aborts) iteration (k + 1)
        (refresh (groupEnv views replies aborts) h (k + 1))) (.waitingSize (k + 1) h') := by
  obtain ⟨packed, h'', he, hp, hsize⟩ := refresh_groupEnv views replies aborts h (k + 1)
  rw [he]
  exact .size ⟨hb, hsize⟩ hp

theorem lockstep (aborts : ℕ → ℕ → RequestResult Int32) (iteration : UInt64)
    (hc : RefusedOnlyByHash views replies h₀) :
    Lockstep (root (groupEnv views replies aborts) iteration) (leaf fun k => .ofView (views k))
      (Sim views replies h₀) where
  same := sim_call
  kept {r m e} h he := by
    cases h with
    | entering hd =>
      obtain rfl : (Call.barrier, none) = e := Option.some.inj he
      exact hd.sim hc
    | accepted =>
      obtain rfl : (Call.bcast 1, some (Payload.ok true)) = e := Option.some.inj he
      exact .returned
    | refused hb =>
      obtain rfl : (Call.bcast 1, some (Payload.ok false)) = e := Option.some.inj he
      exact sim_refresh hb
    | @size k h h' packed size hd hp =>
      obtain rfl : (Call.bcast 4, some (Payload.groupSize size)) = e := Option.some.inj he
      change Sim views replies h₀ _ ((leaf _).next _ (some (.groupSize size)))
      rw [leaf_size]
      exact .addresses hd hp
    | @addresses k h h' packed size hd hp =>
      obtain rfl : (Call.bcast packed.length, some (Payload.addresses packed)) = e :=
        Option.some.inj he
      obtain ⟨h'', hnext⟩ := leaf_addresses views k h' size packed
      change Sim views replies h₀ _ ((leaf _).next _ (some (.addresses packed)))
      rw [hnext]
      exact hd.sim hc
    | returned => cases he

variable {n : ℕ} {hs : Fin n → DistributedPipelineHandle} {s : State n RootAt LeafAt Payload}

theorem agrees_of_refusedOnlyByHash (hc : RefusedOnlyByHash views replies h₀)
    (hr : CallReachable views replies aborts h₀ hs iteration s) (k : Fin n) :
    Agrees (groupEnv views replies aborts) (fun k => .ofView (views k)) iteration s k := by
  have hl := lockstep aborts iteration hc
  have hsync := synchronized_reachable hl.tracks
    (fun _ => Sim.entering ⟨fun j hj => (Nat.not_lt_zero j hj).elim, rfl⟩) hr
  refine ⟨Or.inl (hsync.agree hl k), ?_, ?_⟩
  · intro a h ha
    have hsim := hsync.leaf k
    rw [ha] at hsim
    have hle := (hsync.issued k).length_le
    rw [List.length_map] at hle
    generalize hm : (root (groupEnv views replies aborts) iteration).next^[(s.issued k).length]
      (.entering h₀) = r at hsim
    cases hsim with
    | @returned _ h' =>
      -- rank 0 stays where it was when rank k left
      refine ⟨h', ?_⟩
      rw [hsync.root, ← Nat.sub_add_cancel hle, Function.iterate_add_apply, hm]
      exact Function.iterate_fixed rfl _
  · intro hstuck
    obtain ⟨hcall, hk⟩ := hsync.left_of_stuck hl hstuck
    obtain ⟨hcaught, hsim⟩ := hk k
    generalize hroot : s.root = r at hcall hsim
    generalize hleaf : s.leaf k = m at hsim
    cases hsim with
    | @returned a h h' => exact ⟨a, h, h', rfl, rfl, hsync.issued_eq hcaught⟩
    | _ => cases hcall

end Lockstep

/-! ## A refusal for another reason -/

section Abandoned

variable {views : ℕ → View} {replies aborts : ℕ → ℕ → RequestResult Int32}
  {h₀ : DistributedPipelineHandle} {iteration : UInt64} {n : ℕ}
  {hs : Fin n → DistributedPipelineHandle}

/-- All ranks go through the collective they are at. -/
theorem all_next {s : State n RootAt LeafAt Payload} {r : RootAt} {P Q : LeafAt → Prop}
    {e : Call × Option Payload} (hr : CallReachable views replies aborts h₀ hs iteration s)
    (hat : AllAt s r P) (he : rootCall r = some e)
    (hP : ∀ m, P m → leafCall m = some e.1 ∧ Q ((leaf fun k => .ofView (views k)).next m e.2)) :
    ∃ t, CallReachable views replies aborts h₀ hs iteration t ∧
      AllAt t ((root (groupEnv views replies aborts) iteration).next r) Q := by
  obtain ⟨t, ht, hat⟩ := AllAt.next (R := root (groupEnv views replies aborts) iteration)
    (L := leaf fun k => .ofView (views k)) hat he hP
  exact ⟨t, hr.trans ht, hat⟩

/-- Some interleaving brings all ranks to an attempt that is due. -/
theorem reaches_due (aborts : ℕ → ℕ → RequestResult Int32) (iteration : UInt64)
    (hs : Fin n → DistributedPipelineHandle) {k : ℕ} (hb : RefusedBefore views replies h₀ k) :
    ∃ s h, CallReachable views replies aborts h₀ hs iteration s ∧ Due views replies h₀ k h ∧
      AllAt s (beginAttempt (groupEnv views replies aborts) iteration k h)
        fun m => ∃ h', m = .waitingOk k h' := by
  induction k with
  | zero =>
    have hstart : AllAt (initial (.entering h₀) fun k => .entering (hs k) :
        State n RootAt LeafAt Payload) (.entering h₀) fun m => ∃ h', m = .entering h' :=
      ⟨rfl, fun k => ⟨⟨hs k, rfl⟩, rfl⟩⟩
    obtain ⟨t, ht, hat⟩ := all_next (.refl : CallReachable views replies aborts h₀ hs iteration _)
      hstart rfl (Q := fun m => ∃ h', m = .waitingOk 0 h') fun m ⟨h', hm⟩ => by
        rw [hm]
        exact ⟨rfl, h', rfl⟩
    exact ⟨t, h₀, ht, ⟨hb, rfl⟩, hat⟩
  | succ k ih =>
    obtain ⟨s, h, hs, hd, hat⟩ := ih fun j hj => hb j (Nat.lt_succ_of_lt hj)
    have hr := hb k (Nat.lt_succ_self k)
    rw [← hd.size] at hr
    rw [beginAttempt_refused h hr] at hat
    -- the flag, the size and the addresses
    obtain ⟨t, ht, hat⟩ := all_next hs hat rfl (Q := fun m => ∃ h', m = .waitingSize (k + 1) h')
      fun m ⟨h', hm⟩ => by
        rw [hm]
        exact ⟨rfl, h', rfl⟩
    obtain ⟨packed, h', he, hp, hsize⟩ := refresh_groupEnv views replies aborts h (k + 1)
    have hnext : (root (groupEnv views replies aborts) iteration).next
        (.deciding k h false .retry) = .refreshing (k + 1) (.groupSize (views (k + 1)).length)
          [.addresses packed] (.ok h') := by
      simp only [root, rootNext, he, continueRefresh]
    rw [hnext] at hat
    obtain ⟨u, hu, hat⟩ := all_next ht hat rfl
      (Q := fun m => ∃ h', m = .waitingAddresses (k + 1) h' (views (k + 1)).length)
      fun m ⟨h', hm⟩ => by
        rw [hm]
        exact ⟨rfl, h', leaf_size _ _ _ _⟩
    obtain ⟨v, hv, hat⟩ := all_next hu hat rfl (Q := fun m => ∃ h', m = .waitingOk (k + 1) h')
      fun m ⟨h', hm⟩ => by
        rw [hm]
        exact ⟨congrArg (fun bytes => some (Call.bcast bytes)) hp.symm, leaf_addresses _ _ _ _ _⟩
    exact ⟨v, h', hv, ⟨hb, hsize⟩, hat⟩

/-- Rank 0 leaves the call and the other ranks wait for a group size. -/
theorem reaches_abandoned (aborts : ℕ → ℕ → RequestResult Int32) (iteration : UInt64)
    (hs : Fin n → DistributedPipelineHandle) {k : ℕ} (hb : RefusedBefore views replies h₀ k)
    (hr : ¬ RefusesHash (replies k) (serversAt views h₀ k))
    (ha : ¬ AllAccept (replies k) (serversAt views h₀ k)) :
    ∃ s, CallReachable views replies aborts h₀ hs iteration s ∧
      Stuck (root (groupEnv views replies aborts) iteration) (leaf fun k => .ofView (views k)) s ∧
      ∀ j, ∃ h', s.leaf j = .waitingSize (k + 1) h' := by
  obtain ⟨s, h, hs, hd, hat⟩ := reaches_due aborts iteration hs hb
  rw [← hd.size] at hr ha
  rw [beginAttempt_abandoned h hr ha] at hat
  obtain ⟨t, ht, hat⟩ := all_next hs hat rfl (Q := fun m => ∃ h', m = .waitingSize (k + 1) h')
    fun m ⟨h', hm⟩ => by
      rw [hm]
      exact ⟨rfl, h', rfl⟩
  exact ⟨t, ht, hat.stuck rfl, fun j => (hat.2 j).1⟩

end Abandoned

/-- For any number of other ranks, whatever the servers answer in each attempt and whatever
group each refresh finds. -/
theorem ranks_agree_iff_refused_only_by_hash {n : ℕ} (views : ℕ → View)
    (replies aborts : ℕ → ℕ → RequestResult Int32) (h₀ : DistributedPipelineHandle)
    (hs : Fin n → DistributedPipelineHandle) (iteration : UInt64) :
    (∀ s, CallReachable views replies aborts h₀ hs iteration s → ∀ k,
      Agrees (groupEnv views replies aborts) (fun k => .ofView (views k)) iteration s k) ↔
    n = 0 ∨ RefusedOnlyByHash views replies h₀ := by
  constructor
  · intro hall
    by_contra hno
    obtain ⟨hn, hc⟩ := not_or.mp hno
    unfold RefusedOnlyByHash at hc
    simp only [not_forall] at hc
    obtain ⟨k, hb, hr, ha⟩ := hc
    obtain ⟨s, hs, hstuck, hwaits⟩ := reaches_abandoned aborts iteration hs hb hr ha
    let j : Fin n := ⟨0, Nat.pos_of_ne_zero hn⟩
    obtain ⟨a, h, h', -, hleft, -⟩ := (hall s hs j).done hstuck
    obtain ⟨h'', hwait⟩ := hwaits j
    rw [hwait] at hleft
    cases hleft
  · rintro (rfl | hc) s hs k
    · exact k.elim0
    · exact agrees_of_refusedOnlyByHash hc hs k

/-- One other rank, and one server that refuses because its pipeline is active. -/
theorem other_rank_waits_forever :
    ¬ ∀ (n : ℕ) (views : ℕ → View) (replies aborts : ℕ → ℕ → RequestResult Int32)
      (h₀ : DistributedPipelineHandle) (hs : Fin n → DistributedPipelineHandle)
      (iteration : UInt64) (s : State n RootAt LeafAt Payload),
      CallReachable views replies aborts h₀ hs iteration s → ∀ k,
        Agrees (groupEnv views replies aborts) (fun k => .ofView (views k)) iteration s k := by
  intro hall
  have hb : RefusedBefore (fun _ => []) (fun _ _ => activeElsewhere) oneServer 0 := by
    intro j hj
    exact (Nat.not_lt_zero j hj).elim
  have hr : ¬ RefusesHash (fun _ => activeElsewhere) 1 := by
    rintro ⟨j, -, hr⟩
    exact Bool.false_ne_true hr
  have ha : ¬ AllAccept (fun _ => activeElsewhere) 1 := by
    intro ha
    exact Bool.false_ne_true (ha 0 Nat.one_pos)
  obtain ⟨s, hs, hstuck, hwaits⟩ := reaches_abandoned (fun _ _ => {}) 1
    (fun _ : Fin 1 => oneServer) hb hr ha
  obtain ⟨a, h, h', -, hleft, -⟩ := (hall 1 _ _ _ _ _ _ s hs 0).done hstuck
  obtain ⟨h'', hwait⟩ := hwaits 0
  rw [hwait] at hleft
  cases hleft

end StartCollectives
