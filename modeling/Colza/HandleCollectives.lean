import Colza.ClientHandles
import Colza.CollectiveNetwork

/-!
# The collectives of makeDistributedPipelineHandle

Rank 0 broadcasts the size of the group and the addresses, or -1 when a lookup or a check
fails. An SSG call that fails is not announced: rank 0 leaves and the other ranks wait for
the size. Only calls of rank 0 fail here.
-/
namespace HandleCollectives

open GuardedRuns Interfaces ClientHandles CollectiveNetwork

/-- What the caller asks for. -/
structure Request where
  ssgGroupFile : String
  providerId : UInt16
  pipelineName : String
  check : Bool

abbrev Result := Except Exception DistributedPipelineHandle

/-- Another rank: waiting for one of the two broadcasts, or out of the call. -/
inductive LeafAt where
  | waitingSize
  | waitingAddresses (size : ℕ)
  | left (result : Result)

/-- What the other ranks meet when only rank 0 fails. -/
def otherRanks (env : ClientEnv) : ClientEnv := { env with lookup := fun _ => none }

section Programs

variable (env : ClientEnv) (q : Request)

/-- The program of rank 0 is what is left of its call. -/
def root : Root Made Payload where
  call made := made.broadcasts.head?.map fun b => (.bcast b.bytes, some b)
  next made := { made with broadcasts := made.broadcasts.tail }

def rootStart : Made := makeOnMaster env q.ssgGroupFile q.providerId q.pipelineName q.check

def leafCall : LeafAt → Option Call
  | .waitingSize => some (.bcast 4)
  | .waitingAddresses size => some (.bcast (size * slotSize))
  | .left _ => none

def leafNext (client : ClientEnv) : LeafAt → Option Payload → LeafAt
  | .waitingSize, some (.groupSize size) =>
    if size = -1 then .left (.error (.of .ssgError "Master client could not resolve pipeline"))
    else .waitingAddresses size.toNat
  | .waitingAddresses size, some (.addresses packed) =>
    .left (makeFromAddresses client q.ssgGroupFile q.providerId q.pipelineName size packed)
  | m, _ => m

def leaf : Leaf LeafAt Payload := ⟨leafCall, leafNext q (otherRanks env)⟩

/-- Both calls return a handle, or both throw. -/
def SameEnd : Result → Result → Prop
  | .ok _, .ok _ | .error _, .error _ => True
  | _, _ => False

/-- Rank `k` issues the broadcasts of rank 0, and no rank is left waiting. -/
structure Agrees {n : ℕ} (s : State n Made LeafAt Payload) (k : Fin n) : Prop where
  issued : leafIssued (leaf env q) s k <+: rootIssued root s ∨
    rootIssued root s <+: leafIssued (leaf env q) s k
  done : Stuck root (leaf env q) s → s.root.broadcasts = [] ∧
    ∃ result, s.leaf k = .left result ∧ SameEnd s.root.result result ∧
      s.issued k = s.log.map Prod.fst

def Start (n : ℕ) : State n Made LeafAt Payload :=
  initial (rootStart env q) fun _ => .waitingSize

/-- The loop of rank 0 goes on after this member. -/
def Joins (gid : GroupId) (i : ℕ) : Prop :=
  ∃ addr pipeline, Resolves env gid i addr ∧
    makePipelineHandle env addr q.providerId q.pipelineName q.check = .ok pipeline

/-- Every SSG call of rank 0 succeeds, as far as rank 0 gets. -/
def SsgAnswers : Prop :=
  ∃ gid size, env.groupIdLoad q.ssgGroupFile = some gid ∧ env.groupObserve gid = true ∧
    env.groupSize gid = some size ∧
    ∀ i < size, (∀ j < i, Joins env q gid j) → ∃ addr, Resolves env gid i addr

end Programs

/-! ## What rank 0 broadcasts -/

section Members

variable {env : ClientEnv} {q : Request} {gid : GroupId}

/-- What becomes of one pass of the loop. -/
inductive Passed (env : ClientEnv) (q : Request) (gid : GroupId) (i : ℕ) :
    Except LoopError PipelineHandle → Prop where
  | silent {e} : (∀ addr, ¬ Resolves env gid i addr) → Passed env q gid i (.error (.silent e))
  | announced {addr e} : Resolves env gid i addr → ¬ Joins env q gid i →
      Passed env q gid i (.error (.announced e))
  | joined {pipeline} : Joins env q gid i → Passed env q gid i (.ok pipeline)

theorem resolves_unique {i : ℕ} {addr addr' : Address} (h : Resolves env gid i addr)
    (h' : Resolves env gid i addr') : addr = addr' := by
  obtain ⟨id, hid, haddr⟩ := h
  obtain ⟨id', hid', haddr'⟩ := h'
  obtain rfl : id = id' := Except.ok.inj (hid.symm.trans hid')
  exact Except.ok.inj (haddr.symm.trans haddr')

theorem resolveMember_passed (i : ℕ) : Passed env q gid i
    (resolveMember env gid q.providerId q.pipelineName q.check i) := by
  cases hid : env.memberIdFromRank gid i with
  | error ret =>
    simp only [resolveMember, hid]
    apply Passed.silent
    rintro addr ⟨id, hid', -⟩
    rw [hid] at hid'
    cases hid'
  | ok id =>
    cases haddr : env.memberAddr gid id with
    | error ret =>
      simp only [resolveMember, hid, haddr]
      apply Passed.silent
      rintro addr ⟨id', hid', haddr'⟩
      obtain rfl : id = id' := Except.ok.inj (hid.symm.trans hid')
      rw [haddr] at haddr'
      cases haddr'
    | ok addr =>
      have hres : Resolves env gid i addr := ⟨id, hid, haddr⟩
      cases hm : makePipelineHandle env addr q.providerId q.pipelineName q.check with
      | error e =>
        simp only [resolveMember, hid, haddr, hm]
        apply Passed.announced hres
        rintro ⟨addr', pipeline, hres', hm'⟩
        rw [← resolves_unique hres hres', hm] at hm'
        cases hm'
      | ok pipeline =>
        simp only [resolveMember, hid, haddr, hm]
        exact .joined ⟨addr, pipeline, hres, hm⟩

theorem Joins.resolves {i : ℕ} (h : Joins env q gid i) : ∃ addr, Resolves env gid i addr := by
  obtain ⟨addr, -, hres, -⟩ := h
  exact ⟨addr, hres⟩

/-- The loop over the members is left in silence where one of them has no address. -/
theorem resolveMembers_silent_iff (i n : ℕ) :
    (∃ e, resolveMembers env gid q.providerId q.pipelineName q.check (List.range' i n) =
      .error (.silent e)) ↔
    ∃ j < n, (∀ l < j, Joins env q gid (i + l)) ∧ ∀ addr, ¬ Resolves env gid (i + j) addr := by
  induction n generalizing i with
  | zero => simp [resolveMembers]
  | succ n ih =>
    have hpassed : Passed env q gid i _ := resolveMember_passed i
    rw [List.range'_succ, resolveMembers]
    cases hm : resolveMember env gid q.providerId q.pipelineName q.check i with
    | error e =>
      rw [hm] at hpassed
      cases hpassed with
      | @silent e hno =>
        refine iff_of_true ⟨e, rfl⟩ ⟨0, Nat.succ_pos n, fun l hl => ?_, hno⟩
        exact (Nat.not_lt_zero l hl).elim
      | announced hres hnot =>
        apply iff_of_false
        · rintro ⟨e', he⟩
          cases he
        · rintro ⟨j, -, hjoins, hno⟩
          cases j with
          | zero => exact hno _ hres
          | succ j => exact hnot (hjoins 0 (Nat.succ_pos j))
    | ok pipeline =>
      rw [hm] at hpassed
      cases hpassed with
      | joined hjoin =>
        have hrest : (∃ e, resolveMembers env gid q.providerId q.pipelineName q.check
              (List.range' (i + 1) n) = .error (.silent e)) ↔
            ∃ e, (resolveMembers env gid q.providerId q.pipelineName q.check
              (List.range' (i + 1) n)).map (pipeline :: ·) = .error (.silent e) := by
          cases resolveMembers env gid q.providerId q.pipelineName q.check
            (List.range' (i + 1) n) with
          | error e => exact Iff.rfl
          | ok added =>
            apply iff_of_false
            · rintro ⟨e, he⟩
              cases he
            · rintro ⟨e, he⟩
              cases he
        refine hrest.symm.trans ((ih (i + 1)).trans ?_)
        constructor
        · rintro ⟨j, hj, hjoins, hno⟩
          have hshift : i + 1 + j = i + (j + 1) := by omega
          refine ⟨j + 1, Nat.succ_lt_succ hj, fun l hl => ?_, hshift ▸ hno⟩
          cases l with
          | zero => exact hjoin
          | succ l =>
            have hl' : i + 1 + l = i + (l + 1) := by omega
            exact hl' ▸ hjoins l (Nat.lt_of_succ_lt_succ hl)
        · rintro ⟨j, hj, hjoins, hno⟩
          cases j with
          | zero =>
            obtain ⟨addr, hres⟩ := hjoin.resolves
            exact (hno addr hres).elim
          | succ j =>
            have hshift : i + 1 + j = i + (j + 1) := by omega
            refine ⟨j, Nat.lt_of_succ_lt_succ hj, fun l hl => ?_, hshift ▸ hno⟩
            have hl' : i + 1 + l = i + (l + 1) := by omega
            exact hl' ▸ hjoins (l + 1) (Nat.succ_lt_succ hl)

/-- Where the SSG calls succeed rank 0 ends with a handle, or it broadcasts -1 first. -/
theorem rootStart_announced (h : SsgAnswers env q) :
    (∃ e, rootStart env q = ⟨[.groupSize (-1)], .error e⟩) ∨
      ∃ size packed made, rootStart env q =
          ⟨[.groupSize (size : ℕ), .addresses packed], .ok made⟩ ∧
        packed.length = size * slotSize := by
  obtain ⟨gid, size, hload, hobserve, hsize, hmembers⟩ := h
  unfold rootStart
  rw [makeOnMaster_eq hload hobserve hsize]
  cases hr : resolveMembers env gid q.providerId q.pipelineName q.check (List.range' 0 size) with
  | error e =>
    cases e with
    | announced e => exact Or.inl ⟨e, rfl⟩
    | silent e =>
      obtain ⟨j, hj, hjoins, hno⟩ := (resolveMembers_silent_iff 0 size).mp ⟨e, hr⟩
      simp only [Nat.zero_add] at hjoins hno
      obtain ⟨addr, hres⟩ := hmembers j hj hjoins
      exact (hno addr hres).elim
  | ok added =>
    have hlen := (resolveMembers_ok hr).1
    rw [List.length_range'] at hlen
    exact Or.inr ⟨size, _, _, rfl, packed_length hlen⟩

/-- An SSG call that fails is the end of the call of rank 0. -/
theorem rootStart_silent (h : ¬ SsgAnswers env q) :
    ∃ e, rootStart env q = ⟨[], .error e⟩ := by
  by_cases hgroup : ∃ gid size, env.groupIdLoad q.ssgGroupFile = some gid ∧
      env.groupObserve gid = true ∧ env.groupSize gid = some size
  · obtain ⟨gid, size, hload, hobserve, hsize⟩ := hgroup
    have hsilent : ∃ e, resolveMembers env gid q.providerId q.pipelineName q.check
        (List.range' 0 size) = .error (.silent e) := by
      rw [resolveMembers_silent_iff]
      by_contra hno
      refine h ⟨gid, size, hload, hobserve, hsize, fun i hi hjoins => ?_⟩
      by_contra hnone
      refine hno ⟨i, hi, ?_, ?_⟩
      · simpa only [Nat.zero_add] using hjoins
      · simpa only [Nat.zero_add, not_exists] using hnone
    obtain ⟨e, he⟩ := hsilent
    rw [rootStart, makeOnMaster_eq hload hobserve hsize, he]
    exact ⟨e, rfl⟩
  · exact makeOnMaster_no_group hgroup

end Members

/-! ## Agreement -/

section Network

variable {env : ClientEnv} {q : Request} {n : ℕ}

/-- Rank 0 and another rank are at the same place of the call. -/
inductive Sim : Made → LeafAt → Prop where
  | failing {e} : Sim ⟨[.groupSize (-1)], .error e⟩ .waitingSize
  | size {size : ℕ} {packed made} : packed.length = size * slotSize →
      Sim ⟨[.groupSize size, .addresses packed], .ok made⟩ .waitingSize
  | addresses {size : ℕ} {packed made} : packed.length = size * slotSize →
      Sim ⟨[.addresses packed], .ok made⟩ (.waitingAddresses size)
  | left {result result'} : SameEnd result result' → Sim ⟨[], result⟩ (.left result')

theorem lockstep (env : ClientEnv) (q : Request) : Lockstep root (leaf env q) Sim where
  same {r m} h := by
    cases h with
    | addresses hp => simp [leaf, leafCall, root, Payload.bytes, hp]
    | _ => rfl
  kept {r m e} h he := by
    cases h with
    | failing =>
      obtain rfl : (Call.bcast 4, some (Payload.groupSize (-1))) = e := Option.some.inj he
      exact .left trivial
    | @size size packed made hp =>
      obtain rfl : (Call.bcast 4, some (Payload.groupSize size)) = e := Option.some.inj he
      have hne : (size : ℤ) ≠ -1 := by omega
      have hnext : leafNext q (otherRanks env) .waitingSize (some (.groupSize size)) =
          .waitingAddresses size := by
        simp [leafNext, hne]
      change Sim _ (leafNext q (otherRanks env) .waitingSize (some (.groupSize size)))
      rw [hnext]
      exact .addresses hp
    | @addresses size packed made hp =>
      obtain rfl : (Call.bcast packed.length, some (Payload.addresses packed)) = e :=
        Option.some.inj he
      have hlookup : ∀ addr, (otherRanks env).lookup addr = none := fun _ => rfl
      obtain ⟨made', hmade⟩ := makeFromAddresses_of_lookup hlookup q.ssgGroupFile
        q.providerId q.pipelineName size packed
      apply Sim.left
      rw [hmade]
      trivial
    | left _ => cases he

theorem sim_start (h : SsgAnswers env q) : Sim (rootStart env q) .waitingSize := by
  rcases rootStart_announced h with ⟨e, he⟩ | ⟨size, packed, made, he, hp⟩
  · rw [he]
    exact .failing
  · rw [he]
    exact .size hp

theorem agrees_of_ssgAnswers {s : State n Made LeafAt Payload} (h : SsgAnswers env q)
    (hr : Reaches (Step root (leaf env q)) (Start env q n) s) (k : Fin n) :
    Agrees env q s k := by
  have hl := lockstep env q
  have hsync := synchronized_reachable hl.tracks (fun _ => sim_start h) hr
  refine ⟨Or.inl (hsync.agree hl k), ?_⟩
  intro hstuck
  obtain ⟨hcall, hk⟩ := hsync.left_of_stuck hl hstuck
  obtain ⟨hcaught, hsim⟩ := hk k
  have hissued := hsync.issued_eq hcaught
  generalize hroot : s.root = r at hcall hsim
  generalize hleaf : s.leaf k = m at hsim
  cases hsim with
  | left hend => exact ⟨rfl, _, rfl, hend, hissued⟩
  | _ => cases hcall

/-- After a failing SSG call the other ranks wait from the start. -/
theorem start_stuck (h : ¬ SsgAnswers env q) : Stuck root (leaf env q) (Start env q n) := by
  obtain ⟨e, he⟩ := rootStart_silent h
  have hat : AllAt (Start env q n) ⟨[], .error e⟩ fun m => m = .waitingSize :=
    ⟨he, fun _ => ⟨rfl, rfl⟩⟩
  exact hat.stuck rfl

/-- Rank 0 leaves after at most two broadcasts, so that no run goes on for ever. -/
theorem run_length {p : List (Event n × State n Made LeafAt Payload)}
    (hp : Run (Step root (leaf env q)) (Start env q n) p) : p.length ≤ 2 * (n + 1) := by
  by_cases h : SsgAnswers env q
  · apply run_length_le (lockstep env q).tracks (fun _ => sim_start h) hp
    rcases rootStart_announced h with ⟨e, he⟩ | ⟨size, packed, made, he, -⟩ <;> rw [he] <;> rfl
  · cases hp with
    | nil => exact Nat.zero_le _
    | cons hstep _ => exact (start_stuck h _ _ hstep).elim

end Network

/-- For any number of other ranks, and whatever fails on rank 0. Every run ends. -/
theorem ranks_agree_iff_ssg_answers (n : ℕ) (env : ClientEnv) (q : Request) :
    (∀ p, Run (Step root (leaf env q)) (Start env q n) p →
      p.length ≤ 2 * (n + 1) ∧ ∀ k, Agrees env q (final (Start env q n) p) k) ↔
    n = 0 ∨ SsgAnswers env q := by
  constructor
  · intro hall
    by_contra hno
    obtain ⟨hn, hs⟩ := not_or.mp hno
    let k : Fin n := ⟨0, Nat.pos_of_ne_zero hn⟩
    obtain ⟨-, result, hleft, -⟩ := ((hall [] (.nil _)).2 k).done (start_stuck hs)
    cases hleft
  · intro h p hp
    refine ⟨run_length hp, fun k => ?_⟩
    rcases h with rfl | hs
    · exact k.elim0
    · exact agrees_of_ssgAnswers hs hp.reaches k

/-- The group file does not open, and one other rank waits for the size. -/
theorem other_rank_waits_for_size :
    ¬ ∀ (n : ℕ) (env : ClientEnv) (q : Request) p,
      Run (Step root (leaf env q)) (Start env q n) p →
        p.length ≤ 2 * (n + 1) ∧ ∀ k, Agrees env q (final (Start env q n) p) k := by
  intro hall
  let env : ClientEnv := { ClientEnv.ofView [] with groupIdLoad := fun _ => none }
  have hs : ¬ SsgAnswers env ⟨"group.ssg", 0, "p", true⟩ := by
    rintro ⟨gid, size, hload, -⟩
    cases hload
  have hagrees := (hall 1 env ⟨"group.ssg", 0, "p", true⟩ [] (.nil _)).2 0
  obtain ⟨-, result, hleft, -⟩ := hagrees.done (start_stuck hs)
  cases hleft

end HandleCollectives
