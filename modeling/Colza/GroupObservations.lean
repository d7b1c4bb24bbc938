import Colza.AdminThreads
import Colza.DistributedStart

/-!
# Observations of the group

Rank 0 observes the group for every handle that it makes and for every operation of `Admin`.
The destructor of the object behind a handle ends the observation of that object, and `Admin`
ends its own after it has joined its threads.
-/
namespace GroupObservations

open Interfaces ClientHandles AdminThreads GuardedRuns
open DistributedStart (accepted AttemptEnv Begins)

/-! ## The calls of SSG -/

inductive SsgCall where
  | observe (gid : GroupId)
  | unobserve (gid : GroupId)
  deriving DecidableEq, Repr

/-- The number of observes of a group minus the number of its unobserves. -/
def observations (calls : List SsgCall) (gid : GroupId) : ℤ :=
  calls.count (.observe gid) - calls.count (.unobserve gid)

/-- The successful observation with which `makeDistributedPipelineHandle` and the operations of
`Admin` begin. Nothing else in `makeDistributedPipelineHandle` observes or unobserves. -/
def observeGroup (env : ClientEnv) (ssgGroupFile : String) : List SsgCall :=
  match env.groupIdLoad ssgGroupFile with
  | none => []
  | some gid => if env.groupObserve gid then [.observe gid] else []

/-- `~DistributedPipelineHandleImpl`. -/
def destructor (h : DistributedPipelineHandle) : List SsgCall :=
  match h.gid with
  | none => []
  | some gid => [.unobserve gid]

/-! ## The client -/

/-- An object behind handles, and how many handles there are on it besides one. -/
structure Shared where
  impl : DistributedPipelineHandle
  others : ℕ

def Shared.observes (gid : GroupId) (x : Shared) : Bool := x.impl.gid = some gid

structure State where
  calls : List SsgCall
  live : List Shared

def initial : State := ⟨[], []⟩

def State.record (s : State) (calls : List SsgCall) : State := { s with calls := s.calls ++ calls }

def State.add (s : State) (h : DistributedPipelineHandle) : State :=
  { s with live := s.live ++ [⟨h, 0⟩] }

/-- One handle less on the object between `before` and `after`; the last one destroys it. -/
def State.release (s : State) (before : List Shared) (x : Shared) (after : List Shared) : State :=
  match x.others with
  | 0 => { s with live := before ++ after }.record (destructor x.impl)
  | others + 1 => { s with live := before ++ ⟨x.impl, others⟩ :: after }

/-- The calls of the client with everything they meet. `refresh` is the call of
`makeDistributedPipelineHandle` in `start` on a handle on object `x`. -/
inductive Event where
  | make (env : ClientEnv) (ssgGroupFile : String) (providerId : UInt16) (pipelineName : String)
      (check : Bool)
  | copy (x : Shared)
  | drop (x : Shared)
  | refresh (x : Shared) (env : ClientEnv)
  | admin (env : AdminEnv) (ssgFile : String) (providerId : UInt16) (op : Operation)

/-- A call of `Admin` returns when its caller has come to its end; one that a thread terminates
with the whole program has no state after it. -/
inductive Step (escape : Escape) (s : State) : Event → State → Prop where
  | made {env file providerId name check h} :
      (makeOnMaster env file providerId name check).result = .ok h →
      Step escape s (.make env file providerId name check) ((s.record (observeGroup env file)).add h)
  | makeThrew {env file providerId name check e} :
      (makeOnMaster env file providerId name check).result = .error e →
      Step escape s (.make env file providerId name check) (s.record (observeGroup env file))
  | copied {before x after} : s.live = before ++ x :: after →
      Step escape s (.copy x) { s with live := before ++ ⟨x.impl, x.others + 1⟩ :: after }
  | dropped {before x after} : s.live = before ++ x :: after →
      Step escape s (.drop x) (s.release before x after)
  | refreshed {before x after env h} : s.live = before ++ x :: after →
      (makeOnMaster env x.impl.ssgGroupFile x.impl.providerId x.impl.name false).result = .ok h →
      Step escape s (.refresh x env)
        (((s.record (observeGroup env x.impl.ssgGroupFile)).release before x after).add h)
  | refreshThrew {before x after env e} : s.live = before ++ x :: after →
      (makeOnMaster env x.impl.ssgGroupFile x.impl.providerId x.impl.name false).result =
        .error e →
      Step escape s (.refresh x env) (s.record (observeGroup env x.impl.ssgGroupFile))
  | adminThrew {env : AdminEnv} {file providerId op e} :
      env.distributed file providerId op = .error e →
      Step escape s (.admin env file providerId op) (s.record (observeGroup env.toClientEnv file))
  | adminReturned {env : AdminEnv} {file providerId op ts u} :
      env.distributed file providerId op = .ok ts →
      Reaches (AdminThreads.Step escape ts) (AdminThreads.initial ts.size) u →
      u.caller = .ended (.ok ()) →
      Step escape s (.admin env file providerId op)
        (s.record (observeGroup env.toClientEnv file ++ [.unobserve ts.gid]))

/-- There are as many observations of every group as objects that are to end one. -/
def Balanced (s : State) : Prop :=
  ∀ gid, observations s.calls gid = s.live.countP (Shared.observes gid)

/-! ## Where a call fails after it has observed the group -/

def Observed (env : ClientEnv) (ssgGroupFile : String) (gid : GroupId) : Prop :=
  env.groupIdLoad ssgGroupFile = some gid ∧ env.groupObserve gid = true

section Members

variable (env : ClientEnv) (gid : GroupId) (providerId : UInt16) (name : String) (check : Bool)

/-- The SSG calls, the lookup and the RPC of the loop over the members. -/
inductive MemberFails (i : ℕ) : Prop where
  | memberId {ret} : env.memberIdFromRank gid i = .error ret → MemberFails i
  | memberAddr {id ret} : env.memberIdFromRank gid i = .ok id →
      env.memberAddr gid id = .error ret → MemberFails i
  | lookup {addr what} : Resolves env gid i addr → env.lookup addr = some what → MemberFails i
  | check {addr} : Resolves env gid i addr → check = true →
      accepted (env.checkPipeline ⟨name, addr, providerId⟩) = false → MemberFails i

/-- `makeDistributedPipelineHandle` fails after it has observed this group. -/
def MakeFails (ssgGroupFile : String) : Prop :=
  Observed env ssgGroupFile gid ∧
    ∀ size, env.groupSize gid = some size → ∃ i < size, MemberFails env gid providerId name check i

end Members

/-- The calls that leave an observation of a group that nothing ends. -/
def Leaks : Event → GroupId → Prop
  | .make env file providerId name check, gid => MakeFails env gid providerId name check file
  | .refresh x env, gid =>
    MakeFails env gid x.impl.providerId x.impl.name false x.impl.ssgGroupFile
  | .admin env file _ (.create ..), gid =>
    Observed env.toClientEnv file gid ∧ env.groupSize gid = none
  | .admin _ _ _ (.destroy ..), _ | .copy _, _ | .drop _, _ => False

section Members

variable {env : ClientEnv} {gid : GroupId} {providerId : UInt16} {name : String} {check : Bool}

theorem makePipelineHandle_error_iff {addr : Address} :
    (∃ e, makePipelineHandle env addr providerId name check = .error e) ↔
      (∃ what, env.lookup addr = some what) ∨
        check = true ∧ accepted (env.checkPipeline ⟨name, addr, providerId⟩) = false := by
  unfold makePipelineHandle
  cases hl : env.lookup addr with
  | some what => exact iff_of_true ⟨_, rfl⟩ (Or.inl ⟨what, rfl⟩)
  | none =>
    cases check with
    | false => simp
    | true =>
      cases hr : env.checkPipeline ⟨name, addr, providerId⟩ with
      | sendThrows what | waitThrows what => simp [accepted, hr]
      | reply result => cases hs : result.success <;> simp [accepted, hr, hs]

theorem resolveMember_error_iff {i : ℕ} :
    (∃ e, resolveMember env gid providerId name check i = .error e) ↔
      MemberFails env gid providerId name check i := by
  unfold resolveMember
  constructor
  · rintro ⟨e, he⟩
    split at he
    · next ret hid => exact .memberId hid
    · next id hid =>
      split at he
      · next ret haddr => exact .memberAddr hid haddr
      · next addr haddr =>
        split at he
        · next hm =>
          rcases makePipelineHandle_error_iff.mp ⟨_, hm⟩ with ⟨what, hl⟩ | ⟨hc, hr⟩
          · exact .lookup ⟨id, hid, haddr⟩ hl
          · exact .check ⟨id, hid, haddr⟩ hc hr
        · cases he
  · have failed {addr : Address} (h : Resolves env gid i addr)
        (hm : ∃ e, makePipelineHandle env addr providerId name check = .error e) :
        ∃ e, resolveMember env gid providerId name check i = .error e := by
      obtain ⟨id, hid, haddr⟩ := h
      obtain ⟨e, he⟩ := hm
      exact ⟨.announced e, by simp only [resolveMember, hid, haddr, he]⟩
    intro h
    cases h with
    | memberId hid => exact ⟨_, by rw [hid]⟩
    | memberAddr hid haddr => exact ⟨_, by rw [hid]; simp only [haddr]; rfl⟩
    | lookup h hl => exact failed h (makePipelineHandle_error_iff.mpr (Or.inl ⟨_, hl⟩))
    | check h hc hr => exact failed h (makePipelineHandle_error_iff.mpr (Or.inr ⟨hc, hr⟩))

theorem resolveMembers_error_iff {ranks : List ℕ} :
    (∃ e, resolveMembers env gid providerId name check ranks = .error e) ↔
      ∃ i ∈ ranks, MemberFails env gid providerId name check i := by
  induction ranks with
  | nil => simp [resolveMembers]
  | cons i ranks ih =>
    rw [List.exists_mem_cons_iff, ← ih, ← resolveMember_error_iff, resolveMembers]
    cases resolveMember env gid providerId name check i with
    | error e => exact iff_of_true ⟨e, rfl⟩ (Or.inl ⟨e, rfl⟩)
    | ok pipeline =>
      cases resolveMembers env gid providerId name check ranks with
      | error e => exact iff_of_true ⟨e, rfl⟩ (Or.inr ⟨e, rfl⟩)
      | ok rest => simp [Except.map]

end Members

section Make

variable {env : ClientEnv} {file : String} {gid : GroupId} {providerId : UInt16} {name : String}
  {check : Bool}

/-- On a group that rank 0 has observed it fails as `MakeFails` says. -/
theorem make_error_iff (h : Observed env file gid) :
    (∃ e, (makeOnMaster env file providerId name check).result = .error e) ↔
      MakeFails env gid providerId name check file := by
  obtain ⟨hload, hobserve⟩ := h
  cases hsize : env.groupSize gid with
  | none =>
    refine iff_of_true ?_ ⟨⟨hload, hobserve⟩, fun size hs => ?_⟩
    · exact ⟨_, by simp only [makeOnMaster, hload, hobserve, hsize]; rfl⟩
    · cases hsize.symm.trans hs
  | some size =>
    have hmembers : (∃ e, (makeOnMaster env file providerId name check).result = .error e) ↔
        ∃ e, resolveMembers env gid providerId name check (List.range' 0 size) = .error e := by
      rw [makeOnMaster_eq hload hobserve hsize]
      cases resolveMembers env gid providerId name check (List.range' 0 size) with
      | error e => cases e <;> exact iff_of_true ⟨_, rfl⟩ ⟨_, rfl⟩
      | ok added => simp
    rw [hmembers, resolveMembers_error_iff]
    constructor
    · rintro ⟨i, hi, hf⟩
      refine ⟨⟨hload, hobserve⟩, fun size' hs => ?_⟩
      obtain rfl : size = size' := Option.some.inj (hsize.symm.trans hs)
      exact ⟨i, by simpa using hi, hf⟩
    · rintro ⟨-, hf⟩
      obtain ⟨i, hi, hf⟩ := hf size hsize
      exact ⟨i, by simpa using hi, hf⟩

theorem make_ok {h : DistributedPipelineHandle}
    (hm : (makeOnMaster env file providerId name check).result = .ok h) :
    ∃ gid, Observed env file gid ∧ h.gid = some gid := by
  by_cases hgroup : ∃ gid size, env.groupIdLoad file = some gid ∧ env.groupObserve gid = true ∧
      env.groupSize gid = some size
  · obtain ⟨gid, size, hload, hobserve, hsize⟩ := hgroup
    refine ⟨gid, ⟨hload, hobserve⟩, ?_⟩
    rw [makeOnMaster_eq hload hobserve hsize] at hm
    split at hm
    · cases hm
    · cases hm
    · cases hm
      rfl
  · obtain ⟨e, he⟩ := makeOnMaster_no_group hgroup
    rw [he] at hm
    cases hm

end Make

/-! ## The account of the observations -/

/-- The observations of a group that no living object is to end. -/
def excess (s : State) (gid : GroupId) : ℤ :=
  observations s.calls gid - s.live.countP (Shared.observes gid)

theorem balanced_iff_excess (s : State) : Balanced s ↔ ∀ gid, excess s gid = 0 :=
  forall_congr' fun _ => sub_eq_zero.symm

theorem observations_append (calls added : List SsgCall) (gid : GroupId) :
    observations (calls ++ added) gid = observations calls gid + observations added gid := by
  unfold observations
  rw [List.count_append, List.count_append]
  omega

section Account

variable {s t : State} {env : ClientEnv} {file : String} {gid : GroupId}

theorem observeGroup_observed (h : Observed env file gid) :
    observeGroup env file = [.observe gid] := by
  obtain ⟨hload, hobserve⟩ := h
  simp [observeGroup, hload, hobserve]

theorem observations_observeGroup (h : Observed env file gid) :
    observations (observeGroup env file) gid = 1 := by
  rw [observeGroup_observed h]
  simp [observations]

theorem observations_not_observed (h : ¬ Observed env file gid) :
    observations (observeGroup env file) gid = 0 := by
  unfold observeGroup
  split
  · rfl
  · next gid' hload =>
    split
    · next hobserve =>
      have hne : gid' ≠ gid := fun he => h (he ▸ ⟨hload, hobserve⟩)
      simp [observations, hne]
    · rfl

theorem observations_destructor (x : Shared) (gid : GroupId) :
    observations (destructor x.impl) gid = -if x.observes gid then 1 else 0 := by
  unfold destructor Shared.observes
  cases x.impl.gid with
  | none => rfl
  | some gid' =>
    by_cases he : gid' = gid
    · simp [observations, he]
    · simp [observations, he]

theorem excess_record (s : State) (calls : List SsgCall) (gid : GroupId) :
    excess (s.record calls) gid = excess s gid + observations calls gid := by
  change observations (s.calls ++ calls) gid - s.live.countP (Shared.observes gid) = _
  rw [observations_append]
  exact add_sub_right_comm _ _ _

theorem excess_add (s : State) (h : DistributedPipelineHandle) (gid : GroupId) :
    excess (s.add h) gid = excess s gid - if h.gid = some gid then 1 else 0 := by
  unfold excess State.add
  rw [List.countP_append]
  by_cases he : h.gid = some gid
  · simp [Shared.observes, he]
    omega
  · simp [Shared.observes, he]

theorem countP_replace {before after : List Shared} {x : Shared} (others : ℕ) (gid : GroupId) :
    (before ++ ⟨x.impl, others⟩ :: after).countP (Shared.observes gid) =
      (before ++ x :: after).countP (Shared.observes gid) := by
  rw [List.countP_append, List.countP_append, List.countP_cons, List.countP_cons]
  rfl

/-- A call that has only observed. -/
theorem excess_threw {s : State} {calls : List SsgCall} {gid : GroupId} {p : Prop}
    (h : p ∧ observations calls gid = 1 ∨ ¬ p ∧ observations calls gid = 0) :
    p ∧ excess (s.record calls) gid = excess s gid + 1 ∨
      ¬ p ∧ excess (s.record calls) gid = excess s gid := by
  rw [excess_record]
  rcases h with ⟨hp, hone⟩ | ⟨hp, hzero⟩
  · exact Or.inl ⟨hp, by rw [hone]⟩
  · exact Or.inr ⟨hp, by rw [hzero, add_zero]⟩

/-- What a handle had observed is ended with it, if no other handle has the same object. -/
theorem excess_release {before after : List Shared} {x : Shared} (h : s.live = before ++ x :: after)
    (gid : GroupId) : excess (s.release before x after) gid = excess s gid := by
  unfold State.release
  split
  · rw [excess_record, observations_destructor]
    unfold excess
    rw [h, List.countP_append, List.countP_append, List.countP_cons]
    split <;> push_cast <;> omega
  · unfold excess
    rw [h, countP_replace]

/-- A call that makes a handle observes the group of the handle and no other. -/
theorem made_account {providerId : UInt16} {name : String} {check : Bool}
    {h : DistributedPipelineHandle}
    (hm : (makeOnMaster env file providerId name check).result = .ok h) (gid : GroupId) :
    ¬ MakeFails env gid providerId name check file ∧
      observations (observeGroup env file) gid = if h.gid = some gid then 1 else 0 := by
  constructor
  · intro hf
    obtain ⟨e, he⟩ := (make_error_iff hf.1).mpr hf
    cases hm.symm.trans he
  · obtain ⟨gid', hobserved, hgid⟩ := make_ok hm
    rw [observeGroup_observed hobserved, hgid]
    by_cases he : gid' = gid
    · simp [observations, he]
    · simp [observations, he]

theorem makeThrew_account {providerId : UInt16} {name : String} {check : Bool} {e : Exception}
    (hm : (makeOnMaster env file providerId name check).result = .error e) (gid : GroupId) :
    (MakeFails env gid providerId name check file ∧ observations (observeGroup env file) gid = 1) ∨
      (¬ MakeFails env gid providerId name check file ∧
        observations (observeGroup env file) gid = 0) := by
  by_cases hobserved : Observed env file gid
  · exact Or.inl ⟨(make_error_iff hobserved).mp ⟨e, hm⟩, observations_observeGroup hobserved⟩
  · exact Or.inr ⟨fun hf => hobserved hf.1, observations_not_observed hobserved⟩

end Account

section Admin

variable {env : AdminEnv} {file : String} {providerId : UInt16} {op : Operation}

theorem openGroup_error {checkSize : Bool} {e : Exception} {gid : GroupId}
    (h : env.openGroup file checkSize = .error e) (ho : Observed env.toClientEnv file gid) :
    checkSize = true ∧ env.groupSize gid = none := by
  obtain ⟨hload, hobserve⟩ := ho
  simp only [AdminEnv.openGroup, hload, hobserve, Bool.not_true, Bool.false_eq_true,
    if_false] at h
  split at h
  · next hsize =>
    split at h
    · next hc => exact ⟨hc, hsize⟩
    · cases h
  · cases h

theorem openGroup_ok {checkSize : Bool} {g : GroupId × ℕ}
    (h : env.openGroup file checkSize = .ok g) :
    Observed env.toClientEnv file g.1 ∧ (checkSize = true → env.groupSize g.1 ≠ none) := by
  unfold AdminEnv.openGroup at h
  split at h
  · cases h
  · next gid hload =>
    split at h
    · cases h
    · next hobserve =>
      have ho : Observed env.toClientEnv file gid := ⟨hload, by simpa using hobserve⟩
      split at h
      · split at h
        · cases h
        · next hc =>
          cases h
          exact ⟨ho, fun hcheck => (hc hcheck).elim⟩
      · next size hsize =>
        cases h
        exact ⟨ho, fun _ hn => by cases hsize.symm.trans hn⟩

theorem leaks_admin_iff (gid : GroupId) :
    Leaks (.admin env file providerId op) gid ↔
      op.checksSize = true ∧ Observed env.toClientEnv file gid ∧ env.groupSize gid = none := by
  cases op with
  | create => exact (and_iff_right rfl).symm
  | destroy => exact iff_of_false id fun h => Bool.noConfusion h.1

theorem adminThrew_account {e : Exception} (h : env.distributed file providerId op = .error e)
    (gid : GroupId) :
    (Leaks (.admin env file providerId op) gid ∧
        observations (observeGroup env.toClientEnv file) gid = 1) ∨
      (¬ Leaks (.admin env file providerId op) gid ∧
        observations (observeGroup env.toClientEnv file) gid = 0) := by
  rw [leaks_admin_iff]
  by_cases ho : Observed env.toClientEnv file gid
  · obtain ⟨hc, hsize⟩ := openGroup_error (distributed_error h) ho
    exact Or.inl ⟨⟨hc, ho, hsize⟩, observations_observeGroup ho⟩
  · exact Or.inr ⟨fun hl => ho hl.2.1, observations_not_observed ho⟩

/-- An operation that comes to its end has ended its observation. -/
theorem adminReturned_account {ts : Threads} (h : env.distributed file providerId op = .ok ts)
    (gid : GroupId) :
    ¬ Leaks (.admin env file providerId op) gid ∧
      observations (observeGroup env.toClientEnv file ++ [.unobserve ts.gid]) gid = 0 := by
  obtain ⟨g, hg, rfl⟩ := distributed_ok h
  obtain ⟨ho, hsize⟩ := openGroup_ok hg
  constructor
  · rw [leaks_admin_iff]
    rintro ⟨hc, ho', hnone⟩
    obtain rfl : g.1 = gid := Option.some.inj (ho.1.symm.trans ho'.1)
    exact hsize hc hnone
  · rw [observeGroup_observed ho]
    change observations [.observe g.1, .unobserve g.1] gid = 0
    by_cases he : g.1 = gid
    · simp [observations, he]
    · simp [observations, he]

end Admin

/-- A call that fails after the group was observed leaves one observation, and no other call
changes the account. -/
theorem excess_step {escape : Escape} {s t : State} {e : Event} (h : Step escape s e t)
    (gid : GroupId) :
    (Leaks e gid ∧ excess t gid = excess s gid + 1) ∨
      (¬ Leaks e gid ∧ excess t gid = excess s gid) := by
  cases h with
  | made hm =>
    obtain ⟨hkept, haccount⟩ := made_account hm gid
    refine Or.inr ⟨hkept, ?_⟩
    rw [excess_add, excess_record, haccount, add_sub_cancel_right]
  | makeThrew hm => exact excess_threw (makeThrew_account hm gid)
  | copied hl =>
    refine Or.inr ⟨id, ?_⟩
    unfold excess
    rw [hl, countP_replace]
  | dropped hl => exact Or.inr ⟨id, excess_release hl gid⟩
  | @refreshed before x after env h hl hm =>
    obtain ⟨hkept, haccount⟩ := made_account hm gid
    refine Or.inr ⟨hkept, ?_⟩
    have hlive : (s.record (observeGroup env x.impl.ssgGroupFile)).live = before ++ x :: after := hl
    rw [excess_add, excess_release hlive, excess_record, haccount, add_sub_cancel_right]
  | refreshThrew _ hm => exact excess_threw (makeThrew_account hm gid)
  | adminThrew ha => exact excess_threw (adminThrew_account ha gid)
  | adminReturned ha _ _ =>
    obtain ⟨hkept, haccount⟩ := adminReturned_account ha gid
    exact Or.inr ⟨hkept, by rw [excess_record, haccount, add_zero]⟩

/-- The attempts of `start` are refreshes of a handle: the account of a run is also the account
of the calls of `start` in it. -/
theorem begins_reaches {escape : Escape} {attempts : ℕ → AttemptEnv} {iteration : UInt64} {k : ℕ}
    {h₀ h : DistributedPipelineHandle} (hb : Begins attempts h₀ iteration k h) {s : State}
    (hs : ∃ x ∈ s.live, x.impl = h₀) :
    ∃ t, Reaches (Step escape) s t ∧ ∃ x ∈ t.live, x.impl = h := by
  induction hb with
  | first => exact ⟨s, .refl, hs⟩
  | again _ _ hr ih =>
    obtain ⟨t, ht, x, hx, rfl⟩ := ih
    obtain ⟨before, after, hl⟩ := List.append_of_mem hx
    refine ⟨_, ht.snoc (.refreshed hl hr), ⟨_, 0⟩, ?_, rfl⟩
    exact List.mem_append_right _ (List.mem_singleton_self _)

/-- In a run of calls one observation is kept for every living object, and none else, exactly if
no call fails after it has observed the group. -/
theorem one_observation_per_handle_iff (escape : Escape) {s : State} {p : List (Event × State)}
    (h : Run (Step escape) s p) (hs : Balanced s) :
    Always Balanced s p ↔ Guarded (fun _ e => ∀ gid, ¬ Leaks e gid) s p := by
  refine always_iff_guarded (fun s e t hs hstep => ?_) h hs
  rw [balanced_iff_excess] at hs ⊢
  refine forall_congr' fun gid => ?_
  rcases excess_step hstep gid with ⟨hl, hexcess⟩ | ⟨hkept, hexcess⟩
  · rw [hs gid] at hexcess
    exact iff_of_false (by omega) (not_not_intro hl)
  · exact iff_of_true (hexcess.trans (hs gid)) hkept

def oneServer : ClientEnv := .ofView [(1, [97])]

def onServer : DistributedPipelineHandle :=
  newHandle oneServer "p" (some 0) "group.ssg" 1 [⟨"p", [97], 1⟩]

/-- A handle is made, refreshed and destroyed. -/
def refreshedOnce : List (Event × State) :=
  [(.make oneServer "group.ssg" 1 "p" true, ⟨[.observe 0], [⟨onServer, 0⟩]⟩),
    (.refresh ⟨onServer, 0⟩ oneServer, ⟨[.observe 0, .observe 0, .unobserve 0], [⟨onServer, 0⟩]⟩),
    (.drop ⟨onServer, 0⟩, ⟨[.observe 0, .observe 0, .unobserve 0, .unobserve 0], []⟩)]

theorem refreshed_handle_observes_once : Always Balanced initial refreshedOnce := by
  have hmade : (makeOnMaster oneServer "group.ssg" 1 "p" true).result = .ok onServer := rfl
  have hagain : (makeOnMaster oneServer "group.ssg" 1 "p" false).result = .ok onServer := rfl
  have hlive : [Shared.mk onServer 0] = [] ++ ⟨onServer, 0⟩ :: [] := rfl
  refine (one_observation_per_handle_iff .lost ?_ fun gid => rfl).mpr ?_
  · exact .cons (.made hmade) (.cons (@Step.refreshed _ _ [] _ [] _ _ hlive hagain)
      (.cons (@Step.dropped _ _ [] _ [] hlive) (.nil _)))
  · exact ⟨fun gid => (made_account hmade gid).1, fun gid => (made_account hagain gid).1,
      fun gid => id, trivial⟩

/-- The second of two members is not found. -/
def secondMissing : ClientEnv :=
  { ClientEnv.ofView [(1, [97]), (2, [98])] with
    lookup := fun address => if address = [98] then some "no route" else none }

/-- The loop over the members fails at its second, and the group stays observed. -/
theorem failed_lookup_keeps_observation :
    ¬ ∀ (escape : Escape) (s : State) (p : List (Event × State)),
      Run (Step escape) s p → Balanced s → Always Balanced s p := by
  intro h
  have hthrew : (makeOnMaster secondMissing "group.ssg" 1 "p" true).result =
      .error (Exception.foreign "no route") := rfl
  have hbalanced := (h .lost initial _ (.cons (.makeThrew hthrew) (.nil _)) fun _ => rfl).last 0
  exact absurd hbalanced (by decide)

end GroupObservations
