import Colza.Interfaces
import Mathlib.Data.List.TakeWhile

/-!
# Pipeline handles on the client

`makePipelineHandle` and the two sides of `makeDistributedPipelineHandle`: rank 0 asks
SSG for the group, looks every member up and broadcasts the addresses; the other ranks
build their list from what they receive. What SSG and Thallium answer is a parameter.
The engine, the communicator and the handle of the client itself are left out.
-/
namespace ClientHandles

open Interfaces

/-- The bytes of an address string, without its terminator. -/
abbrev Address := List UInt8

/-- `ssg_group_id_t`; `SSG_GROUP_ID_INVALID` is `none`. -/
abbrev GroupId := ℕ

structure PipelineHandle where
  name : String
  address : Address
  providerId : UInt16
  deriving DecidableEq, Repr

/-- What one RPC comes to. -/
inductive Rpc where
  | sendThrows (what : String)
  | waitThrows (what : String)
  | reply (result : RequestResult Int32)

/-- `none` and an error are failing calls. `lookup` is the text of the exception that
`engine::lookup` throws, if it throws one. -/
structure ClientEnv where
  groupIdLoad : String → Option GroupId
  groupObserve : GroupId → Bool
  groupSize : GroupId → Option ℕ
  memberIdFromRank : GroupId → ℕ → Except Int32 UInt64
  memberAddr : GroupId → UInt64 → Except Int32 Address
  memberIds : GroupId → List UInt64
  lookup : Address → Option String
  checkPipeline : PipelineHandle → Rpc

/-- An exception of Thallium: it is not a `colza::Exception` and has no code. -/
def Exception.foreign (what : String) : Exception := ⟨none, what⟩

def makePipelineHandle (env : ClientEnv) (address : Address) (providerId : UInt16)
    (pipelineName : String) (check : Bool) : Except Exception PipelineHandle :=
  match env.lookup address with
  | some what => .error (Exception.foreign what)
  | none =>
    let handle : PipelineHandle := ⟨pipelineName, address, providerId⟩
    if check then
      match env.checkPipeline handle with
      | .sendThrows what | .waitThrows what => .error (Exception.foreign what)
      | .reply result => if result.success then .ok handle else .error ⟨result.value, result.error⟩
    else .ok handle

abbrev HashFunction := String → UInt64 → UInt64 → UInt64

/-- `DistributedPipelineHandleImpl`. The SSG members are only valid on rank 0. -/
structure DistributedPipelineHandle where
  name : String
  hash : HashFunction := fun _ _ blockId => blockId
  pipelines : List PipelineHandle
  ssgGroupFile : String
  gid : Option GroupId
  groupHash : UInt64
  providerId : UInt16

def ComputeGroupHash (env : ClientEnv) (gid : GroupId) : UInt64 :=
  (env.memberIds gid).foldl (· ^^^ ·) 0

/-- The constructor that `makeDistributedPipelineHandle` uses. -/
def newHandle (env : ClientEnv) (name : String) (gid : Option GroupId) (ssgGroupFile : String)
    (providerId : UInt16) (pipelines : List PipelineHandle) : DistributedPipelineHandle where
  name := name
  pipelines := pipelines
  ssgGroupFile := ssgGroupFile
  gid := gid
  groupHash := match gid with
    | none => 0
    | some gid => ComputeGroupHash env gid
  providerId := providerId

/-! ## The buffer of addresses -/

def slotSize : ℕ := 256

def cString (buffer : List UInt8) : Address := buffer.takeWhile (· ≠ 0)

/-- Bytes past the end of the buffer are dropped; in the source such a write is undefined. -/
def strcpy (buffer : List UInt8) (offset : ℕ) (source : Address) : List UInt8 :=
  let text := cString source ++ [0]
  (buffer.take offset ++ text ++ buffer.drop (offset + text.length)).take buffer.length

theorem strcpy_length {buffer : List UInt8} {offset : ℕ} (h : offset ≤ buffer.length)
    (source : Address) : (strcpy buffer offset source).length = buffer.length := by
  unfold strcpy
  simp only [List.length_take, List.length_append, List.length_drop]
  omega

/-! ## Broadcasts -/

/-- What rank 0 broadcasts: the flag of `start`, the group size and the addresses. -/
inductive Payload where
  | ok (ok : Bool)
  | groupSize (size : ℤ)
  | addresses (packed : List UInt8)
  deriving DecidableEq, Repr

/-- The number of bytes of `bool`, of `int` and of the buffer. -/
def Payload.bytes : Payload → ℕ
  | .ok _ => 1
  | .groupSize _ => 4
  | .addresses packed => packed.length

/-- How the loop over the members ends early: with or without the broadcast of -1. -/
inductive LoopError where
  | silent (e : Exception)
  | announced (e : Exception)

/-- The loop of rank 0 over the given ranks of the group. -/
def gatherMembers (env : ClientEnv) (gid : GroupId) (providerId : UInt16) (pipelineName : String)
    (check : Bool) :
    List ℕ → List UInt8 → List PipelineHandle → Except LoopError (List UInt8 × List PipelineHandle)
  | [], packed, pipelines => .ok (packed, pipelines)
  | i :: ranks, packed, pipelines =>
    match env.memberIdFromRank gid i with
    | .error ret => .error (.silent (.of .ssgError
        ("Could not get member if from rank (ssg_get_group_member_id_from_rank returned " ++
          toString ret ++ ")")))
    | .ok memberId =>
      match env.memberAddr gid memberId with
      | .error ret => .error (.silent (.of .ssgError
          ("Could not get member address (ssg_get_group_member_addr returned " ++
            toString ret ++ ")")))
      | .ok addr =>
        match makePipelineHandle env addr providerId pipelineName check with
        | .error e => .error (.announced e)
        | .ok pipeline =>
          gatherMembers env gid providerId pipelineName check ranks
            (strcpy packed (i * slotSize) addr) (pipelines ++ [pipeline])

/-- The broadcasts of rank 0 and how its call ends. -/
structure Made where
  broadcasts : List Payload
  result : Except Exception DistributedPipelineHandle

/-- `makeDistributedPipelineHandle` on rank 0. -/
def makeOnMaster (env : ClientEnv) (ssgGroupFile : String) (providerId : UInt16)
    (pipelineName : String) (check : Bool) : Made :=
  match env.groupIdLoad ssgGroupFile with
  | none => ⟨[], .error (.of .ssgError ("Could not open SSG group file " ++ ssgGroupFile))⟩
  | some gid =>
    if !env.groupObserve gid then
      ⟨[], .error (.of .ssgError
        ("Could not observe the SSG group from file " ++ ssgGroupFile))⟩
    else match env.groupSize gid with
    | none => ⟨[], .error (.of .ssgError "Could not get group size")⟩
    | some size =>
      match gatherMembers env gid providerId pipelineName check (List.range size)
        (List.replicate (size * slotSize) 0) [] with
      | .error (.silent e) => ⟨[], .error e⟩
      | .error (.announced e) => ⟨[.groupSize (-1)], .error e⟩
      | .ok (packed, pipelines) =>
        ⟨[.groupSize size, .addresses packed],
          .ok (newHandle env pipelineName (some gid) ssgGroupFile providerId pipelines)⟩

/-- The loop of the other ranks over the slots of the buffer. -/
def unpackPipelines (env : ClientEnv) (packed : List UInt8) (providerId : UInt16)
    (pipelineName : String) : List ℕ → Except Exception (List PipelineHandle)
  | [] => .ok []
  | i :: slots =>
    match makePipelineHandle env (cString (packed.drop (i * slotSize))) providerId pipelineName
      false with
    | .error e => .error e
    | .ok pipeline =>
      (unpackPipelines env packed providerId pipelineName slots).map (pipeline :: ·)

/-- `makeDistributedPipelineHandle` on another rank, after it has received the addresses. -/
def makeFromAddresses (env : ClientEnv) (ssgGroupFile : String) (providerId : UInt16)
    (pipelineName : String) (size : ℕ) (packed : List UInt8) :
    Except Exception DistributedPipelineHandle :=
  (unpackPipelines env packed providerId pipelineName (List.range size)).map
    (newHandle env pipelineName none ssgGroupFile providerId)

/-! ## A group whose members all answer -/

/-- Member ids and addresses in the order of their ranks. -/
abbrev View := List (UInt64 × Address)

/-- SSG and Thallium when every call on the group succeeds. -/
def ClientEnv.ofView (view : View) : ClientEnv where
  groupIdLoad _ := some 0
  groupObserve _ := true
  groupSize _ := some view.length
  memberIdFromRank _ i := (view[i]?.map Prod.fst).elim (.error (-1)) .ok
  memberAddr _ id := ((view.find? fun m => m.1 = id).map Prod.snd).elim (.error (-1)) .ok
  memberIds _ := view.map Prod.fst
  lookup _ := none
  checkPipeline _ := .reply {}

/-! ## Members and slots -/

section Members

variable (env : ClientEnv) (gid : GroupId) (providerId : UInt16) (name : String) (check : Bool)

/-- SSG gives the id and the address of the member with this rank. -/
def Resolves (i : ℕ) (addr : Address) : Prop :=
  ∃ id, env.memberIdFromRank gid i = .ok id ∧ env.memberAddr gid id = .ok addr

/-- The part of the loop over the members that does not write to the buffer. -/
def resolveMember (i : ℕ) : Except LoopError PipelineHandle :=
  match env.memberIdFromRank gid i with
  | .error ret => .error (.silent (.of .ssgError
      ("Could not get member if from rank (ssg_get_group_member_id_from_rank returned " ++
        toString ret ++ ")")))
  | .ok memberId =>
    match env.memberAddr gid memberId with
    | .error ret => .error (.silent (.of .ssgError
        ("Could not get member address (ssg_get_group_member_addr returned " ++
          toString ret ++ ")")))
    | .ok addr =>
      match makePipelineHandle env addr providerId name check with
      | .error e => .error (.announced e)
      | .ok pipeline => .ok pipeline

def resolveMembers : List ℕ → Except LoopError (List PipelineHandle)
  | [] => .ok []
  | i :: ranks =>
    match resolveMember env gid providerId name check i with
    | .error e => .error e
    | .ok pipeline => (resolveMembers ranks).map (pipeline :: ·)

/-- The writes of the loop, from rank `i` on. -/
def packAll (packed : List UInt8) (i : ℕ) : List PipelineHandle → List UInt8
  | [] => packed
  | pipeline :: rest => packAll (strcpy packed (i * slotSize) pipeline.address) (i + 1) rest

variable {env gid providerId name check}

theorem makePipelineHandle_ok {addr : Address} {pipeline : PipelineHandle}
    (h : makePipelineHandle env addr providerId name check = .ok pipeline) :
    pipeline = ⟨name, addr, providerId⟩ := by
  unfold makePipelineHandle at h
  split at h
  · cases h
  · dsimp only at h
    split at h
    · split at h
      · cases h
      · cases h
      · split at h
        · exact (Except.ok.inj h).symm
        · cases h
    · exact (Except.ok.inj h).symm

theorem resolveMember_ok {i : ℕ} {pipeline : PipelineHandle}
    (h : resolveMember env gid providerId name check i = .ok pipeline) :
    pipeline.name = name ∧ pipeline.providerId = providerId ∧
      Resolves env gid i pipeline.address := by
  unfold resolveMember at h
  split at h
  · cases h
  · next id hid =>
    split at h
    · cases h
    · next addr haddr =>
      split at h
      · cases h
      · next made hmade =>
        obtain rfl : made = pipeline := Except.ok.inj h
        rw [makePipelineHandle_ok hmade]
        exact ⟨rfl, rfl, id, hid, haddr⟩

theorem gatherMembers_cons (i : ℕ) (ranks : List ℕ) (packed : List UInt8)
    (pipelines : List PipelineHandle) :
    gatherMembers env gid providerId name check (i :: ranks) packed pipelines =
      match resolveMember env gid providerId name check i with
      | .error e => .error e
      | .ok pipeline => gatherMembers env gid providerId name check ranks
          (strcpy packed (i * slotSize) pipeline.address) (pipelines ++ [pipeline]) := by
  cases hid : env.memberIdFromRank gid i with
  | error ret => simp only [gatherMembers, resolveMember, hid]
  | ok id =>
    cases haddr : env.memberAddr gid id with
    | error ret => simp only [gatherMembers, resolveMember, hid, haddr]
    | ok addr =>
      cases hm : makePipelineHandle env addr providerId name check with
      | error e => simp only [gatherMembers, resolveMember, hid, haddr, hm]
      | ok pipeline =>
        have ha : pipeline.address = addr := by rw [makePipelineHandle_ok hm]
        simp only [gatherMembers, resolveMember, hid, haddr, hm, ha]

/-- The loop resolves the members and packs their addresses. -/
theorem gatherMembers_eq (i n : ℕ) (packed : List UInt8) (pipelines : List PipelineHandle) :
    gatherMembers env gid providerId name check (List.range' i n) packed pipelines =
      (resolveMembers env gid providerId name check (List.range' i n)).map fun added =>
        (packAll packed i added, pipelines ++ added) := by
  induction n generalizing i packed pipelines with
  | zero => simp [gatherMembers, resolveMembers, packAll, Except.map]
  | succ n ih =>
    rw [List.range'_succ, gatherMembers_cons, resolveMembers]
    cases resolveMember env gid providerId name check i with
    | error e => rfl
    | ok pipeline =>
      simp only [ih]
      cases resolveMembers env gid providerId name check (List.range' (i + 1) n) with
      | error e => rfl
      | ok added => simp [Except.map, packAll]

/-- Rank 0 once the group is known. -/
theorem makeOnMaster_eq {ssgGroupFile : String} {size : ℕ}
    (hload : env.groupIdLoad ssgGroupFile = some gid) (hobserve : env.groupObserve gid = true)
    (hsize : env.groupSize gid = some size) :
    makeOnMaster env ssgGroupFile providerId name check =
      match resolveMembers env gid providerId name check (List.range' 0 size) with
      | .error (.silent e) => ⟨[], .error e⟩
      | .error (.announced e) => ⟨[.groupSize (-1)], .error e⟩
      | .ok added =>
        ⟨[.groupSize size, .addresses (packAll (List.replicate (size * slotSize) 0) 0 added)],
          .ok (newHandle env name (some gid) ssgGroupFile providerId added)⟩ := by
  simp only [makeOnMaster, hload, hobserve, hsize, Bool.not_true, Bool.false_eq_true, if_false,
    List.range_eq_range', gatherMembers_eq]
  cases resolveMembers env gid providerId name check (List.range' 0 size) with
  | error e => cases e <;> rfl
  | ok added => rfl

/-- The exits of rank 0 before its loop are silent. -/
theorem makeOnMaster_no_group {ssgGroupFile : String}
    (h : ¬ ∃ gid size, env.groupIdLoad ssgGroupFile = some gid ∧ env.groupObserve gid = true ∧
      env.groupSize gid = some size) :
    ∃ e, makeOnMaster env ssgGroupFile providerId name check = ⟨[], .error e⟩ := by
  cases hload : env.groupIdLoad ssgGroupFile with
  | none => exact ⟨_, by simp only [makeOnMaster, hload]; rfl⟩
  | some gid =>
    cases hobserve : env.groupObserve gid with
    | false => exact ⟨_, by simp only [makeOnMaster, hload, hobserve]; rfl⟩
    | true =>
      cases hsize : env.groupSize gid with
      | none => exact ⟨_, by simp only [makeOnMaster, hload, hobserve, hsize]; rfl⟩
      | some size => exact (h ⟨gid, size, hload, hobserve, hsize⟩).elim

theorem resolveMembers_ok {ranks : List ℕ} {added : List PipelineHandle}
    (h : resolveMembers env gid providerId name check ranks = .ok added) :
    added.length = ranks.length ∧ ∀ p ∈ added, p.name = name ∧ p.providerId = providerId ∧
      ∃ i, Resolves env gid i p.address := by
  induction ranks generalizing added with
  | nil =>
    obtain rfl : [] = added := Except.ok.inj h
    exact ⟨rfl, fun p hp => (List.not_mem_nil hp).elim⟩
  | cons i ranks ih =>
    rw [resolveMembers] at h
    cases hi : resolveMember env gid providerId name check i with
    | error e =>
      rw [hi] at h
      cases h
    | ok pipeline =>
      rw [hi] at h
      cases hr : resolveMembers env gid providerId name check ranks with
      | error e =>
        rw [hr] at h
        cases h
      | ok rest =>
        rw [hr] at h
        obtain rfl : pipeline :: rest = added := Except.ok.inj h
        obtain ⟨hlen, hall⟩ := ih hr
        obtain ⟨hname, hid, hres⟩ := resolveMember_ok hi
        refine ⟨by rw [List.length_cons, List.length_cons, hlen], fun p hp => ?_⟩
        rcases List.mem_cons.mp hp with rfl | hp
        · exact ⟨hname, hid, i, hres⟩
        · exact hall p hp

end Members

section Slots

/-- The buffer has this C string at the offset. -/
def HasString (buffer : List UInt8) (offset : ℕ) (text : Address) : Prop :=
  ∃ rest, buffer.drop offset = text ++ 0 :: rest

theorem cString_of_noNul {text : Address} (h : 0 ∉ text) (rest : List UInt8) :
    cString (text ++ 0 :: rest) = text := by
  unfold cString
  rw [List.takeWhile_append_of_pos]
  · simp
  · intro a ha
    have hne : a ≠ 0 := fun h0 => h (h0 ▸ ha)
    simpa using hne

theorem HasString.cString_drop {buffer : List UInt8} {offset : ℕ} {text : Address}
    (h : HasString buffer offset text) (h0 : 0 ∉ text) : cString (buffer.drop offset) = text := by
  obtain ⟨rest, hrest⟩ := h
  rw [hrest, cString_of_noNul h0]

theorem strcpy_eq {buffer : List UInt8} {offset : ℕ} {text : Address} (h0 : 0 ∉ text)
    (h : offset + text.length < buffer.length) :
    strcpy buffer offset text =
      buffer.take offset ++ (text ++ 0 :: buffer.drop (offset + text.length + 1)) := by
  have hc : cString text = text := by
    unfold cString
    rw [List.takeWhile_eq_self_iff]
    intro a ha
    have hne : a ≠ 0 := fun h1 => h0 (h1 ▸ ha)
    simpa using hne
  unfold strcpy
  rw [hc, List.take_of_length_le]
  · simp [Nat.add_assoc]
  · simp only [List.length_append, List.length_take, List.length_drop, List.length_singleton]
    omega

theorem strcpy_hasString {buffer : List UInt8} {offset : ℕ} {text : Address} (h0 : 0 ∉ text)
    (h : offset + text.length < buffer.length) :
    HasString (strcpy buffer offset text) offset text := by
  refine ⟨buffer.drop (offset + text.length + 1), ?_⟩
  rw [strcpy_eq h0 h]
  apply List.drop_left'
  rw [List.length_take]
  omega

/-- A write behind a string leaves it. -/
theorem HasString.strcpy {buffer : List UInt8} {offset o : ℕ} {text t : Address}
    (h : HasString buffer offset text) (ho : offset + text.length < o) (h0 : 0 ∉ t)
    (hb : o + t.length < buffer.length) :
    HasString (ClientHandles.strcpy buffer o t) offset text := by
  obtain ⟨rest, hrest⟩ := h
  have hkeep : (buffer.take o).drop offset =
      text ++ 0 :: rest.take (o - offset - text.length - 1) := by
    rw [List.drop_take, hrest, List.take_append, List.take_of_length_le (by omega)]
    have hsucc : o - offset - text.length = o - offset - text.length - 1 + 1 := by omega
    rw [hsucc, List.take_succ_cons]
    rfl
  rw [HasString, strcpy_eq h0 hb, List.drop_append_of_le_length, hkeep]
  · exact ⟨_, by rw [List.append_assoc, List.cons_append]⟩
  · rw [List.length_take]
    omega

/-- A string that is shorter than a slot, as the C string of an endpoint is. -/
def ShortAddress (addr : Address) : Prop := addr.length < slotSize ∧ 0 ∉ addr

theorem packAll_length (packed : List UInt8) (i : ℕ) (added : List PipelineHandle)
    (h : (i + added.length) * slotSize ≤ packed.length) :
    (packAll packed i added).length = packed.length := by
  induction added generalizing packed i with
  | nil => rfl
  | cons p added ih =>
    rw [List.length_cons] at h
    have hi : i * slotSize ≤ packed.length :=
      (Nat.mul_le_mul_right _ (Nat.le_add_right ..)).trans h
    have hlen := strcpy_length hi p.address
    rw [packAll, ih, hlen]
    rw [hlen, Nat.add_right_comm]
    exact h

theorem HasString.packAll {packed : List UInt8} {offset i : ℕ} {text : Address}
    {added : List PipelineHandle} (h : HasString packed offset text)
    (ho : offset + text.length < i * slotSize)
    (hshort : ∀ p ∈ added, ShortAddress p.address)
    (hlen : (i + added.length) * slotSize ≤ packed.length) :
    HasString (ClientHandles.packAll packed i added) offset text := by
  induction added generalizing packed i with
  | nil => exact h
  | cons p added ih =>
    obtain ⟨hp, hp0⟩ := hshort p (List.mem_cons_self ..)
    simp only [List.length_cons, Nat.add_mul, Nat.one_mul] at hlen
    apply ih
    · apply h.strcpy ho hp0
      omega
    · rw [Nat.succ_mul]
      exact ho.trans_le (Nat.le_add_right ..)
    · intro q hq
      exact hshort q (List.mem_cons_of_mem _ hq)
    · rw [strcpy_length (by omega)]
      simp only [Nat.add_mul, Nat.one_mul]
      omega

/-- Every slot holds the address that was written to it. -/
theorem packAll_hasString {packed : List UInt8} {i : ℕ} {added : List PipelineHandle}
    (hshort : ∀ p ∈ added, ShortAddress p.address)
    (hlen : (i + added.length) * slotSize ≤ packed.length) (j : ℕ) (hj : j < added.length) :
    HasString (packAll packed i added) ((i + j) * slotSize) added[j].address := by
  induction added generalizing packed i j with
  | nil => cases hj
  | cons p added ih =>
    obtain ⟨hp, hp0⟩ := hshort p (List.mem_cons_self ..)
    have hrest : ∀ q ∈ added, ShortAddress q.address := fun q hq =>
      hshort q (List.mem_cons_of_mem _ hq)
    simp only [List.length_cons, Nat.add_mul, Nat.one_mul] at hlen
    have hi : i * slotSize + p.address.length < packed.length := by omega
    have hlen' : (i + 1 + added.length) * slotSize ≤
        (strcpy packed (i * slotSize) p.address).length := by
      rw [strcpy_length (by omega)]
      simp only [Nat.add_mul, Nat.one_mul]
      omega
    cases j with
    | zero =>
      apply (strcpy_hasString hp0 hi).packAll
      · rw [Nat.succ_mul]
        exact Nat.add_lt_add_left hp _
      · exact hrest
      · exact hlen'
    | succ j =>
      have h := ih hrest hlen' j (by simpa using hj)
      have hji : i + 1 + j = i + (j + 1) := by omega
      rwa [hji] at h

/-- The buffer of rank 0 keeps its size. -/
theorem packed_length {size : ℕ} {added : List PipelineHandle} (h : added.length = size) :
    (packAll (List.replicate (size * slotSize) 0) 0 added).length = size * slotSize := by
  rw [packAll_length, List.length_replicate]
  rw [List.length_replicate, Nat.zero_add, h]

theorem unpackPipelines_ok {env : ClientEnv} {packed : List UInt8} {providerId : UInt16}
    {name : String} {slots : List ℕ} {pipelines : List PipelineHandle}
    (h : unpackPipelines env packed providerId name slots = .ok pipelines) :
    pipelines = slots.map fun i => ⟨name, cString (packed.drop (i * slotSize)), providerId⟩ := by
  induction slots generalizing pipelines with
  | nil => exact (Except.ok.inj h).symm
  | cons i slots ih =>
    rw [unpackPipelines] at h
    cases hm : makePipelineHandle env (cString (packed.drop (i * slotSize))) providerId name
      false with
    | error e =>
      rw [hm] at h
      cases h
    | ok pipeline =>
      rw [hm] at h
      cases hr : unpackPipelines env packed providerId name slots with
      | error e =>
        rw [hr] at h
        cases h
      | ok rest =>
        rw [hr] at h
        obtain rfl : pipeline :: rest = pipelines := Except.ok.inj h
        rw [makePipelineHandle_ok hm, ih hr, List.map_cons]

/-- The other ranks find the addresses that rank 0 has packed. -/
theorem unpack_packed {providerId : UInt16} {name : String} {added : List PipelineHandle}
    (h : ∀ p ∈ added, p.name = name ∧ p.providerId = providerId ∧ ShortAddress p.address) :
    ((List.range added.length).map fun i => PipelineHandle.mk name
      (cString ((packAll (List.replicate (added.length * slotSize) 0) 0 added).drop (i * slotSize)))
      providerId) = added := by
  apply List.ext_getElem
  · simp
  · intro j hj hj'
    obtain ⟨hname, hid, -, h0⟩ := h added[j] (List.getElem_mem hj')
    have hshort : ∀ p ∈ added, ShortAddress p.address := fun p hp => (h p hp).2.2
    have hlen : (0 + added.length) * slotSize ≤
        (List.replicate (added.length * slotSize) (0 : UInt8)).length := by
      rw [List.length_replicate, Nat.zero_add]
    have hstring := packAll_hasString hshort hlen j hj'
    rw [Nat.zero_add] at hstring
    simp only [List.getElem_map, List.getElem_range]
    rw [hstring.cString_drop h0, ← hname, ← hid]

end Slots

/-! ## Handles on a group whose members all answer -/

/-- Where every lookup succeeds any buffer gives a handle. -/
theorem makeFromAddresses_of_lookup {env : ClientEnv} (hlookup : ∀ addr, env.lookup addr = none)
    (ssgGroupFile : String) (providerId : UInt16) (name : String) (size : ℕ)
    (packed : List UInt8) :
    ∃ h, makeFromAddresses env ssgGroupFile providerId name size packed = .ok h := by
  have hall : ∀ slots, ∃ pipelines,
      unpackPipelines env packed providerId name slots = .ok pipelines := by
    intro slots
    induction slots with
    | nil => exact ⟨[], rfl⟩
    | cons i slots ih =>
      obtain ⟨pipelines, hp⟩ := ih
      have hone : makePipelineHandle env (cString (packed.drop (i * slotSize))) providerId name
          false = .ok ⟨name, cString (packed.drop (i * slotSize)), providerId⟩ := by
        simp [makePipelineHandle, hlookup]
      exact ⟨_, by simp only [unpackPipelines, hone, hp, Except.map]; rfl⟩
  obtain ⟨pipelines, hp⟩ := hall (List.range size)
  exact ⟨_, by simp only [makeFromAddresses, hp, Except.map]; rfl⟩

section OfView

variable (view : View) (providerId : UInt16) (name : String)

theorem makePipelineHandle_ofView (address : Address) :
    makePipelineHandle (.ofView view) address providerId name false =
      .ok ⟨name, address, providerId⟩ := rfl

/-- A member of the view has an address. -/
theorem memberAddr_ofView {i : ℕ} (hi : i < view.length) :
    ∃ addr, (ClientEnv.ofView view).memberAddr 0 view[i].1 = .ok addr := by
  have hsome : (view.find? fun m => m.1 = view[i].1).isSome := by
    rw [List.find?_isSome]
    exact ⟨view[i], List.getElem_mem hi, by simp⟩
  obtain ⟨m, hm⟩ := Option.isSome_iff_exists.mp hsome
  exact ⟨m.2, by simp [ClientEnv.ofView, hm]⟩

theorem resolveMembers_answered (ranks : List ℕ) (hr : ∀ i ∈ ranks, i < view.length) :
    ∃ added, resolveMembers (.ofView view) 0 providerId name false ranks = .ok added := by
  induction ranks with
  | nil => exact ⟨[], rfl⟩
  | cons i ranks ih =>
    have hi : i < view.length := hr i (List.mem_cons_self ..)
    obtain ⟨addr, haddr⟩ := memberAddr_ofView view hi
    have hid : (ClientEnv.ofView view).memberIdFromRank 0 i = .ok view[i].1 := by
      simp [ClientEnv.ofView, hi]
    obtain ⟨added, hadded⟩ := ih fun j hj => hr j (List.mem_cons_of_mem _ hj)
    refine ⟨⟨name, addr, providerId⟩ :: added, ?_⟩
    simp only [resolveMembers, resolveMember, hid, haddr, makePipelineHandle_ofView, hadded]
    rfl

/-- On such a group rank 0 broadcasts the size and a buffer of that many slots, and its
handle has that many pipelines. -/
theorem makeOnMaster_ofView (ssgGroupFile : String) :
    ∃ packed h, makeOnMaster (.ofView view) ssgGroupFile providerId name false =
        ⟨[.groupSize view.length, .addresses packed], .ok h⟩ ∧
      packed.length = view.length * slotSize ∧ h.pipelines.length = view.length := by
  have hload : (ClientEnv.ofView view).groupIdLoad ssgGroupFile = some 0 := rfl
  have hobserve : (ClientEnv.ofView view).groupObserve 0 = true := rfl
  have hsize : (ClientEnv.ofView view).groupSize 0 = some view.length := rfl
  obtain ⟨added, hadded⟩ := resolveMembers_answered view providerId name
    (List.range' 0 view.length) fun i hi => by simpa using (List.mem_range'_1.mp hi).2
  have hlen : added.length = view.length := by
    rw [(resolveMembers_ok hadded).1, List.length_range']
  rw [makeOnMaster_eq hload hobserve hsize, hadded]
  exact ⟨_, _, rfl, packed_length hlen, hlen⟩

end OfView

/-! ## Staging -/

/-- The pipeline to which `DistributedPipelineHandle::stage` sends a block. -/
def stageTarget (h : DistributedPipelineHandle) (datasetName : String)
    (iteration blockId : UInt64) : Except Exception PipelineHandle :=
  if hsize : h.pipelines.length = 0 then .error (.of .emptyDistPipeline
    "No concrete pipeline attached to colza::DistributedPipelineHandle object")
  else .ok (h.pipelines.get ⟨(h.hash datasetName iteration blockId).toNat % h.pipelines.length,
    Nat.mod_lt _ (Nat.pos_of_ne_zero hsize)⟩)

/-- A handle with pipelines has one for every block. -/
theorem stageTarget_mem {h : DistributedPipelineHandle} (hne : h.pipelines ≠ [])
    (datasetName : String) (iteration blockId : UInt64) :
    ∃ p ∈ h.pipelines, stageTarget h datasetName iteration blockId = .ok p := by
  have hsize : h.pipelines.length ≠ 0 := mt List.length_eq_zero_iff.mp hne
  exact ⟨_, List.get_mem _ _, dif_neg hsize⟩

theorem stageTarget_congr {h h' : DistributedPipelineHandle} (hp : h'.pipelines = h.pipelines)
    (hf : h'.hash = h.hash) (datasetName : String) (iteration blockId : UInt64) :
    stageTarget h' datasetName iteration blockId = stageTarget h datasetName iteration blockId := by
  cases h
  cases h'
  cases hp
  cases hf
  rfl

end ClientHandles
