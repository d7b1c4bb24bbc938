import Colza.MonaResolution
import Mathlib.Data.Fin.VecNotation
import Mathlib.Data.Fintype.EquivFin
import Mathlib.Data.List.FinRange

/-!
# The requests of one resolution of addresses

`_resolveMonaAddresses` comes to the members of the group in the order of their ranks, its own
rank first. It asks the members that it does not know for their addresses, one after the other
and each as often as its RPC fails, and inserts what it has found at the end.
-/
namespace MonaRequests

open Interfaces GroupHash MonaResolution
open MonaAddresses (AddressMap)

/-- What SSG, Thallium and MoNA answer to a provider. An error is the code that a function
returns. `providerHandle` is the text of the exception of the constructor of the handle, if it
throws one. `getMonaAddr` is the reply of a member after the requests that were sent before;
`none` is an RPC that throws. -/
structure Environment where
  selfId : Except ℤ MemberId
  memberRank : MemberId → Except ℤ ℕ
  groupSize : Except ℤ ℕ
  memberIdsFromRange : (size : ℕ) → Except ℤ (Fin size → MemberId)
  providerHandle : MemberId → Option String
  getMonaAddr : List MemberId → MemberId → Option (RequestResult String)
  addrSelf : Except ℤ NaAddr
  addrLookup : String → Except ℤ NaAddr

/-- What a call has come to, with the requests sent so far; `none` while the RPC to a member has
failed as often as attempts are given. -/
abbrev Result (α : Type) := Option (Except Exception α) × List MemberId

/-- The loop of `_requestMonaAddressFromSSGMember`. -/
def requestReply (env : Environment) (memberId : MemberId) :
    ℕ → List MemberId → Option (RequestResult String) × List MemberId
  | 0, requests => (none, requests)
  | attempts + 1, requests =>
    match env.getMonaAddr requests memberId with
    | some result => (some result, requests ++ [memberId])
    | none => requestReply env memberId attempts (requests ++ [memberId])

def _requestMonaAddressFromSSGMember (env : Environment) (attempts : ℕ) (memberId : MemberId)
    (requests : List MemberId) : Result NaAddr :=
  match env.providerHandle memberId with
  | some what => (some (.error (ClientHandles.Exception.foreign what)), requests)
  | none =>
    match requestReply env memberId attempts requests with
    | (none, requests) => (none, requests)
    | (some result, requests) =>
      match env.addrLookup (result.value.getD "") with
      | .error ret => (some (.error (.of .monaError
          ("mona_addr_lookup failed with error code " ++ toString ret))), requests)
      | .ok addr => (some (.ok addr), requests)

/-- The body of the loop over the ranks. -/
def resolveMember (env : Environment) (attempts : ℕ) (addresses : AddressMap)
    (selfId memberId : MemberId) (tmp : AddressMap) (requests : List MemberId) :
    Result AddressMap :=
  if (lookup addresses memberId).isSome then (some (.ok tmp), requests)
  else if memberId = selfId then
    -- The return value of `mona_addr_self` is not looked at.
    (some (.ok (tmp.apply (.assign memberId (env.addrSelf.toOption.getD 0)))), requests)
  else
    match _requestMonaAddressFromSSGMember env attempts memberId requests with
    | (some (.ok addr), requests) => (some (.ok (tmp.apply (.assign memberId addr))), requests)
    | (some (.error e), requests) => (some (.error e), requests)
    | (none, requests) => (none, requests)

/-- The loop over the given members. -/
def resolveMembers (env : Environment) (attempts : ℕ) (addresses : AddressMap)
    (selfId : MemberId) : List MemberId → AddressMap → List MemberId → Result AddressMap
  | [], tmp, requests => (some (.ok tmp), requests)
  | memberId :: rest, tmp, requests =>
    match resolveMember env attempts addresses selfId memberId tmp requests with
    | (some (.ok tmp), requests) => resolveMembers env attempts addresses selfId rest tmp requests
    | (some (.error e), requests) => (some (.error e), requests)
    | (none, requests) => (none, requests)

/-- The members in the order of the loop: `member_ids[(self_rank + i) % group_size]`. The sum is an
`int`, which is exact up to 2^30 members. -/
def rotated {size : ℕ} (memberIds : Fin size → MemberId) (selfRank : ℕ) : List MemberId :=
  (List.finRange size).map fun i : Fin size =>
    memberIds ⟨(selfRank + i) % size, Nat.mod_lt _ i.pos⟩

/-- How a call has ended, `m_mona_addresses` after it, and the requests that it has sent. -/
structure Resolution where
  ended : Option (Except Exception Unit)
  addresses : AddressMap
  requests : List MemberId

/-- One of the first four calls fails. -/
def ssgFails (addresses : AddressMap) (function : String) (ret : ℤ) : Resolution :=
  ⟨some (.error (.of .ssgError (function ++ " failed with error code " ++ toString ret))),
    addresses, []⟩

/-- The end of `_resolveMonaAddresses`, which an exception of the loop does not come to. -/
def insertFound (addresses : AddressMap) : Result AddressMap → Resolution
  | (some (.ok tmp), requests) => ⟨some (.ok ()), insertRange addresses tmp.entries, requests⟩
  | (some (.error e), requests) => ⟨some (.error e), addresses, requests⟩
  | (none, requests) => ⟨none, addresses, requests⟩

def _resolveMonaAddresses (env : Environment) (attempts : ℕ) (addresses : AddressMap) :
    Resolution :=
  match env.selfId with
  | .error ret => ssgFails addresses "ssg_get_self_id" ret
  | .ok selfId =>
    match env.memberRank selfId with
    | .error ret => ssgFails addresses "ssg_get_group_member_rank" ret
    | .ok selfRank =>
      match env.groupSize with
      | .error ret => ssgFails addresses "ssg_get_group_size" ret
      | .ok size =>
        match env.memberIdsFromRange size with
        | .error ret => ssgFails addresses "ssg_get_group_member_ids_from_range" ret
        | .ok memberIds =>
          insertFound addresses
            (resolveMembers env attempts addresses selfId (rotated memberIds selfRank) .empty [])

/-! ## A provider in its group -/

section Group

variable {n : ℕ} (env : Environment) (g : View n) (p : Fin n)

/-- SSG gives the provider its own id and rank and the members of the group. -/
structure InGroup : Prop where
  selfId : env.selfId = .ok (g.memberId p)
  memberRank : env.memberRank (g.memberId p) = .ok p
  groupSize : env.groupSize = .ok n
  memberIds : env.memberIdsFromRange n = .ok g.memberId

/-- The member replies whenever it is asked, and MoNA knows the address in its reply. -/
def Answers (memberId : MemberId) : Prop :=
  env.providerHandle memberId = none ∧ ∀ requests, ∃ result addr,
    env.getMonaAddr requests memberId = some result ∧
      env.addrLookup (result.value.getD "") = .ok addr

/-- The address is the one that the member has replied with. -/
def Replied (memberId : MemberId) (addr : NaAddr) : Prop :=
  ∃ requests result, env.getMonaAddr requests memberId = some result ∧
    env.addrLookup (result.value.getD "") = .ok addr

/-- The map has what it had and all members, and each member that was not known has been asked
once. An entry that was there stays, also the provider's own. -/
structure Resolved (before after : AddressMap) (requests : List MemberId) : Prop where
  keys : ∀ id, id ∈ after.keys ↔ id ∈ before.keys ∨ ∃ q, g.memberId q = id
  kept : ∀ id addr, lookup before id = some addr → lookup after id = some addr
  own : ∀ addr, env.addrSelf = .ok addr →
    lookup after (g.memberId p) = some ((lookup before (g.memberId p)).getD addr)
  others : ∀ q, q ≠ p → g.memberId q ∉ before.keys →
    ∃ addr, lookup after (g.memberId q) = some addr ∧ Replied env (g.memberId q) addr
  asked : ∀ q, q ≠ p → g.memberId q ∉ before.keys → requests.count (g.memberId q) = 1
  nobodyElse : ∀ id ∈ requests, ∃ q, q ≠ p ∧ g.memberId q ∉ before.keys ∧ g.memberId q = id

end Group

/-! ## The rotation -/

section Rotation

variable {n : ℕ} (g : View n) (p : Fin n)

/-- From any rank the loop comes to every rank once. -/
theorem rotation_perm : ((List.finRange n).map fun i : Fin n => memberAt p i).Perm
    (List.finRange n) := by
  have hsurjective : Function.Surjective fun i : Fin n => memberAt p i := by
    intro q
    obtain ⟨i, hi, hq⟩ := memberAt_covers p q
    exact ⟨⟨i, hi⟩, hq⟩
  have hinjective := Finite.injective_iff_surjective.mpr hsurjective
  rw [List.perm_ext_iff_of_nodup ((List.nodup_finRange n).map hinjective) (List.nodup_finRange n)]
  intro q
  simp only [List.mem_map, List.mem_finRange, true_and, iff_true]
  exact hsurjective q

theorem rotated_perm : (rotated g.memberId p).Perm ((List.finRange n).map g.memberId) := by
  have hrotated : rotated g.memberId p =
      ((List.finRange n).map fun i : Fin n => memberAt p i).map g.memberId := by
    rw [List.map_map]
    rfl
  rw [hrotated]
  exact (rotation_perm p).map g.memberId

theorem mem_rotated {id : MemberId} : id ∈ rotated g.memberId p ↔ ∃ q, g.memberId q = id := by
  rw [(rotated_perm g p).mem_iff]
  simp

theorem rotated_nodup : (rotated g.memberId p).Nodup := by
  rw [(rotated_perm g p).nodup_iff]
  exact (List.nodup_finRange n).map g.injective

end Rotation

/-! ## The loop over the members -/

section Loop

variable {env : Environment} {attempts : ℕ} {addresses tmp : AddressMap} {selfId id : MemberId}
  {visited requests : List MemberId}

/-- A member that has to be asked. -/
def isAsked (addresses : AddressMap) (selfId id : MemberId) : Bool :=
  id ≠ selfId && (lookup addresses id).isNone

/-- What has been found when the loop has come to these members. -/
structure Progress (env : Environment) (addresses : AddressMap) (selfId : MemberId)
    (visited : List MemberId) (tmp : AddressMap) (requests : List MemberId) : Prop where
  found : ∀ id ∈ visited, lookup addresses id = none → ∃ addr, lookup tmp id = some addr ∧
    (id = selfId → addr = env.addrSelf.toOption.getD 0) ∧ (id ≠ selfId → Replied env id addr)
  only : ∀ id ∉ visited, lookup tmp id = none
  requests : requests = visited.filter (isAsked addresses selfId)

theorem progress_nil : Progress env addresses selfId [] .empty [] :=
  ⟨fun _ hid => (List.not_mem_nil hid).elim, fun _ _ => rfl, rfl⟩

/-- The member was known. -/
theorem Progress.skip (h : Progress env addresses selfId visited tmp requests)
    (hknown : (lookup addresses id).isSome) :
    Progress env addresses selfId (visited ++ [id]) tmp requests := by
  constructor
  · intro id' hid hnone
    rcases List.mem_append.mp hid with hid | hid
    · exact h.found id' hid hnone
    · obtain rfl := List.mem_singleton.mp hid
      rw [hnone] at hknown
      cases hknown
  · intro id' hid
    exact h.only id' fun hmem => hid (List.mem_append_left _ hmem)
  · have hasked : isAsked addresses selfId id = false := by
      simp [isAsked, Option.isNone_eq_false_iff.mpr hknown]
    rw [List.filter_append, List.filter_cons_of_neg (by simp [hasked]), List.filter_nil,
      List.append_nil]
    exact h.requests

/-- An address has been found. -/
theorem Progress.assign (h : Progress env addresses selfId visited tmp requests) {addr : NaAddr}
    (added : List MemberId) (hself : id = selfId → addr = env.addrSelf.toOption.getD 0)
    (hreplied : id ≠ selfId → Replied env id addr)
    (hadded : added = [id].filter (isAsked addresses selfId)) :
    Progress env addresses selfId (visited ++ [id]) (tmp.apply (.assign id addr))
      (requests ++ added) := by
  constructor
  · intro id' hid hnone
    rw [lookup_assign]
    by_cases heq : id' = id
    · subst heq
      rw [if_pos rfl]
      exact ⟨addr, rfl, hself, hreplied⟩
    · rw [if_neg heq]
      rcases List.mem_append.mp hid with hid | hid
      · exact h.found id' hid hnone
      · exact (heq (List.mem_singleton.mp hid)).elim
  · intro id' hid
    have hne : id' ≠ id := fun heq => hid (by simp [heq])
    rw [lookup_assign, if_neg hne]
    exact h.only id' fun hmem => hid (List.mem_append_left _ hmem)
  · rw [List.filter_append, ← h.requests, hadded]

/-- A member that answers is asked once. -/
theorem request_answered (h : Answers env id) (hattempts : 0 < attempts)
    (requests : List MemberId) :
    ∃ addr, Replied env id addr ∧
      _requestMonaAddressFromSSGMember env attempts id requests =
        (some (.ok addr), requests ++ [id]) := by
  obtain ⟨hhandle, hreply⟩ := h
  obtain ⟨result, addr, hget, hlookup⟩ := hreply requests
  obtain ⟨attempts, rfl⟩ := Nat.exists_eq_add_one.mpr hattempts
  refine ⟨addr, ⟨requests, result, hget, hlookup⟩, ?_⟩
  simp only [_requestMonaAddressFromSSGMember, hhandle, requestReply, hget, hlookup]

/-- One round of the loop. -/
theorem resolveMember_progress (h : Progress env addresses selfId visited tmp requests)
    (hanswers : isAsked addresses selfId id = true → Answers env id) (hattempts : 0 < attempts) :
    ∃ tmp' requests', resolveMember env attempts addresses selfId id tmp requests =
        (some (.ok tmp'), requests') ∧
      Progress env addresses selfId (visited ++ [id]) tmp' requests' := by
  by_cases hknown : (lookup addresses id).isSome
  · exact ⟨tmp, requests, if_pos hknown, h.skip hknown⟩
  have hnone : lookup addresses id = none := Option.not_isSome_iff_eq_none.mp hknown
  by_cases hself : id = selfId
  · subst hself
    have hprogress := h.assign [] (fun _ => rfl) (fun hne => (hne rfl).elim)
      (by simp [isAsked])
    rw [List.append_nil] at hprogress
    refine ⟨_, requests, ?_, hprogress⟩
    rw [resolveMember, if_neg hknown, if_pos rfl]
  · have hasked : isAsked addresses selfId id = true := by simp [isAsked, hself, hnone]
    obtain ⟨addr, hreplied, hrequest⟩ := request_answered (hanswers hasked) hattempts requests
    refine ⟨_, _, ?_, h.assign [id] (fun heq => (hself heq).elim) (fun _ => hreplied)
      (by simp [hasked])⟩
    rw [resolveMember, if_neg hknown, if_neg hself, hrequest]

theorem resolveMembers_progress (members : List MemberId)
    (h : Progress env addresses selfId visited tmp requests)
    (hanswers : ∀ id ∈ members, isAsked addresses selfId id = true → Answers env id)
    (hattempts : 0 < attempts) :
    ∃ tmp' requests', resolveMembers env attempts addresses selfId members tmp requests =
        (some (.ok tmp'), requests') ∧
      Progress env addresses selfId (visited ++ members) tmp' requests' := by
  induction members generalizing visited tmp requests with
  | nil =>
    rw [List.append_nil]
    exact ⟨tmp, requests, rfl, h⟩
  | cons id members ih =>
    obtain ⟨tmp', requests', hround, hprogress⟩ := resolveMember_progress h
      (hanswers id (List.mem_cons_self ..)) hattempts
    have hrest := ih hprogress fun id' hid => hanswers id' (List.mem_cons_of_mem _ hid)
    rw [List.append_assoc] at hrest
    rw [resolveMembers, hround]
    exact hrest

end Loop

theorem isAsked_iff {n : ℕ} (g : View n) (p : Fin n) (addresses : AddressMap) (q : Fin n) :
    isAsked addresses (g.memberId p) (g.memberId q) = true ↔
      q ≠ p ∧ g.memberId q ∉ addresses.keys := by
  rw [← lookup_eq_none_iff, ← g.injective.ne_iff]
  simp [isAsked]

section Insertion

variable {n : ℕ} {env : Environment} {g : View n} {p : Fin n} {before tmp : AddressMap}
  {requests : List MemberId}

/-- What the loop has found is inserted. -/
theorem Progress.resolved
    (h : Progress env before (g.memberId p) (rotated g.memberId p) tmp requests) :
    Resolved env g p before (insertRange before tmp.entries) requests := by
  have hlookup (id : MemberId) : lookup (insertRange before tmp.entries) id =
      (lookup before id).or (lookup tmp id) := lookup_insertRange before tmp.entries id
  have hne {q : Fin n} (hq : q ≠ p) : g.memberId q ≠ g.memberId p := fun he => hq (g.injective he)
  have hvisited (q : Fin n) : g.memberId q ∈ rotated g.memberId p :=
    (mem_rotated g p).mpr ⟨q, rfl⟩
  constructor
  case keys =>
    intro id
    rw [← lookup_isSome_iff, ← lookup_isSome_iff, ← mem_rotated g p, hlookup]
    cases hid : lookup before id with
    | some addr => simp
    | none =>
      by_cases hmem : id ∈ rotated g.memberId p
      · obtain ⟨addr, haddr, -⟩ := h.found id hmem hid
        simp [haddr, hmem]
      · simp [h.only id hmem, hmem]
  case kept =>
    intro id addr hid
    rw [hlookup, hid]
    rfl
  case own =>
    intro addr hself
    rw [hlookup]
    cases hid : lookup before (g.memberId p) with
    | some known => rfl
    | none =>
      obtain ⟨found, hfound, hown, -⟩ := h.found _ (hvisited p) hid
      rw [hfound, hown rfl, hself]
      rfl
  case others =>
    intro q hq hunknown
    have hid := (lookup_eq_none_iff before _).mpr hunknown
    obtain ⟨addr, haddr, -, hreplied⟩ := h.found _ (hvisited q) hid
    rw [hlookup, hid]
    exact ⟨addr, haddr, hreplied (hne hq)⟩
  case asked =>
    intro q hq hunknown
    rw [h.requests, List.count_filter ((isAsked_iff g p before q).mpr ⟨hq, hunknown⟩)]
    exact List.count_eq_one_of_mem (rotated_nodup g p) (hvisited q)
  case nobodyElse =>
    intro id hid
    rw [h.requests, List.mem_filter, mem_rotated] at hid
    obtain ⟨⟨q, rfl⟩, hasked⟩ := hid
    obtain ⟨hq, hunknown⟩ := (isAsked_iff g p before q).mp hasked
    exact ⟨q, hq, hunknown, rfl⟩

end Insertion

/-! ## The rounds of a constructor among others -/

section Constructors

variable {n : ℕ} {m : Mona n} {g : View n} {p : Fin n} {env : Environment}

/-- What has come of a round that ends in this stage of the constructor. -/
def roundResult : Stage n → Option (Except Exception AddressMap)
  | .resolving _ tmp => some (.ok tmp)
  | .threw e => some (.error e)
  | _ => none

/-- A round is that of a constructor in `MonaResolution`: a step, or a request whose reply is
looked up. -/
theorem resolveMember_round (hself : env.addrSelf = m.addrSelf p)
    (hlookup : env.addrLookup = m.addrLookup p) (addresses : AddressMap) (i attempts : ℕ)
    (tmp : AddressMap) (requests : List MemberId) :
    let id := g.memberId (memberAt p i)
    let round := resolveMember env (attempts + 1) addresses (g.memberId p) id tmp requests
    (∃ tmp', resolveStep m g p addresses i tmp = .resolving (i + 1) tmp' ∧
      round = (some (.ok tmp'), requests)) ∨
    resolveStep m g p addresses i tmp = .requesting i tmp (memberAt p i) .sent ∧
      ∀ addr, env.providerHandle id = none →
        env.getMonaAddr requests id = some { value := some addr } →
        round = (roundResult (lookupStep m g p i tmp (memberAt p i) addr), requests ++ [id]) := by
  intro id round
  by_cases hknown : (lookup addresses id).isSome
  · refine Or.inl ⟨tmp, ?_, if_pos hknown⟩
    rw [resolveStep, if_pos hknown]
  by_cases hown : id = g.memberId p
  · refine Or.inl ⟨tmp.apply (.assign id ((m.addrSelf p).toOption.getD 0)), ?_, ?_⟩
    · rw [resolveStep, if_neg hknown, if_pos hown]
    · rw [← hself]
      change resolveMember _ _ _ _ _ _ _ = _
      rw [resolveMember, if_neg hknown, if_pos hown]
  · refine Or.inr ⟨?_, fun addr hhandle hget => ?_⟩
    · rw [resolveStep, if_neg hknown, if_neg hown]
    · change resolveMember _ _ _ _ _ _ _ = _
      rw [resolveMember, if_neg hknown, if_neg hown]
      simp only [_requestMonaAddressFromSSGMember, hhandle, requestReply, hget, hlookup,
        Option.getD_some, lookupStep]
      cases m.addrLookup p addr with
      | error ret => rfl
      | ok found => rfl

end Constructors

/-! ## Whatever the calls come to -/

/-- Every attempt is a request to the same member. -/
theorem requestReply_requests (env : Environment) (id : MemberId) (attempts : ℕ)
    (requests : List MemberId) :
    ∀ x ∈ (requestReply env id attempts requests).2, x ∈ requests ∨ x = id := by
  induction attempts generalizing requests with
  | zero => exact fun x hx => Or.inl hx
  | succ attempts ih =>
    intro x hx
    rw [requestReply] at hx
    split at hx
    · exact (List.mem_append.mp hx).imp_right List.mem_singleton.mp
    · rcases ih _ x hx with hx | hx
      · exact (List.mem_append.mp hx).imp_right List.mem_singleton.mp
      · exact Or.inr hx

theorem request_requests (env : Environment) (attempts : ℕ) (id : MemberId)
    (requests : List MemberId) :
    ∀ x ∈ (_requestMonaAddressFromSSGMember env attempts id requests).2,
      x ∈ requests ∨ x = id := by
  have hreply := requestReply_requests env id attempts requests
  unfold _requestMonaAddressFromSSGMember
  split
  · exact fun x hx => Or.inl hx
  · generalize requestReply env id attempts requests = reply at hreply
    obtain ⟨result, sent⟩ := reply
    cases result with
    | none => exact hreply
    | some result =>
      cases hlookup : env.addrLookup (result.value.getD "") with
      | error ret =>
        simp only [hlookup]
        exact hreply
      | ok addr =>
        simp only [hlookup]
        exact hreply

theorem resolveMember_requests (env : Environment) (attempts : ℕ) (addresses : AddressMap)
    (selfId id : MemberId) (tmp : AddressMap) (requests : List MemberId) :
    ∀ x ∈ (resolveMember env attempts addresses selfId id tmp requests).2,
      x ∈ requests ∨ x = id ∧ isAsked addresses selfId id = true := by
  unfold resolveMember
  split
  · exact fun x hx => Or.inl hx
  · next hknown =>
    split
    · exact fun x hx => Or.inl hx
    · next hself =>
      have hasked : isAsked addresses selfId id = true := by
        simp [isAsked, hself, Option.not_isSome_iff_eq_none.mp hknown]
      have hrequest := request_requests env attempts id requests
      generalize _requestMonaAddressFromSSGMember env attempts id requests = r at hrequest
      obtain ⟨ended, sent⟩ := r
      intro x hx
      refine (hrequest x ?_).imp_right fun hid => ⟨hid, hasked⟩
      cases ended with
      | none => exact hx
      | some ended => cases ended <;> exact hx

theorem resolveMembers_requests (env : Environment) (attempts : ℕ) (addresses : AddressMap)
    (selfId : MemberId) (members : List MemberId) (tmp : AddressMap) (requests : List MemberId) :
    ∀ x ∈ (resolveMembers env attempts addresses selfId members tmp requests).2,
      x ∈ requests ∨ x ∈ members ∧ isAsked addresses selfId x = true := by
  induction members generalizing tmp requests with
  | nil => exact fun x hx => Or.inl hx
  | cons id members ih =>
    have hround := resolveMember_requests env attempts addresses selfId id tmp requests
    rw [resolveMembers]
    generalize resolveMember env attempts addresses selfId id tmp requests = r at hround
    obtain ⟨ended, sent⟩ := r
    have hsent {x : MemberId} (hx : x ∈ sent) :
        x ∈ requests ∨ x ∈ id :: members ∧ isAsked addresses selfId x = true := by
      refine (hround x hx).imp_right ?_
      rintro ⟨rfl, hasked⟩
      exact ⟨List.mem_cons_self .., hasked⟩
    intro x hx
    cases ended with
    | none => exact hsent hx
    | some ended =>
      cases ended with
      | error e => exact hsent hx
      | ok tmp' =>
        rcases ih tmp' sent x hx with hx | ⟨hx, hasked⟩
        · exact hsent hx
        · exact Or.inr ⟨List.mem_cons_of_mem _ hx, hasked⟩

theorem resolveMonaAddresses_inGroup {n : ℕ} {env : Environment} {g : View n} {p : Fin n}
    (h : InGroup env g p) (attempts : ℕ) (addresses : AddressMap) :
    _resolveMonaAddresses env attempts addresses =
      insertFound addresses (resolveMembers env attempts addresses (g.memberId p)
        (rotated g.memberId p) .empty []) := by
  simp only [_resolveMonaAddresses, h.selfId, h.memberRank, h.groupSize, h.memberIds]

theorem insertFound_requests (addresses : AddressMap) (r : Result AddressMap) :
    (insertFound addresses r).requests = r.2 := by
  obtain ⟨ended, sent⟩ := r
  cases ended with
  | none => rfl
  | some ended => cases ended <;> rfl

theorem insertFound_addresses {addresses : AddressMap} {r : Result AddressMap}
    (h : (insertFound addresses r).ended ≠ some (.ok ())) :
    (insertFound addresses r).addresses = addresses := by
  obtain ⟨ended, sent⟩ := r
  cases ended with
  | none => rfl
  | some ended =>
    cases ended with
    | error e => rfl
    | ok tmp => exact (h rfl).elim

/-- A call that does not return leaves the map. -/
theorem addresses_unless_returned {env : Environment} {attempts : ℕ} {addresses : AddressMap}
    (h : (_resolveMonaAddresses env attempts addresses).ended ≠ some (.ok ())) :
    (_resolveMonaAddresses env attempts addresses).addresses = addresses := by
  unfold _resolveMonaAddresses at h ⊢
  cases hself : env.selfId with
  | error ret => rfl
  | ok selfId =>
    simp only [hself] at h ⊢
    cases hrank : env.memberRank selfId with
    | error ret => rfl
    | ok selfRank =>
      simp only [hrank] at h ⊢
      cases hsize : env.groupSize with
      | error ret => rfl
      | ok size =>
        simp only [hsize] at h ⊢
        cases hids : env.memberIdsFromRange size with
        | error ret => rfl
        | ok memberIds =>
          simp only [hids] at h ⊢
          exact insertFound_addresses h

/-- Whether its requests succeed or not, a provider asks nobody but the other members that it
does not know. -/
theorem nobody_else_asked {n : ℕ} {env : Environment} {g : View n} {p : Fin n}
    (hgroup : InGroup env g p) (attempts : ℕ) (addresses : AddressMap) :
    ∀ id ∈ (_resolveMonaAddresses env attempts addresses).requests,
      ∃ q, q ≠ p ∧ g.memberId q ∉ addresses.keys ∧ g.memberId q = id := by
  intro id hid
  rw [resolveMonaAddresses_inGroup hgroup, insertFound_requests] at hid
  rcases resolveMembers_requests _ _ _ _ _ _ _ id hid with hid | ⟨hid, hasked⟩
  · cases hid
  · obtain ⟨q, rfl⟩ := (mem_rotated g p).mp hid
    obtain ⟨hq, hunknown⟩ := (isAsked_iff g p addresses q).mp hasked
    exact ⟨q, hq, hunknown, rfl⟩

/-- For every group, every rank of the provider and every map: where the members that are asked
answer, one attempt for each of them is enough. -/
theorem group_resolved_asking_once {n : ℕ} {env : Environment} {g : View n} {p : Fin n}
    (hgroup : InGroup env g p) (addresses : AddressMap)
    (hanswers : ∀ q, q ≠ p → g.memberId q ∉ addresses.keys → Answers env (g.memberId q))
    {attempts : ℕ} (hattempts : 0 < attempts) :
    let r := _resolveMonaAddresses env attempts addresses
    r.ended = some (.ok ()) ∧ Resolved env g p addresses r.addresses r.requests := by
  intro r
  have hasked : ∀ id ∈ rotated g.memberId p, isAsked addresses (g.memberId p) id = true →
      Answers env id := by
    intro id hid hasked
    obtain ⟨q, rfl⟩ := (mem_rotated g p).mp hid
    obtain ⟨hq, hunknown⟩ := (isAsked_iff g p addresses q).mp hasked
    exact hanswers q hq hunknown
  obtain ⟨tmp, requests, hloop, hprogress⟩ :=
    resolveMembers_progress (rotated g.memberId p) progress_nil hasked hattempts
  have hr : r = ⟨some (.ok ()), insertRange addresses tmp.entries, requests⟩ := by
    change _resolveMonaAddresses env attempts addresses = _
    rw [resolveMonaAddresses_inGroup hgroup, hloop, insertFound]
  rw [hr]
  exact ⟨rfl, hprogress.resolved⟩

/-- A group of three, of which the provider has rank 1. -/
def threeMembers : View 3 where
  memberId := ![5, 7, 9]
  injective := by decide

def answering : Environment where
  selfId := .ok 7
  memberRank _ := .ok 1
  groupSize := .ok 3
  memberIdsFromRange size :=
    if h : size = 3 then .ok fun i => threeMembers.memberId (i.cast h) else .error (-1)
  providerHandle _ := none
  getMonaAddr _ memberId := some { value := some (if memberId = 5 then "na+sm://5" else "na+sm://9") }
  addrSelf := .ok 70
  addrLookup text := if text = "na+sm://5" then .ok 50 else .ok 90

def knownThird : AddressMap := AddressMap.empty.apply (.assign 9 91)

theorem first_member_asked :
    let r := _resolveMonaAddresses answering 1 knownThird
    r.ended = some (.ok ()) ∧ Resolved answering threeMembers 1 knownThird r.addresses r.requests := by
  have hgroup : InGroup answering threeMembers 1 := ⟨rfl, rfl, rfl, rfl⟩
  refine group_resolved_asking_once hgroup knownThird (fun q _ _ => ⟨rfl, fun _ => ?_⟩) (by decide)
  by_cases h5 : threeMembers.memberId q = 5
  · exact ⟨_, 50, rfl, by simp [answering, h5]⟩
  · exact ⟨_, 90, rfl, by simp [answering, h5]⟩

example : (_resolveMonaAddresses answering 1 knownThird).requests = [5] := by decide

end MonaRequests
