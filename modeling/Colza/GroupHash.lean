import Colza.ToggleDigests
import Colza.GuardedRuns
import Colza.OpenIterations
import Colza.ProviderRuns
import Colza.ClientHandles

/-!
# The hash of a group view

A provider updates its hash with every membership change, a provider that joins and a
client that observes the group compute it from the list of members. The hash is a digest
of the set of members, so all of them agree.
-/
namespace GroupHash

open GuardedRuns ToggleDigests

/-- `ssg_member_id_t`. -/
abbrev MemberId := UInt64

/-- What `ComputeGroupHash` does with the ids that SSG lists. -/
def ComputeGroupHash (memberIds : List MemberId) : UInt64 := memberIds.foldl (· ^^^ ·) 0

def UpdateGroupHash (hash : UInt64) (id : MemberId) : UInt64 := hash ^^^ id

/-- The client's handle computes the same function. -/
theorem computeGroupHash_client (env : ClientHandles.ClientEnv) (gid : ClientHandles.GroupId) :
    ClientHandles.ComputeGroupHash env gid = ComputeGroupHash (env.memberIds gid) := rfl

/-- A membership update, with the type as far as the callback tells types apart. -/
inductive Update where
  | joined (id : MemberId)
  | left (id : MemberId)
  deriving DecidableEq, Repr

def Update.memberId : Update → MemberId
  | .joined id | .left id => id

/-- The first statement of `_membershipUpdate`. -/
def _membershipUpdate {β : Type} (s : ProviderHandlers.Provider β) (u : Update) :
    ProviderHandlers.Provider β :=
  { s with groupHash := UpdateGroupHash s.groupHash u.memberId }

/-! ## Views and their changes -/

/-- SSG may list the members of a view in any order. -/
def Lists (ids : List MemberId) (view : Finset MemberId) : Prop :=
  ids.Nodup ∧ ids.toFinset = view

inductive Changed : Finset MemberId → Update → Finset MemberId → Prop where
  | joined {view id} : id ∉ view → Changed view (.joined id) (insert id view)
  | left {view id} : id ∈ view → Changed view (.left id) (view.erase id)

/-- The hash that belongs to a view. -/
def viewHash (view : Finset MemberId) : UInt64 := digest (· ^^^ ·) 0 id view

/-- The exclusive or of ids that may repeat. -/
def xorAll (ids : List MemberId) : UInt64 := total (· ^^^ ·) 0 id ids

theorem xor_selfInverse : SelfInverse (fun a b : UInt64 => a ^^^ b) 0 :=
  ⟨fun _ => UInt64.zero_xor, fun _ => UInt64.xor_self⟩

theorem computeGroupHash_eq (ids : List MemberId) : ComputeGroupHash ids = xorAll ids := by
  have h : ComputeGroupHash ids = 0 ^^^ xorAll ids := foldl_eq_total xor_selfInverse ids 0
  exact h.trans UInt64.zero_xor

theorem computeGroupHash_of_lists {ids : List MemberId} {view : Finset MemberId}
    (h : Lists ids view) : ComputeGroupHash ids = viewHash view := by
  rw [computeGroupHash_eq, ← h.2]
  exact total_eq_digest h.1

/-- Join and departure are the same update of the hash. -/
theorem viewHash_changed {view view' : Finset MemberId} {u : Update} (h : Changed view u view') :
    viewHash view' = UpdateGroupHash (viewHash view) u.memberId := by
  cases h with
  | joined hid => exact digest_insert hid
  | left hid => exact digest_erase xor_selfInverse hid

theorem viewHash_run {view : Finset MemberId} {p : List (Update × Finset MemberId)}
    (h : Run Changed view p) :
    (p.map Prod.fst).foldl (fun hash u => UpdateGroupHash hash u.memberId) (viewHash view) =
      viewHash (final view p) := by
  induction h with
  | nil => rfl
  | cons h _ ih =>
    rw [List.map_cons, List.foldl_cons, ← viewHash_changed h]
    exact ih

/-- The provider runs the callback on its own field. -/
theorem groupHash_updates {β : Type} (s : ProviderHandlers.Provider β) (us : List Update) :
    (us.foldl _membershipUpdate s).groupHash =
      us.foldl (fun hash u => UpdateGroupHash hash u.memberId) s.groupHash := by
  induction us generalizing s with
  | nil => rfl
  | cons u us ih => exact ih (_membershipUpdate s u)

/-- After any sequence of membership changes the provider that followed them, a provider
that is constructed now and a client that observes the group hold the same hash. -/
theorem same_view_same_hash {β : Type} {view : Finset MemberId}
    {p : List (Update × Finset MemberId)} (hp : Run Changed view p) {first last : List MemberId}
    (hfirst : Lists first view) (hlast : Lists last (final view p)) :
    (p.map Prod.fst).foldl (fun hash u => UpdateGroupHash hash u.memberId)
        (ComputeGroupHash first) = ComputeGroupHash last ∧
      (∀ s : ProviderHandlers.Provider β, s.groupHash = ComputeGroupHash first →
        ((p.map Prod.fst).foldl _membershipUpdate s).groupHash = ComputeGroupHash last) ∧
      (∀ ids token addresses, Lists ids (final view p) →
        (ProviderHandlers.initial token (ComputeGroupHash ids) addresses :
          ProviderHandlers.Provider β).groupHash = ComputeGroupHash last) ∧
      ∀ (env : ClientHandles.ClientEnv) gid, Lists (env.memberIds gid) (final view p) →
        ∀ name ssgGroupFile providerId pipelines,
          (ClientHandles.newHandle env name (some gid) ssgGroupFile providerId
            pipelines).groupHash = ComputeGroupHash last := by
  have hrun := viewHash_run hp
  rw [computeGroupHash_of_lists hfirst, computeGroupHash_of_lists hlast]
  refine ⟨hrun, fun s hs => ?_, fun ids token addresses hids => ?_, fun env gid hids name
    ssgGroupFile providerId pipelines => ?_⟩
  · rw [groupHash_updates, hs, hrun]
  · exact computeGroupHash_of_lists hids
  · exact (computeGroupHash_client env gid).trans (computeGroupHash_of_lists hids)

/-- Member 5 joins and member 1 leaves; SSG lists the members in two different orders. -/
theorem same_hash_after_join_and_departure :
    [Update.joined 5, .left 1].foldl (fun hash u => UpdateGroupHash hash u.memberId)
      (ComputeGroupHash [2, 1]) = ComputeGroupHash [5, 2] := by
  have hleft : Run Changed {5, 1, 2} [(.left 1, Finset.erase {5, 1, 2} 1)] :=
    .cons (.left (by decide)) (.nil _)
  have hp : Run Changed {1, 2} [(.joined 5, {5, 1, 2}), (.left 1, Finset.erase {5, 1, 2} 1)] :=
    .cons (.joined (by decide)) hleft
  have hfirst : Lists [2, 1] {1, 2} := ⟨by decide, by decide⟩
  have hlast : Lists [5, 2] (Finset.erase {5, 1, 2} 1) := ⟨by decide, by decide⟩
  exact (same_view_same_hash (β := Unit) hp hfirst hlast).1

/-! ## Starts that come with the hash of another view -/

theorem viewHash_ne {view view' : Finset MemberId} (h0 : 0 ∉ view) (h0' : 0 ∉ view')
    (hd : (symmDiff view view').card = 1 ∨ (symmDiff view view').card = 2) :
    viewHash view ≠ viewHash view' := by
  refine digest_ne xor_selfInverse Function.injective_id (fun id hid => ?_) hd
  rintro rfl
  rcases Finset.mem_symmDiff.mp hid with h | h
  · exact h0 h.1
  · exact h0' h.1

section Following

variable {β : Type}

/-- What happens to a provider: a membership change, or a request. -/
inductive Event (β : Type) where
  | update (u : Update)
  | request (env : ProviderHandlers.Environment β) (r : ProviderHandlers.Request)

/-- A provider next to the view of the group that SSG has told it of. -/
inductive Follows : Finset MemberId × ProviderHandlers.Provider β → Event β →
    Finset MemberId × ProviderHandlers.Provider β → Prop where
  | update {view view' u s} : Changed view u view' →
      Follows (view, s) (.update u) (view', _membershipUpdate s u)
  | request {view s} (env : ProviderHandlers.Environment β) (r : ProviderHandlers.Request) :
      Follows (view, s) (.request env r) (view, (ProviderHandlers.process env s r).provider)

/-- A provider that starts from a list of the members holds the hash of its view. -/
theorem follows_groupHash {view current : Finset MemberId} {first : List MemberId}
    (hfirst : Lists first view) {token : String} {addresses : List (UInt64 × Interfaces.NaAddr)}
    {s : ProviderHandlers.Provider β}
    (h : Reaches Follows (view, ProviderHandlers.initial token (ComputeGroupHash first) addresses)
      (current, s)) : s.groupHash = viewHash current := by
  refine Reaches.invariant (P := fun x => x.2.groupHash = viewHash x.1) ?_ h
    (computeGroupHash_of_lists hfirst)
  intro x e y hx hstep
  cases hstep with
  | update hc =>
    rw [viewHash_changed hc, ← hx]
    rfl
  | request env r => exact (OpenIterations.process_groupHash env _ r).trans hx

/-- A start with the hash of a view that differs from the provider's in one member or in two
is refused, and the provider stays as it was. -/
theorem start_from_near_view_refused {view current sent : Finset MemberId}
    {first listed : List MemberId} (hfirst : Lists first view) (hsent : Lists listed sent)
    {token : String} {addresses : List (UInt64 × Interfaces.NaAddr)}
    {s : ProviderHandlers.Provider β}
    (h : Reaches Follows (view, ProviderHandlers.initial token (ComputeGroupHash first) addresses)
      (current, s)) (h0 : 0 ∉ current) (h0' : 0 ∉ sent)
    (hd : (symmDiff current sent).card = 1 ∨ (symmDiff current sent).card = 2)
    (env : ProviderHandlers.Environment β) (name : String) (iteration : UInt64) :
    let o := ProviderHandlers.start env s (ComputeGroupHash listed) name iteration
    o.reply = some (.failure .invalidGroupHash "Inconsistent group view") ∧ o.calls = [] ∧
      o.provider = s := by
  have hne : ComputeGroupHash listed ≠ s.groupHash := by
    rw [follows_groupHash hfirst h, computeGroupHash_of_lists hsent]
    exact (viewHash_ne h0 h0' hd).symm
  rw [ProviderHandlers.start, if_pos hne]
  exact ⟨rfl, rfl, rfl⟩

end Following

/-- Member 4 has replaced member 2, and the client does not know. -/
theorem start_refused_after_replacement :
    let s : ProviderHandlers.Provider Unit := _membershipUpdate (_membershipUpdate
      (ProviderHandlers.initial "" (ComputeGroupHash [2, 1]) []) (.left 2)) (.joined 4)
    let o := ProviderHandlers.start ProviderRuns.acceptingEnvironment s
      (ComputeGroupHash [1, 2]) "p" 1
    o.reply = some (.failure .invalidGroupHash "Inconsistent group view") ∧ o.calls = [] ∧
      o.provider = s := by
  intro s
  have hfirst : Lists [2, 1] {1, 2} := ⟨by decide, by decide⟩
  have hsent : Lists [1, 2] {1, 2} := ⟨by decide, by decide⟩
  have hleft : Follows (β := Unit) ({1, 2}, ProviderHandlers.initial "" (ComputeGroupHash [2, 1]) [])
      (.update (.left 2)) (Finset.erase {1, 2} 2, _) := .update (.left (by decide))
  have hs : Reaches Follows ({1, 2}, ProviderHandlers.initial "" (ComputeGroupHash [2, 1]) [])
      (insert 4 (Finset.erase {1, 2} 2), s) :=
    (Reaches.snoc .refl hleft).snoc (.update (.joined (by decide)))
  exact start_from_near_view_refused hfirst hsent hs (by decide) (by decide) (Or.inr (by decide))
    ProviderRuns.acceptingEnvironment "p" 1

end GroupHash
