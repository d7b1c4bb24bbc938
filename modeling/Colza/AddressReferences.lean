import Mathlib.Algebra.GroupWithZero.Nat
import Mathlib.Data.Multiset.AddSub
import Colza.ConservedRuns
import Colza.MonaAddresses

/-!
# The references to MoNA addresses

The thread of a join looks the address of the new member up and is given a reference to it, which
has to be freed. The map takes the reference over, and the destructor of the provider frees those
that it finds there. Nothing frees a reference that is erased from the map or overwritten.
-/
namespace AddressReferences

open GuardedRuns Interfaces GroupHash MonaAddresses ConservedRuns

/-! ## Where references are -/

/-- The references of the entries that a change removes. -/
def displaced (m : AddressMap) (c : Change) : Multiset NaAddr :=
  ((m.entries.filter fun e => e.1 = c.memberId).map Prod.snd : List NaAddr)

/-- The reference that a change takes into the map. -/
def Change.reference : Change → Multiset NaAddr
  | .assign _ addr => {addr}
  | .erase _ => 0

def Stage.reference : Stage → Multiset NaAddr
  | .changing c => Change.reference c
  | _ => 0

/-- The references that the threads have looked up and not stored yet. -/
def held (s : State) : Multiset NaAddr := (s.threads.map fun t => Stage.reference t.stage).sum

/-- The references in the map. -/
def mapped (s : State) : Multiset NaAddr := (s.addresses.values : List NaAddr)

/-- The destructor: the references that it frees, and the map that it clears. -/
def destroy (m : AddressMap) : List NaAddr × AddressMap := (m.values, .empty)

def lookedUp (_ : State) : Event → Multiset NaAddr
  | .resolve _ addr => {addr}
  | _ => 0

/-- The references that an event removes from the map. -/
def dropped (s : State) : Event → Multiset NaAddr
  | .change k =>
    match s.threads[k]? with
    | some ⟨_, .changing c⟩ => displaced s.addresses c
    | _ => 0
  | _ => 0

def acquired (s : State) (p : List (Event × State)) : Multiset NaAddr :=
  mapped s + total lookedUp s p

def leaked (s : State) (p : List (Event × State)) : Multiset NaAddr := total dropped s p

/-- Whether the event is the departure of a member. -/
def departing (_ : State) : Event → ℕ
  | .update (.left _) => 1
  | _ => 0

def joining (_ : State) : Event → ℕ
  | .update (.joined _) => 1
  | _ => 0

def departures (s : State) (p : List (Event × State)) : ℕ := total departing s p

/-- Every reference is in one place: the destructor frees it, a thread is about to store it, or it
is leaked. None is freed more often than it was acquired, and when the threads have finished one
is leaked for each departure, but for those in entries of members that are not in the view. -/
structure Accounted (s : State) (p : List (Event × State)) : Prop where
  places : mapped (final s p) + held (final s p) + leaked s p = acquired s p
  freed : ((destroy (final s p).addresses).1 : Multiset NaAddr) ≤ acquired s p
  stored : Finished (final s p) → held (final s p) = 0
  leaks : Finished (final s p) → (leaked s p).card + (final s p).addresses.keys.length =
    departures s p + (final s p).view.card
  oneEach : Finished (final s p) → LastOnesLast (final s p) →
    (leaked s p).card = departures s p

/-! ## The map -/

theorem assignEntry_values {id : MemberId} {addr : NaAddr} {l : List (MemberId × NaAddr)}
    (h : (l.map Prod.fst).Pairwise (· < ·)) :
    (((assignEntry id addr l).map Prod.snd : List NaAddr) : Multiset NaAddr) +
        ((l.filter fun e => e.1 = id).map Prod.snd : List NaAddr) =
      (l.map Prod.snd : List NaAddr) + {addr} := by
  induction l with
  | nil => rfl
  | cons e rest ih =>
    rw [List.map_cons, List.pairwise_cons] at h
    -- a later entry has a greater key
    have hlater : e.1 ≥ id → rest.filter (fun x => x.1 = id) = [] := by
      intro hge
      rw [List.filter_eq_nil_iff]
      intro x hx hid
      have hlt := h.1 x.1 (List.mem_map_of_mem hx)
      rw [decide_eq_true_iff] at hid
      rw [hid] at hlt
      exact UInt64.not_lt.mpr hge hlt
    unfold assignEntry
    split
    · next hlt =>
      have hne : e.1 ≠ id := fun he => UInt64.lt_irrefl id (by rwa [he] at hlt)
      rw [List.filter_cons_of_neg (by simpa using hne), hlater (UInt64.le_of_lt hlt)]
      simp only [List.map_cons, List.map_nil, ← Multiset.cons_coe, ← Multiset.singleton_add,
        Multiset.coe_nil, add_zero]
      ac_rfl
    · split
      · next heq =>
        rw [List.filter_cons_of_pos (by simp [heq]), hlater (UInt64.le_of_eq heq)]
        simp only [List.map_cons, List.map_nil, ← Multiset.cons_coe, ← Multiset.singleton_add,
          Multiset.coe_nil, add_zero]
        ac_rfl
      · next hne =>
        rw [List.filter_cons_of_neg (by simpa using Ne.symm hne)]
        simp only [List.map_cons, ← Multiset.cons_coe, Multiset.cons_add, ih h.2]

theorem apply_values (m : AddressMap) (c : Change) :
    ((m.apply c).values : Multiset NaAddr) + displaced m c = m.values + Change.reference c := by
  cases c with
  | assign id addr => exact assignEntry_values m.sorted
  | erase id =>
    change (((eraseEntry id m.entries).map Prod.snd : List NaAddr) : Multiset NaAddr) +
      ((m.entries.filter fun e => e.1 = id).map Prod.snd : List NaAddr) =
        (m.entries.map Prod.snd : List NaAddr) + 0
    unfold eraseEntry
    rw [add_zero]
    simp only [← Multiset.map_coe, ← Multiset.filter_coe, ← Multiset.map_add]
    rw [add_comm, Multiset.filter_add_not]

/-! ## One step -/

section Steps

variable {s t : State} {e : Event} {k : ℕ} {x : Thread}

theorem held_goto (hk : s.threads[k]? = some x) (stage : Stage) :
    held (s.goto k x stage) + Stage.reference x.stage = held s + Stage.reference stage :=
  sum_map_set (fun y : Thread => Stage.reference y.stage) hk { x with stage := stage }

theorem held_make (s : State) (task : Task) : held (s.make task) = held s := by
  have hfirst : Stage.reference task.first = 0 := by
    match task with
    | .update (.joined _) | .update (.left _) | .create _ => rfl
  unfold held State.make
  rw [List.map_append, List.sum_append, List.map_singleton, List.sum_singleton, hfirst, add_zero]

theorem step_places (h : Step s e t) :
    mapped t + held t + dropped s e = mapped s + held s + lookedUp s e := by
  cases h with
  | update hchanged => rw [held_make]; rfl
  | create name => rw [held_make]; rfl
  | @resolve k id addr hk =>
    have hheld := held_goto hk (.changing (.assign id addr))
    change held _ + 0 = held s + {addr} at hheld
    change mapped s + held _ + 0 = mapped s + held s + {addr}
    rw [add_assoc, hheld, add_assoc]
  | @change k x c hk hc =>
    have hheld := held_goto (s := { s with
      addresses := s.addresses.apply c, applied := s.applied ++ [c] }) hk .snapshot
    rw [hc] at hheld
    have hdropped : dropped s (.change k) = displaced s.addresses c := by
      obtain ⟨task, stage⟩ := x
      obtain rfl : stage = .changing c := hc
      simp only [dropped, hk]
    have hvalues := apply_values s.addresses c
    rw [hdropped]
    change ((s.addresses.apply c).values : Multiset NaAddr) + held _ + _ = mapped s + held s + 0
    change held _ + Change.reference c = held s + 0 at hheld
    rw [add_right_comm, hvalues, add_assoc, add_comm (Change.reference c), hheld, add_assoc]
    rfl
  | @snapshot k x hk hstage =>
    have hheld := held_goto hk (.passing s.addresses.values s.applied.length)
    rw [hstage] at hheld
    change held _ + 0 = held s + 0 at hheld
    change mapped s + held _ + 0 = mapped s + held s + 0
    rw [add_assoc, hheld, add_assoc]
  | @pass k x addresses stamp hk hstage =>
    have hheld := held_goto (s := { s with
      pipelines := passTo x.task ⟨addresses, stamp⟩ s.pipelines }) hk .done
    rw [hstage] at hheld
    change held _ + 0 = held s + 0 at hheld
    change mapped s + held _ + 0 = mapped s + held s + 0
    rw [add_assoc, hheld, add_assoc]

theorem acquired_eq (hs : s.threads = []) {p : List (Event × State)} (hp : Run Step s p) :
    mapped (final s p) + held (final s p) + leaked s p = acquired s p := by
  have hheld : held s = 0 := by
    unfold held
    rw [hs]
    rfl
  have hstep : ∀ s e t, Step s e t →
      mapped t + held t + dropped s e = mapped s + held s + lookedUp s e :=
    fun _ _ _ => step_places
  have hc := conserved hstep hp
  rwa [hheld, add_zero] at hc

/-! ## The number of members and of lookups -/

theorem step_members (h : Step s e t) :
    t.view.card + departing s e = s.view.card + joining s e := by
  cases h with
  | update hchanged =>
    cases hchanged with
    | joined hid => exact Finset.card_insert_of_notMem hid
    | left hid => exact Finset.card_erase_add_one hid
  | create name | resolve addr hk | change hk hc | snapshot hk hstage | pass hk hstage => rfl

/-- Whether the thread has not been given its reference yet. -/
def Stage.lookups : Stage → ℕ
  | .resolving => 1
  | _ => 0

def unresolved (s : State) : ℕ := (s.threads.map fun y => Stage.lookups y.stage).sum

theorem unresolved_goto (hk : s.threads[k]? = some x) (stage : Stage) :
    unresolved (s.goto k x stage) + Stage.lookups x.stage =
      unresolved s + Stage.lookups stage :=
  sum_map_set (fun y : Thread => Stage.lookups y.stage) hk { x with stage := stage }

theorem unresolved_make (s : State) (task : Task) :
    unresolved (s.make task) = unresolved s + Stage.lookups task.first := by
  unfold unresolved State.make
  rw [List.map_append, List.sum_append]
  rfl

theorem step_lookups (h : Step s e t) :
    unresolved t + (lookedUp s e).card = unresolved s + joining s e := by
  cases h with
  | @update u view hchanged =>
    rw [unresolved_make]
    cases u <;> rfl
  | create name =>
    rw [unresolved_make]
    rfl
  | @resolve k id addr hk => exact unresolved_goto hk (.changing (.assign id addr))
  | @change k x c hk hc =>
    have hu := unresolved_goto (s := { s with
      addresses := s.addresses.apply c, applied := s.applied ++ [c] }) hk .snapshot
    rwa [hc] at hu
  | @snapshot k x hk hstage =>
    have hu := unresolved_goto hk (.passing s.addresses.values s.applied.length)
    rwa [hstage] at hu
  | @pass k x addresses stamp hk hstage =>
    have hu := unresolved_goto (s := { s with
      pipelines := passTo x.task ⟨addresses, stamp⟩ s.pipelines }) hk .done
    rwa [hstage] at hu

/-! ## Threads that have finished -/

theorem held_eq_zero (h : Finished s) : held s = 0 := by
  refine List.sum_eq_zero fun m hm => ?_
  obtain ⟨y, hy, rfl⟩ := List.mem_map.mp hm
  rw [h y hy]
  rfl

theorem unresolved_eq_zero (h : Finished s) : unresolved s = 0 := by
  refine List.sum_eq_zero fun m hm => ?_
  obtain ⟨y, hy, rfl⟩ := List.mem_map.mp hm
  rw [h y hy]
  rfl

theorem keys_length (h : ∀ id, id ∈ s.addresses.keys ↔ id ∈ s.view) :
    s.addresses.keys.length = s.view.card := by
  have hnodup : s.addresses.keys.Nodup := s.addresses.sorted.imp UInt64.ne_of_lt
  rw [← List.toFinset_card_of_nodup hnodup]
  refine congrArg Finset.card (Finset.ext fun id => ?_)
  rw [List.mem_toFinset, h id]

end Steps

section Runs

variable {s : State} {p : List (Event × State)}

theorem lookups_card (hs : s.threads = []) (hp : Run Step s p) :
    unresolved (final s p) + (total lookedUp s p).card = total joining s p := by
  have hu : unresolved s = 0 := by
    unfold unresolved
    rw [hs]
    rfl
  have hstep : ∀ s e t, Step s e t →
      unresolved t + (lookedUp s e).card = unresolved s + joining s e := fun _ _ _ => step_lookups
  have hc := conserved hstep hp
  rw [hu, zero_add] at hc
  rw [← hc]
  exact congrArg _ (map_total lookedUp Multiset.cardHom s p)

theorem members_card (hp : Run Step s p) :
    (final s p).view.card + departures s p = s.view.card + total joining s p := by
  have hstep : ∀ s e t, Step s e t →
      t.view.card + departing s e = s.view.card + joining s e := fun _ _ _ => step_members
  exact conserved hstep hp

/-- What is leaked, whatever the order in which the threads have taken the lock. -/
theorem leaked_card (h : Settled s) (hp : Run Step s p) (hf : Finished (final s p)) :
    (leaked s p).card + (final s p).addresses.keys.length =
      departures s p + (final s p).view.card := by
  have hplaces := congrArg Multiset.card (acquired_eq h.threads hp)
  have hlookups := lookups_card h.threads hp
  have hmembers := members_card hp
  have hkeys := keys_length h.keys
  have hlength (m : AddressMap) : (m.values : Multiset NaAddr).card = m.keys.length := by
    simp [AddressMap.values, AddressMap.keys]
  rw [unresolved_eq_zero hf] at hlookups
  rw [held_eq_zero hf] at hplaces
  simp only [acquired, mapped, Multiset.card_add, Multiset.card_zero, hlength] at hplaces
  omega

/-- For any sequence of updates, any interleaving of the threads and any creations. -/
theorem references_accounted (h : Settled s) (hp : Run Step s p) : Accounted s p where
  places := acquired_eq h.threads hp
  freed := by
    rw [← acquired_eq h.threads hp, add_assoc]
    exact Multiset.le_add_right _ _
  stored hf := held_eq_zero hf
  leaks hf := leaked_card h hp hf
  oneEach hf hl := by
    have ht := tracked_run h hp
    have hleaks := leaked_card h hp hf
    have hkeys : (final s p).addresses.keys.length = (final s p).view.card := by
      refine keys_length fun id => ?_
      rw [ht.keys, ht.view, hl id]
    omega

end Runs

/-! Member 2 joins and leaves, and its reference is never freed. -/

theorem departed_member_leaks :
    ∃ p, Run Step alone p ∧ Accounted alone p ∧ Finished (final alone p) ∧
      LastOnesLast (final alone p) ∧ (leaked alone p).card = departures alone p ∧
      leaked alone p = {20} ∧ (destroy (final alone p).addresses).1 = [10] := by
  have hp : ∃ p, Run Step alone p ∧ Finished (final alone p) ∧ LastOnesLast (final alone p) ∧
      leaked alone p = {20} ∧ (destroy (final alone p).addresses).1 = [10] := by
    refine ⟨_, .cons (.update (u := .joined 2) (.joined (by decide)))
      (.cons (.resolve (k := 0) 20 rfl) (.cons (.change (k := 0) rfl rfl)
        (.cons (.snapshot (k := 0) rfl rfl) (.cons (.pass (k := 0) rfl rfl)
          (.cons (.update (u := .left 2) (.left (by decide)))
            (.cons (.change (k := 1) rfl rfl) (.cons (.snapshot (k := 1) rfl rfl)
              (.cons (.pass (k := 1) rfl rfl) (.nil _))))))))), ?_, ?_, ?_, ?_⟩
    · decide
    · intro id
      change (lastAbout Change.memberId id [.assign 2 20, .erase 2]).map Change.assigns =
        (lastAbout Update.memberId id [.joined 2, .left 2]).map Update.joins
      by_cases h : 2 = id
      · simp [lastAbout, Change.memberId, Update.memberId, Change.assigns, Update.joins, h]
      · simp [lastAbout, Change.memberId, Update.memberId, h]
    · rfl
    · rfl
  obtain ⟨p, hp, hf, hl, hleaked, hfreed⟩ := hp
  have haccounted : Accounted alone p := references_accounted alone_settled hp
  exact ⟨p, hp, haccounted, hf, hl, haccounted.oneEach hf hl, hleaked, hfreed⟩

end AddressReferences
