import Colza.GroupHash
import Mathlib.Data.List.Sort

/-!
# The MoNA addresses of a provider

Every membership update makes a thread that changes `m_mona_addresses`, takes a snapshot of
the addresses and passes it to the registered pipelines; the thread of a join first asks the
new member for its address. A creation takes a snapshot too, before it registers its
pipeline. The threads interleave between their critical sections.
-/
namespace MonaAddresses

open GuardedRuns Interfaces GroupHash

/-! ## The map -/

/-- `m_mona_addresses`, in key order. -/
structure AddressMap where
  entries : List (MemberId × NaAddr)
  sorted : (entries.map Prod.fst).Pairwise (· < ·)

/-- One of the two ways in which a thread changes the map. -/
inductive Change where
  | assign (id : MemberId) (addr : NaAddr)
  | erase (id : MemberId)
  deriving DecidableEq, Repr

def Change.memberId : Change → MemberId
  | .assign id _ | .erase id => id

def Change.assigns : Change → Bool
  | .assign .. => true
  | .erase _ => false

def assignEntry (id : MemberId) (addr : NaAddr) :
    List (MemberId × NaAddr) → List (MemberId × NaAddr)
  | [] => [(id, addr)]
  | e :: rest =>
    if id < e.1 then (id, addr) :: e :: rest
    else if id = e.1 then (id, addr) :: rest
    else e :: assignEntry id addr rest

def eraseEntry (id : MemberId) (entries : List (MemberId × NaAddr)) : List (MemberId × NaAddr) :=
  entries.filter fun e => e.1 ≠ id

theorem mem_assignEntry {id : MemberId} {addr : NaAddr} {l : List (MemberId × NaAddr)}
    {x : MemberId} : x ∈ (assignEntry id addr l).map Prod.fst ↔ x = id ∨ x ∈ l.map Prod.fst := by
  induction l with
  | nil => simp [assignEntry]
  | cons e rest ih =>
    unfold assignEntry
    split
    · simp
    · split
      · next heq => simp [heq]
      · rw [List.map_cons, List.mem_cons, ih, List.map_cons, List.mem_cons]
        exact or_left_comm

theorem assignEntry_sorted {id : MemberId} {addr : NaAddr} {l : List (MemberId × NaAddr)}
    (h : (l.map Prod.fst).Pairwise (· < ·)) :
    ((assignEntry id addr l).map Prod.fst).Pairwise (· < ·) := by
  induction l with
  | nil => simp [assignEntry]
  | cons e rest ih =>
    rw [List.map_cons, List.pairwise_cons] at h
    unfold assignEntry
    split
    · next hlt =>
      rw [List.map_cons, List.pairwise_cons, List.map_cons, List.pairwise_cons]
      refine ⟨fun x hx => ?_, h⟩
      rcases List.mem_cons.mp hx with rfl | hx
      · exact hlt
      · exact UInt64.lt_trans hlt (h.1 x hx)
    · split
      · next heq =>
        rw [List.map_cons, List.pairwise_cons]
        exact heq ▸ h
      · next hle hne =>
        rw [List.map_cons, List.pairwise_cons]
        refine ⟨fun x hx => ?_, ih h.2⟩
        rcases mem_assignEntry.mp hx with rfl | hx
        · exact UInt64.lt_of_le_of_ne (UInt64.not_lt.mp hle) (Ne.symm hne)
        · exact h.1 x hx

theorem eraseEntry_sorted {id : MemberId} {l : List (MemberId × NaAddr)}
    (h : (l.map Prod.fst).Pairwise (· < ·)) :
    ((eraseEntry id l).map Prod.fst).Pairwise (· < ·) :=
  h.sublist (List.filter_sublist.map _)

namespace AddressMap

def empty : AddressMap := ⟨[], List.Pairwise.nil⟩

def keys (m : AddressMap) : List MemberId := m.entries.map Prod.fst

/-- What a snapshot takes. -/
def values (m : AddressMap) : List NaAddr := m.entries.map Prod.snd

def apply (m : AddressMap) : Change → AddressMap
  | .assign id addr => ⟨assignEntry id addr m.entries, assignEntry_sorted m.sorted⟩
  | .erase id => ⟨eraseEntry id m.entries, eraseEntry_sorted m.sorted⟩

theorem mem_keys_apply {m : AddressMap} {c : Change} {x : MemberId} :
    x ∈ (m.apply c).keys ↔ if c.memberId = x then c.assigns = true else x ∈ m.keys := by
  cases c with
  | assign id addr =>
    change x ∈ (assignEntry id addr m.entries).map Prod.fst ↔ _
    rw [mem_assignEntry]
    by_cases h : id = x
    · simp [Change.memberId, Change.assigns, h]
    · have hx : x ≠ id := fun he => h he.symm
      simp [Change.memberId, keys, h, hx]
  | erase id =>
    change x ∈ (eraseEntry id m.entries).map Prod.fst ↔ _
    unfold eraseEntry
    by_cases h : id = x
    · simp [Change.memberId, Change.assigns, h]
    · have hx : x ≠ id := fun he => h he.symm
      simp [Change.memberId, keys, h, hx]

end AddressMap

/-! ## The threads -/

inductive Task where
  | update (u : Update)
  | create (name : String)
  deriving DecidableEq, Repr

/-- What a thread does next: the RPC to the new member, its change of the map, the snapshot,
or the section in which it passes the list that it holds. `stamp` counts the changes before
the snapshot. -/
inductive Stage where
  | resolving
  | changing (c : Change)
  | snapshot
  | passing (addresses : List NaAddr) (stamp : ℕ)
  | done
  deriving DecidableEq, Repr

structure Thread where
  task : Task
  stage : Stage
  deriving DecidableEq, Repr

/-- A registered pipeline, with the last list that was passed to it. -/
structure Registered where
  last : List NaAddr
  stamp : ℕ
  deriving DecidableEq, Repr

/-- `threads` are in the order in which they were made, and `applied` are the changes in the
order in which the threads took `m_mona_mtx`. -/
structure State where
  view : Finset MemberId
  addresses : AddressMap
  pipelines : String → Option Registered
  threads : List Thread
  applied : List Change

inductive Event where
  | update (u : Update)
  | create (name : String)
  | resolve (k : ℕ) (addr : NaAddr)
  | change (k : ℕ)
  | snapshot (k : ℕ)
  | pass (k : ℕ)
  deriving DecidableEq, Repr

def Task.first : Task → Stage
  | .update (.joined _) => .resolving
  | .update (.left id) => .changing (.erase id)
  | .create _ => .snapshot

def State.make (s : State) (task : Task) : State :=
  { s with threads := s.threads ++ [⟨task, task.first⟩] }

def State.goto (s : State) (k : ℕ) (t : Thread) (stage : Stage) : State :=
  { s with threads := s.threads.set k { t with stage := stage } }

/-- The lists of the pipelines after a thread has passed one. -/
def passTo (task : Task) (r : Registered) (pipelines : String → Option Registered) :
    String → Option Registered :=
  match task with
  | .update _ => fun name => (pipelines name).map fun _ => r
  | .create name => Function.update pipelines name (some r)

inductive Step (s : State) : Event → State → Prop where
  | update {u view} : Changed s.view u view →
      Step s (.update u) ({ s with view := view }.make (.update u))
  | create (name : String) : Step s (.create name) (s.make (.create name))
  | resolve {k id} (addr : NaAddr) : s.threads[k]? = some ⟨.update (.joined id), .resolving⟩ →
      Step s (.resolve k addr)
        (s.goto k ⟨.update (.joined id), .resolving⟩ (.changing (.assign id addr)))
  | change {k t c} : s.threads[k]? = some t → t.stage = .changing c →
      Step s (.change k) ({ s with
        addresses := s.addresses.apply c, applied := s.applied ++ [c] }.goto k t .snapshot)
  | snapshot {k t} : s.threads[k]? = some t → t.stage = .snapshot →
      Step s (.snapshot k) (s.goto k t (.passing s.addresses.values s.applied.length))
  | pass {k t addresses stamp} : s.threads[k]? = some t → t.stage = .passing addresses stamp →
      Step s (.pass k) ({ s with
        pipelines := passTo t.task ⟨addresses, stamp⟩ s.pipelines }.goto k t .done)

/-- A provider that knows the addresses of its view, and has passed them to its pipelines. -/
structure Settled (s : State) : Prop where
  keys : ∀ id, id ∈ s.addresses.keys ↔ id ∈ s.view
  pipelines : ∀ name r, s.pipelines name = some r → r = ⟨s.addresses.values, 0⟩
  threads : s.threads = []
  applied : s.applied = []

/-- All threads have finished. -/
def Finished (s : State) : Prop := ∀ t ∈ s.threads, t.stage = .done

instance (s : State) : Decidable (Finished s) :=
  inferInstanceAs (Decidable (∀ t ∈ s.threads, t.stage = .done))

/-! ## The last of each member -/

section LastAbout

variable {α : Type} (f : α → MemberId) (id : MemberId)

def lastAbout (l : List α) : Option α := (l.filter fun a => f a = id).getLast?

variable {f id} {l : List α}

theorem lastAbout_concat (a : α) :
    lastAbout f id (l ++ [a]) = if f a = id then some a else lastAbout f id l := by
  unfold lastAbout
  rw [List.filter_append]
  by_cases h : f a = id <;> simp [h]

theorem lastAbout_eq_none : lastAbout f id l = none ↔ ∀ a ∈ l, f a ≠ id := by
  unfold lastAbout
  simp

/-- Whether a member is there, from what happened to it last. -/
def Present (before : Prop) : Option Bool → Prop
  | none => before
  | some b => b = true

theorem present_concat {before : Prop} {g : α → Bool} (a : α) :
    Present before ((lastAbout f id (l ++ [a])).map g) ↔
      if f a = id then g a = true else Present before ((lastAbout f id l).map g) := by
  rw [lastAbout_concat]
  split <;> rfl

end LastAbout

def Update.joins : Update → Bool
  | .joined _ => true
  | .left _ => false

def Task.update? : Task → Option Update
  | .update u => some u
  | .create _ => none

/-- The updates in the order in which they were delivered. -/
def State.updates (s : State) : List Update := (s.threads.map Thread.task).filterMap Task.update?

/-- For each member, the last thread to change its entry handles an update of the same kind
as the last update of this member. -/
def LastOnesLast (s : State) : Prop :=
  ∀ id, (lastAbout Change.memberId id s.applied).map Change.assigns =
    (lastAbout Update.memberId id s.updates).map Update.joins

section Steps

variable {s t : State} {e : Event} {k : ℕ} {x : Thread}

theorem updates_goto (hk : s.threads[k]? = some x) (stage : Stage) :
    (s.goto k x stage).updates = s.updates := by
  have htasks : (s.threads.set k { x with stage := stage }).map Thread.task =
      s.threads.map Thread.task := by
    obtain ⟨hlt, rfl⟩ := List.getElem?_eq_some_iff.mp hk
    rw [List.map_set]
    apply List.ext_getElem (by simp)
    intro j hj hj'
    by_cases hkj : k = j
    · subst hkj
      simp
    · simp [hkj]
  unfold State.updates State.goto
  rw [htasks]

theorem updates_make (s : State) (task : Task) :
    (s.make task).updates = s.updates ++ task.update?.toList := by
  unfold State.updates State.make
  rw [List.map_append, List.filterMap_append]
  cases task <;> rfl

theorem mem_goto {y : Thread} {stage : Stage} (hy : y ∈ (s.goto k x stage).threads) :
    y ∈ s.threads ∨ y = { x with stage := stage } := List.mem_or_eq_of_mem_set hy

/-- What the stage of a thread says about its task and about the changes. -/
def Fits (applied : List Change) (x : Thread) : Prop :=
  match x.stage with
  | .resolving => ∃ id, x.task = .update (.joined id)
  | .changing c => ∃ u, x.task = .update u ∧ c.memberId = u.memberId ∧ c.assigns = Update.joins u
  | _ => ∀ u, x.task = .update u → ∃ c ∈ applied, c.memberId = u.memberId

/-- The view follows the updates, and the keys of the map follow the changes. -/
structure Tracked (before : Finset MemberId) (s : State) : Prop where
  view : ∀ id, id ∈ s.view ↔
    Present (id ∈ before) ((lastAbout Update.memberId id s.updates).map Update.joins)
  keys : ∀ id, id ∈ s.addresses.keys ↔
    Present (id ∈ before) ((lastAbout Change.memberId id s.applied).map Change.assigns)
  fits : ∀ x ∈ s.threads, Fits s.applied x
  origin : ∀ c ∈ s.applied, ∃ u ∈ s.updates, u.memberId = c.memberId

theorem tracked_settled (h : Settled s) : Tracked s.view s := by
  have hupdates : s.updates = [] := by
    unfold State.updates
    rw [h.threads]
    rfl
  constructor
  · intro id
    rw [hupdates]
    rfl
  · intro id
    rw [h.applied]
    exact h.keys id
  · intro x hx
    rw [h.threads] at hx
    cases hx
  · intro c hc
    rw [h.applied] at hc
    cases hc

theorem mem_view_changed {view view' : Finset MemberId} {u : Update} (h : Changed view u view')
    (id : MemberId) :
    id ∈ view' ↔ if u.memberId = id then Update.joins u = true else id ∈ view := by
  cases h with
  | @joined id' hid =>
    by_cases he : id' = id
    · simp [Update.memberId, Update.joins, he]
    · have he' : id ≠ id' := fun h => he h.symm
      simp [Update.memberId, he, he']
  | @left id' hid =>
    by_cases he : id' = id
    · simp [Update.memberId, Update.joins, he]
    · have he' : id ≠ id' := fun h => he h.symm
      simp [Update.memberId, he, he']

theorem Fits.mono {applied applied' : List Change} (hsub : ∀ c ∈ applied, c ∈ applied')
    (h : Fits applied x) : Fits applied' x := by
  have later : (∀ u, x.task = .update u → ∃ c ∈ applied, c.memberId = u.memberId) →
      ∀ u, x.task = .update u → ∃ c ∈ applied', c.memberId = u.memberId := by
    intro h u hu
    obtain ⟨c, hc, hid⟩ := h u hu
    exact ⟨c, hsub c hc, hid⟩
  unfold Fits at h ⊢
  cases hs : x.stage <;> rw [hs] at h
  · exact h
  · exact h
  · exact later h
  · exact later h
  · exact later h

/-- A thread that goes on without changing the map. -/
theorem Tracked.goto {before : Finset MemberId} (h : Tracked before s) {stage : Stage}
    (hk : s.threads[k]? = some x) (hx : Fits s.applied { x with stage := stage }) :
    Tracked before (s.goto k x stage) := by
  constructor
  · rw [updates_goto hk]
    exact h.view
  · exact h.keys
  · intro y hy
    rcases mem_goto hy with hy | rfl
    · exact h.fits y hy
    · exact hx
  · rw [updates_goto hk]
    exact h.origin

/-- A new thread. -/
theorem Tracked.make {before view : Finset MemberId} (h : Tracked before s) (task : Task)
    (hview : ∀ id, id ∈ view ↔ Present (id ∈ before)
      ((lastAbout Update.memberId id (s.updates ++ task.update?.toList)).map Update.joins)) :
    Tracked before ({ s with view := view }.make task) := by
  have hupdates : ({ s with view := view }.make task).updates =
      s.updates ++ task.update?.toList := updates_make { s with view := view } task
  constructor
  · rw [hupdates]
    exact hview
  · exact h.keys
  · intro y hy
    rcases List.mem_append.mp hy with hy | hy
    · exact h.fits y hy
    · obtain rfl := List.mem_singleton.mp hy
      match task with
      | .update (.joined id) => exact ⟨id, rfl⟩
      | .update (.left id) => exact ⟨.left id, rfl, rfl, rfl⟩
      | .create name =>
        intro u hu
        cases hu
  · intro c hc
    obtain ⟨u, hu, hid⟩ := h.origin c hc
    rw [hupdates]
    exact ⟨u, List.mem_append_left _ hu, hid⟩

/-- The change of the map by a thread that handles an update. -/
theorem Tracked.change {before : Finset MemberId} (h : Tracked before s) {c : Change}
    (hk : s.threads[k]? = some x) (hc : x.stage = .changing c) :
    Tracked before ({ s with
      addresses := s.addresses.apply c, applied := s.applied ++ [c] }.goto k x .snapshot) := by
  have hx : Fits s.applied x := h.fits x (List.mem_of_getElem? hk)
  unfold Fits at hx
  rw [hc] at hx
  obtain ⟨u, htask, hid, -⟩ := hx
  have hu : u ∈ s.updates := by
    unfold State.updates
    rw [List.mem_filterMap]
    exact ⟨x.task, List.mem_map_of_mem (List.mem_of_getElem? hk), by rw [htask]; rfl⟩
  have hupdates : ({ s with
      addresses := s.addresses.apply c, applied := s.applied ++ [c] }.goto k x .snapshot).updates =
      s.updates := updates_goto (s := { s with
        addresses := s.addresses.apply c, applied := s.applied ++ [c] }) hk .snapshot
  constructor
  · rw [hupdates]
    exact h.view
  · intro id
    change id ∈ (s.addresses.apply c).keys ↔
      Present (id ∈ before) ((lastAbout Change.memberId id (s.applied ++ [c])).map Change.assigns)
    rw [AddressMap.mem_keys_apply, present_concat, h.keys]
  · intro y hy
    rcases mem_goto hy with hy | rfl
    · exact (h.fits y hy).mono fun c' hc' => List.mem_append_left _ hc'
    · intro u' hu'
      obtain rfl : u = u' := Task.update.inj (htask.symm.trans hu')
      exact ⟨c, List.mem_append_right _ (List.mem_singleton_self c), hid⟩
  · intro c' hc'
    rw [hupdates]
    rcases List.mem_append.mp hc' with hc' | hc'
    · exact h.origin c' hc'
    · obtain rfl := List.mem_singleton.mp hc'
      exact ⟨u, hu, hid.symm⟩

theorem tracked_step {before : Finset MemberId} (h : Tracked before s) (hs : Step s e t) :
    Tracked before t := by
  cases hs with
  | @update u view hchanged =>
    apply h.make
    intro id
    change id ∈ view ↔
      Present (id ∈ before) ((lastAbout Update.memberId id (s.updates ++ [u])).map Update.joins)
    rw [present_concat, ← h.view]
    exact mem_view_changed hchanged id
  | create name =>
    apply h.make
    intro id
    change id ∈ s.view ↔
      Present (id ∈ before) ((lastAbout Update.memberId id (s.updates ++ [])).map Update.joins)
    rw [List.append_nil]
    exact h.view id
  | @resolve k id addr hk => exact h.goto hk ⟨.joined id, rfl, rfl, rfl⟩
  | change hk hc => exact h.change hk hc
  | @snapshot k x hk hstage =>
    apply h.goto hk
    have hx := h.fits x (List.mem_of_getElem? hk)
    unfold Fits at hx
    rw [hstage] at hx
    exact hx
  | @pass k x addresses stamp hk hstage =>
    have hx := h.fits x (List.mem_of_getElem? hk)
    unfold Fits at hx
    rw [hstage] at hx
    have hpassed : Tracked before { s with
        pipelines := passTo x.task ⟨addresses, stamp⟩ s.pipelines } :=
      ⟨h.view, h.keys, h.fits, h.origin⟩
    exact hpassed.goto hk hx

theorem tracked_run {p : List (Event × State)} (h : Settled s) (hp : Run Step s p) :
    Tracked s.view (final s p) := by
  apply Reaches.invariant _ hp.reaches (tracked_settled h)
  intro s e t hs hstep
  exact tracked_step hs hstep

/-- Where all threads have finished, the changed members are the updated ones. -/
theorem Tracked.none_iff {before : Finset MemberId} (h : Tracked before s) (hf : Finished s)
    (id : MemberId) : lastAbout Change.memberId id s.applied = none ↔
      lastAbout Update.memberId id s.updates = none := by
  rw [lastAbout_eq_none, lastAbout_eq_none]
  constructor
  · intro hnone u hu hid
    unfold State.updates at hu
    rw [List.mem_filterMap] at hu
    obtain ⟨task, htask, htu⟩ := hu
    obtain ⟨x, hx, rfl⟩ := List.mem_map.mp htask
    have hfits := h.fits x hx
    unfold Fits at hfits
    rw [hf x hx] at hfits
    have hxu : x.task = .update u := by
      cases hxt : x.task with
      | update v =>
        rw [hxt] at htu
        rw [Option.some.inj htu]
      | create name =>
        rw [hxt] at htu
        cases htu
    obtain ⟨c, hc, hcid⟩ := hfits u hxu
    exact hnone c hc (hcid.trans hid)
  · intro hnone c hc hid
    obtain ⟨u, hu, huid⟩ := h.origin c hc
    exact hnone u hu (huid.trans hid)

end Steps

/-- For any sequence of updates, any interleaving of the threads and any creations. -/
theorem keys_exact_iff_last_ones_last {s : State} {p : List (Event × State)} (h : Settled s)
    (hp : Run Step s p) (hf : Finished (final s p)) :
    (∀ id, id ∈ (final s p).addresses.keys ↔ id ∈ (final s p).view) ↔
      LastOnesLast (final s p) := by
  have ht := tracked_run h hp
  generalize final s p = t at ht hf
  apply forall_congr'
  intro id
  rw [ht.keys, ht.view]
  have hnone := ht.none_iff hf id
  cases hc : lastAbout Change.memberId id t.applied with
  | none => rw [hnone.mp hc]; simp
  | some c =>
    cases hu : lastAbout Update.memberId id t.updates with
    | none =>
      rw [hnone.mpr hu] at hc
      cases hc
    | some u =>
      change (c.assigns = true ↔ Update.joins u = true) ↔ some c.assigns = some (Update.joins u)
      cases c.assigns <;> cases Update.joins u <;> simp

/-! A group of one member, to which member 2 comes. -/

def alone : State where
  view := {1}
  addresses := ⟨[(1, 10)], by decide⟩
  pipelines _ := none
  threads := []
  applied := []

theorem alone_settled : Settled alone where
  keys id := by simp [alone, AddressMap.keys]
  pipelines _ _ h := by cases h
  threads := rfl
  applied := rfl

theorem keys_exact_after_join :
    ∃ p, Run Step alone p ∧
      ∀ id, id ∈ (final alone p).addresses.keys ↔ id ∈ (final alone p).view := by
  have hp : ∃ p, Run Step alone p ∧ Finished (final alone p) ∧ LastOnesLast (final alone p) := by
    refine ⟨_, .cons (.update (u := .joined 2) (.joined (by decide)))
      (.cons (.resolve (k := 0) 20 rfl) (.cons (.change (k := 0) rfl rfl)
        (.cons (.snapshot (k := 0) rfl rfl) (.cons (.pass (k := 0) rfl rfl) (.nil _))))), ?_, ?_⟩
    · decide
    · intro id
      change (lastAbout Change.memberId id [.assign 2 20]).map Change.assigns =
        (lastAbout Update.memberId id [.joined 2]).map Update.joins
      by_cases h : 2 = id
      · subst h
        rfl
      · simp [lastAbout, Change.memberId, Update.memberId, h]
  obtain ⟨p, hp, hf, hl⟩ := hp
  exact ⟨p, hp, (keys_exact_iff_last_ones_last alone_settled hp hf).mpr hl⟩

/-- Member 2 joins and leaves, and the thread of the join is the last to take the lock. -/
theorem departed_member_stays :
    ¬ ∀ (s : State) (p : List (Event × State)), Settled s → Run Step s p → Finished (final s p) →
      ∀ id, id ∈ (final s p).addresses.keys ↔ id ∈ (final s p).view := by
  intro hall
  have hp : ∃ p, Run Step alone p ∧ Finished (final alone p) ∧
      2 ∈ (final alone p).addresses.keys ∧ 2 ∉ (final alone p).view := by
    refine ⟨_, .cons (.update (u := .joined 2) (.joined (by decide)))
      (.cons (.update (u := .left 2) (.left (by decide)))
        (.cons (.change (k := 1) rfl rfl) (.cons (.snapshot (k := 1) rfl rfl)
          (.cons (.pass (k := 1) rfl rfl) (.cons (.resolve (k := 0) 20 rfl)
            (.cons (.change (k := 0) rfl rfl) (.cons (.snapshot (k := 0) rfl rfl)
              (.cons (.pass (k := 0) rfl rfl) (.nil _))))))))), ?_, ?_, ?_⟩ <;> decide
  obtain ⟨p, hp, hf, hin, hout⟩ := hp
  exact hout ((hall alone p alone_settled hp hf 2).mp hin)

end MonaAddresses
