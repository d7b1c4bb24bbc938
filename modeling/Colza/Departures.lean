import Colza.PipelineIsolation
import Colza.RefusedRequests
import Colza.ServedStart

/-!
# Admin::makeServersLeave on the servers of a group

The loop looks each rank up in the group as `Admin` observes it at that moment, and a member that
was asked before may be missing from it by then. The two SSG calls for a rank are one step, and
find what the group then has. The request has no response: a member leaves when its counter of
active pipelines is 0, which is not always when no pipeline is active. During the call nobody joins
the group, no member fails, and no other leave is requested.
-/
namespace Departures

open Interfaces ProviderHandlers ClientHandles ServedStart GuardedRuns PipelineIsolation

/-! ## The call and the members -/

/-- The address for a rank. The results of the two SSG calls are not looked at: 0 is
`SSG_MEMBER_ID_INVALID`, and `none` is `HG_ADDR_NULL`. -/
def memberAddr (view : View) (rank : ℕ) : Option Address :=
  let memberId := ((ClientEnv.ofView view).memberIdFromRank 0 rank).toOption.getD 0
  ((ClientEnv.ofView view).memberAddr 0 memberId).toOption

/-- The loop with the ranks that are left, or the end of the call. -/
inductive Caller where
  | asking (ranks : List ℤ)
  | ended (result : Except Exception Unit)

/-- `view` is the group as `Admin` observes it, `asked` the members that have been sent a leave in
this order, and `waiting` those where the handler of one has not gone ahead. -/
structure State (β : Type) where
  caller : Caller
  view : View
  asked : List Address
  waiting : List Address
  gone : List Address
  server : Servers β

def initial {β : Type} (view : View) (ranks : List ℤ) (w : Servers β) : State β :=
  ⟨.asking ranks, view, [], [], [], w⟩

/-- `notice` is when SSG tells `Admin` that a member has left, and `request` a request of somebody
else. -/
inductive Event (β : Type) where
  | caller
  | leave (a : Address)
  | notice (a : Address)
  | request (env : Environment β) (v : Address × UInt16) (r : Request)

section Definitions

variable {β : Type}

/-- One pass through the loop. An RPC to a member that is gone, or to nobody, throws. -/
def State.makeServersLeave (groupSize : ℕ) (s : State β) : Option (State β) :=
  match s.caller with
  | .asking [] => some { s with caller := .ended (.ok ()) }
  | .asking (rank :: ranks) =>
    if rank < 0 ∨ groupSize ≤ rank then some { s with caller := .asking ranks }
    else
      let failed := { s with caller := .ended (.error (Exception.foreign "")) }
      match memberAddr s.view rank.toNat with
      | none => some failed
      | some a =>
        if a ∈ s.gone then some failed
        else some { s with
          caller := .asking ranks, asked := s.asked ++ [a], waiting := a :: s.waiting }
  | .ended _ => none

/-- A leave handler of a member goes ahead, and SSG and the engine end; `none` while it waits. -/
def State.goAhead (providerId : UInt16) (s : State β) (a : Address) : Option (State β) :=
  if a ∈ s.waiting ∧ (s.server (a, providerId)).numActivePipelines = 0 then
    some { s with
      waiting := s.waiting.erase a
      gone := a :: s.gone
      server := Function.update s.server (a, providerId)
        (ProviderHandlers.leave (s.server (a, providerId))).provider }
  else none

/-- `none` where the event is not possible. -/
def step (groupSize : ℕ) (providerId : UInt16) (s : State β) : Event β → Option (State β)
  | .caller => s.makeServersLeave groupSize
  | .leave a => s.goAhead providerId a
  | .notice a =>
    if a ∈ s.gone then some { s with view := s.view.filter fun m => m.2 ≠ a } else none
  | .request env v r =>
    if r = .leave ∨ v.1 ∈ s.gone then none
    else some { s with server := Function.update s.server v (process env (s.server v) r).provider }

def Step (groupSize : ℕ) (providerId : UInt16) (s : State β) (e : Event β) (t : State β) : Prop :=
  step groupSize providerId s e = some t

def Event.isRequest : Event β → Bool
  | .request _ _ _ => true
  | _ => false

/-- A step without a request of somebody else. -/
def Alone (groupSize : ℕ) (providerId : UInt16) (s : State β) (e : Event β) (t : State β) : Prop :=
  Step groupSize providerId s e t ∧ e.isRequest = false

/-! ## The members that are to leave -/

/-- The ranks that the loop does not skip. -/
def selected (groupSize : ℕ) (ranks : List ℤ) : List ℕ :=
  ranks.filterMap fun rank : ℤ =>
    if rank < 0 ∨ groupSize ≤ rank then none else some rank.toNat

/-- The members that had these ranks when the call began. -/
def named (view : View) (ranks : List ℤ) : List Address :=
  (selected view.length ranks).filterMap fun i => view[i]?.map Prod.snd

def Decreasing (groupSize : ℕ) (ranks : List ℤ) : Prop :=
  (selected groupSize ranks).Pairwise (· > ·)

instance (groupSize : ℕ) (ranks : List ℤ) : Decidable (Decreasing groupSize ranks) :=
  inferInstanceAs (Decidable ((selected groupSize ranks).Pairwise (· > ·)))

/-- The members that the call has asked are those that had the ranks it has been through. -/
def Asks (view : View) (ranks : List ℤ) (s : State β) : Prop :=
  match s.caller with
  | .asking rest => ∃ done, ranks = done ++ rest ∧ s.asked = named view done
  | .ended (.ok ()) => s.asked = named view ranks
  | .ended (.error _) => False

/-- Every request that was sent waits at its member or has made it leave, once, when its counter of
active pipelines was 0, and `Admin` misses only members that have left. -/
structure Accounted (view : View) (providerId : UInt16) (w : Servers β) (s : State β) : Prop where
  observed : ∃ noticed, noticed ⊆ s.gone ∧ s.view = view.filter fun m => m.2 ∉ noticed
  requests : (s.waiting ++ s.gone).Perm s.asked
  leaves : ∀ v, (s.server v).groupLeaves =
    (w v).groupLeaves + if v.2 = providerId then s.gone.count v.1 else 0
  counter : ∀ a ∈ s.gone, (s.server (a, providerId)).numActivePipelines = 0 ∧
    (s.server (a, providerId)).pipelines = ∅

/-- The call has returned, the members with these ranks are gone, and `Admin` has noticed. -/
structure Departed (view : View) (ranks : List ℤ) (s : State β) : Prop where
  returned : s.caller = .ended (.ok ())
  waiting : s.waiting = []
  gone : s.gone.Perm (named view ranks)
  view : s.view = view.filter fun m => m.2 ∉ named view ranks

/-- A view as SSG keeps it: nobody has the invalid id. -/
structure Group (view : View) : Prop extends Distinct view where
  valid : 0 ∉ view.map Prod.fst

end Definitions

/-! ## Positions in a list that has lost elements -/

section Positions

variable {α : Type} {p : α → Bool} {x : α} {i q : ℕ}

/-- An element stays in its position while those up to it stay. -/
theorem getElem?_filter_of_prefix {l : List α} (h : ∀ y ∈ l.take (i + 1), p y = true) :
    (l.filter p)[i]? = l[i]? := by
  induction l generalizing i with
  | nil => rfl
  | cons y l ih =>
    rw [List.take_succ_cons] at h
    rw [List.filter_cons_of_pos (h y (List.mem_cons_self ..))]
    cases i with
    | zero => rfl
    | succ i => exact ih fun z hz => h z (List.mem_cons_of_mem y hz)

/-- When an element goes, those behind it move up. -/
theorem getElem?_filter_of_lost {l : List α} (hl : l.Nodup) (hx : p x = false)
    (hp : ∀ y ∈ l, y ≠ x → p y = true) (hq : l[q]? = some x) (hi : q ≤ i) :
    (l.filter p)[i]? = l[i + 1]? := by
  induction l generalizing q i with
  | nil => cases hq
  | cons y l ih =>
    obtain ⟨hy, hl⟩ := List.nodup_cons.mp hl
    cases q with
    | zero =>
      obtain rfl : y = x := Option.some.inj hq
      have hkeep : l.filter p = l := List.filter_eq_self.mpr fun z hz =>
        hp z (List.mem_cons_of_mem y hz) fun he => hy (he ▸ hz)
      rw [List.filter_cons_of_neg (by rw [hx]; exact Bool.false_ne_true), hkeep,
        List.getElem?_cons_succ]
    | succ q =>
      obtain ⟨i, rfl⟩ := Nat.exists_eq_succ_of_ne_zero (Nat.ne_of_gt (Nat.lt_of_lt_of_le
        (Nat.succ_pos q) hi))
      have hne : y ≠ x := fun he => hy (he ▸ List.mem_of_getElem? hq)
      rw [List.filter_cons_of_pos (hp y (List.mem_cons_self ..) hne)]
      exact ih hl (fun z hz => hp z (List.mem_cons_of_mem y hz)) hq (Nat.le_of_succ_le_succ hi)

end Positions

/-! ## What a rank stands for -/

section Members

variable {view : View} {ranks : List ℤ} {i : ℕ}

theorem memberAddr_eq (hg : Group view) (i : ℕ) : memberAddr view i = view[i]?.map Prod.snd := by
  unfold memberAddr
  by_cases hi : i < view.length
  · obtain ⟨-, -, id, hid, haddr⟩ := resolveMember_ok (resolveMember_ofView hg.toDistinct 0 "" hi)
    rw [hid, List.getElem?_eq_getElem hi]
    exact congrArg Except.toOption haddr
  · have hnone : view[i]? = none := List.getElem?_eq_none (Nat.le_of_not_lt hi)
    have hid : (ClientEnv.ofView view).memberIdFromRank 0 i = .error (-1) := by
      simp [ClientEnv.ofView, hnone]
    have hfind : view.find? (fun m => m.1 = 0) = none := by
      rw [List.find?_eq_none]
      intro m hm h0
      exact hg.valid (List.mem_map.mpr ⟨m, hm, by simpa using h0⟩)
    rw [hid, hnone]
    simp [ClientEnv.ofView, hfind, Except.toOption]

theorem Group.filter (hg : Group view) (p : UInt64 × Address → Bool) : Group (view.filter p) where
  ids := hg.ids.sublist (List.filter_sublist.map _)
  addresses := hg.addresses.sublist (List.filter_sublist.map _)
  valid h := hg.valid ((List.filter_sublist.map Prod.fst).subset h)

theorem selected_append (size : ℕ) (ranks ranks' : List ℤ) :
    selected size (ranks ++ ranks') = selected size ranks ++ selected size ranks' :=
  List.filterMap_append ..

theorem named_append (view : View) (ranks ranks' : List ℤ) :
    named view (ranks ++ ranks') = named view ranks ++ named view ranks' := by
  unfold named
  rw [selected_append, List.filterMap_append]

theorem selected_skipped {size : ℕ} {rank : ℤ} (h : rank < 0 ∨ size ≤ rank) :
    selected size [rank] = [] := by
  simp [selected, h]

theorem selected_taken {size : ℕ} {rank : ℤ} (h : ¬ (rank < 0 ∨ size ≤ rank)) :
    selected size [rank] = [rank.toNat] := by
  simp [selected, h]

theorem named_skipped {rank : ℤ} (h : rank < 0 ∨ view.length ≤ rank) : named view [rank] = [] := by
  unfold named
  rw [selected_skipped h]
  rfl

theorem named_taken {rank : ℤ} (h : ¬ (rank < 0 ∨ view.length ≤ rank))
    (hi : rank.toNat < view.length) : named view [rank] = [view[rank.toNat].2] := by
  unfold named
  rw [selected_taken h]
  simp [List.getElem?_eq_getElem hi]

theorem mem_named {a : Address} :
    a ∈ named view ranks ↔ ∃ q ∈ selected view.length ranks, ∃ m, view[q]? = some m ∧ m.2 = a := by
  simp [named]

/-- A member has one position. -/
theorem position_unique (hg : Group view) {q j : ℕ} {m m' : UInt64 × Address}
    (hq : view[q]? = some m) (hj : view[j]? = some m') (h : m.2 = m'.2) : q = j := by
  have hmap : (view.map Prod.snd)[q]? = (view.map Prod.snd)[j]? := by
    rw [List.getElem?_map, List.getElem?_map, hq, hj, Option.map_some, Option.map_some, h]
  have hlt : q < (view.map Prod.snd).length := by
    rw [List.length_map]
    exact (List.getElem?_eq_some_iff.mp hq).1
  exact (List.getElem?_inj hlt hg.addresses).mp hmap

/-- When the ranks go down, the members up to the next one have not been asked. -/
theorem notMem_named_of_le (hg : Group view) {done rest : List ℤ} {rank : ℤ}
    (hd : Decreasing view.length (done ++ rank :: rest))
    (hr : ¬ (rank < 0 ∨ view.length ≤ rank)) {j : ℕ} {m : UInt64 × Address}
    (hj : view[j]? = some m) (hle : j ≤ rank.toNat) : m.2 ∉ named view done := by
  intro h
  obtain ⟨q, hq, m', hm', heq⟩ := mem_named.mp h
  unfold Decreasing at hd
  rw [← List.singleton_append, selected_append, selected_append, selected_taken hr,
    List.pairwise_append] at hd
  have hlt : rank.toNat < q := hd.2.2 q hq _ (List.mem_cons_self ..)
  exact Nat.not_lt_of_le hle (position_unique hg hm' hj heq ▸ hlt)

end Members

/-! ## One step -/

section Steps

variable {β : Type} {view : View} {ranks : List ℤ} {providerId : UInt16} {w : Servers β}
  {s t : State β} {e : Event β} {groupSize : ℕ} {a : Address}

/-- What one pass through the loop can do. -/
inductive Passes (groupSize : ℕ) (s : State β) : State β → Prop where
  | returned : s.caller = .asking [] → Passes groupSize s { s with caller := .ended (.ok ()) }
  | skipped {rank ranks} : s.caller = .asking (rank :: ranks) → (rank < 0 ∨ groupSize ≤ rank) →
      Passes groupSize s { s with caller := .asking ranks }
  | failed {rank ranks} : s.caller = .asking (rank :: ranks) → ¬ (rank < 0 ∨ groupSize ≤ rank) →
      (∀ a, memberAddr s.view rank.toNat = some a → a ∈ s.gone) →
      Passes groupSize s { s with caller := .ended (.error (Exception.foreign "")) }
  | asked {rank ranks a} : s.caller = .asking (rank :: ranks) → ¬ (rank < 0 ∨ groupSize ≤ rank) →
      memberAddr s.view rank.toNat = some a → a ∉ s.gone →
      Passes groupSize s { s with
        caller := .asking ranks, asked := s.asked ++ [a], waiting := a :: s.waiting }

theorem makeServersLeave_passes (h : s.makeServersLeave groupSize = some t) :
    Passes groupSize s t := by
  unfold State.makeServersLeave at h
  split at h
  · next hc =>
    cases h
    exact .returned hc
  · next rank ranks hc =>
    split at h
    · next hr =>
      cases h
      exact .skipped hc hr
    · next hr =>
      dsimp only at h
      split at h
      · next hm =>
        cases h
        exact .failed hc hr fun a ha => by cases hm.symm.trans ha
      · next a hm =>
        split at h
        · next ha =>
          cases h
          exact .failed hc hr fun b hb => Option.some.inj (hm.symm.trans hb) ▸ ha
        · next ha =>
          cases h
          exact .asked hc hr hm ha
  · cases h

/-- A loop that has not ended goes on. -/
theorem makeServersLeave_goesOn (groupSize : ℕ) (h : s.caller = .asking ranks) :
    ∃ t, s.makeServersLeave groupSize = some t := by
  unfold State.makeServersLeave
  rw [h]
  cases ranks with
  | nil => exact ⟨_, rfl⟩
  | cons rank ranks =>
    dsimp only
    split
    · exact ⟨_, rfl⟩
    · split
      · exact ⟨_, rfl⟩
      · split <;> exact ⟨_, rfl⟩

/-- The members that are gone have been asked. -/
theorem Accounted.gone_subset (h : Accounted view providerId w s) : s.gone ⊆ s.asked :=
  fun _ ha => h.requests.subset (List.mem_append_right _ ha)

theorem Accounted.group (h : Accounted view providerId w s) (hg : Group view) : Group s.view := by
  obtain ⟨noticed, -, hview⟩ := h.observed
  rw [hview]
  exact hg.filter _

/-- The members up to a position that are not gone are observed where they were. -/
theorem Accounted.observes (h : Accounted view providerId w s) {i : ℕ}
    (hstay : ∀ j ≤ i, ∀ m, view[j]? = some m → m.2 ∉ s.gone) : s.view[i]? = view[i]? := by
  obtain ⟨noticed, hsub, hview⟩ := h.observed
  rw [hview]
  refine getElem?_filter_of_prefix fun m hm => ?_
  obtain ⟨j, hj, rfl⟩ := List.mem_take_iff_getElem.mp hm
  have hlt := Nat.lt_min.mp hj
  have hstay := hstay j (Nat.le_of_lt_succ hlt.1) _ (List.getElem?_eq_getElem hlt.2)
  exact decide_eq_true fun hnoticed => hstay (hsub hnoticed)

/-- When the ranks go down, the loop finds the member that had the next rank, and it is there. -/
theorem Accounted.finds (h : Accounted view providerId w s) (hg : Group view)
    {done rest : List ℤ} {rank : ℤ} (hd : Decreasing view.length (done ++ rank :: rest))
    (hasked : s.asked = named view done) (hr : ¬ (rank < 0 ∨ view.length ≤ rank))
    (hi : rank.toNat < view.length) :
    memberAddr s.view rank.toNat = some view[rank.toNat].2 ∧ view[rank.toNat].2 ∉ s.gone := by
  have hstay : ∀ j ≤ rank.toNat, ∀ m, view[j]? = some m → m.2 ∉ s.gone := fun j hj m hm hgone =>
    notMem_named_of_le hg hd hr hm hj (hasked ▸ h.gone_subset hgone)
  refine ⟨?_, hstay _ (Nat.le_refl _) _ (List.getElem?_eq_getElem hi)⟩
  rw [memberAddr_eq (h.group hg), h.observes hstay, List.getElem?_eq_getElem hi]
  rfl

theorem Asks.caller (ha : Asks view ranks s) (h : Accounted view providerId w s) (hg : Group view)
    (hd : Decreasing view.length ranks) (hp : Passes view.length s t) : Asks view ranks t := by
  unfold Asks at ha
  cases hp with
  | returned hc =>
    rw [hc] at ha
    obtain ⟨done, hdone, hasked⟩ := ha
    rw [List.append_nil] at hdone
    exact hasked.trans (hdone ▸ rfl)
  | @skipped rank rest hc hr =>
    rw [hc] at ha
    obtain ⟨done, hdone, hasked⟩ := ha
    refine ⟨done ++ [rank], by rw [hdone, List.append_assoc]; rfl, ?_⟩
    rw [named_append, named_skipped hr, List.append_nil]
    exact hasked
  | @failed rank rest hc hr hm =>
    rw [hc] at ha
    obtain ⟨done, rfl, hasked⟩ := ha
    have hi : rank.toNat < view.length := by omega
    obtain ⟨hfound, hthere⟩ := h.finds hg hd hasked hr hi
    exact (hthere (hm _ hfound)).elim
  | @asked rank rest a hc hr hm hthere =>
    rw [hc] at ha
    obtain ⟨done, rfl, hasked⟩ := ha
    have hi : rank.toNat < view.length := by omega
    obtain ⟨hfound, -⟩ := h.finds hg hd hasked hr hi
    obtain rfl := Option.some.inj (hm.symm.trans hfound)
    refine ⟨done ++ [rank], by rw [List.append_assoc]; rfl, ?_⟩
    rw [named_append, named_taken hr hi]
    exact congrArg (· ++ _) hasked

theorem Accounted.caller (h : Accounted view providerId w s) (hp : Passes groupSize s t) :
    Accounted view providerId w t := by
  cases hp with
  | returned | skipped | failed => exact ⟨h.observed, h.requests, h.leaves, h.counter⟩
  | @asked rank rest a hc hr hm hthere =>
    refine ⟨h.observed, ?_, h.leaves, h.counter⟩
    calc a :: s.waiting ++ s.gone
      _ = a :: (s.waiting ++ s.gone) := List.cons_append ..
      _ = [a] ++ (s.waiting ++ s.gone) := rfl
      List.Perm _ (s.waiting ++ s.gone ++ [a]) := List.perm_append_comm
      List.Perm _ (s.asked ++ [a]) := h.requests.append_right _

theorem goAhead_some (h : s.goAhead providerId a = some t) :
    a ∈ s.waiting ∧ (s.server (a, providerId)).numActivePipelines = 0 ∧
      t = { s with
        waiting := s.waiting.erase a
        gone := a :: s.gone
        server := Function.update s.server (a, providerId)
          { s.server (a, providerId) with
            groupLeaves := (s.server (a, providerId)).groupLeaves + 1, pipelines := ∅ } } := by
  unfold State.goAhead at h
  split at h
  · next hgo =>
    obtain ⟨hmem, hidle⟩ := hgo
    rw [RefusedRequests.leave_goes_ahead hidle] at h
    exact ⟨hmem, hidle, (Option.some.inj h).symm⟩
  · cases h

theorem Accounted.leave (h : Accounted view providerId w s)
    (hgo : s.goAhead providerId a = some t) : Accounted view providerId w t := by
  obtain ⟨hmem, hidle, rfl⟩ := goAhead_some hgo
  obtain ⟨noticed, hsub, hview⟩ := h.observed
  refine ⟨⟨noticed, fun b hb => List.mem_cons_of_mem a (hsub hb), hview⟩, ?_, fun v => ?_,
    fun b hb => ?_⟩
  · calc s.waiting.erase a ++ a :: s.gone
      List.Perm _ (a :: (s.waiting.erase a ++ s.gone)) := List.perm_middle
      List.Perm _ (s.waiting ++ s.gone) := ((List.perm_cons_erase hmem).symm.append_right _)
      List.Perm _ s.asked := h.requests
  · have hleaves := h.leaves v
    by_cases hv : v = (a, providerId)
    · rw [hv] at hleaves ⊢
      simp only [Function.update_self, if_true, List.count_cons_self] at hleaves ⊢
      omega
    · simp only [Function.update_of_ne hv]
      rw [hleaves]
      by_cases hid : v.2 = providerId
      · have hne : a ≠ v.1 := fun he => hv (Prod.ext he.symm hid)
        rw [if_pos hid, if_pos hid, List.count_cons_of_ne hne]
      · rw [if_neg hid, if_neg hid]
  · by_cases hba : b = a
    · rw [hba]
      simp only [Function.update_self]
      exact ⟨hidle, trivial⟩
    · have hne : (b, providerId) ≠ (a, providerId) := fun he => hba (congrArg Prod.fst he)
      simp only [Function.update_of_ne hne]
      exact h.counter b ((List.mem_cons.mp hb).resolve_left hba)

theorem Accounted.notice (h : Accounted view providerId w s) (ha : a ∈ s.gone) :
    Accounted view providerId w { s with view := s.view.filter fun m => m.2 ≠ a } := by
  obtain ⟨noticed, hsub, hview⟩ := h.observed
  refine ⟨⟨a :: noticed, List.cons_subset.mpr ⟨ha, hsub⟩, ?_⟩, h.requests, h.leaves, h.counter⟩
  simp only [hview, List.filter_filter, List.mem_cons, not_or, Bool.decide_and]

theorem Accounted.request (h : Accounted view providerId w s) {env : Environment β}
    {v : Address × UInt16} {r : Request} (hr : r ≠ .leave) (hv : v.1 ∉ s.gone) :
    Accounted view providerId w
      { s with server := Function.update s.server v (process env (s.server v) r).provider } := by
  refine ⟨h.observed, h.requests, fun u => ?_, fun b hb => ?_⟩
  · by_cases hu : u = v
    · obtain ⟨name, hname⟩ : ∃ name, pipelineOf r = some name := by
        cases r with
        | leave => exact (hr rfl).elim
        | _ => exact ⟨_, rfl⟩
      rw [hu]
      simp only [Function.update_self]
      exact (process_within env (s.server v) hname).groupLeaves.trans (h.leaves v)
    · simp only [Function.update_of_ne hu]
      exact h.leaves u
  · have hne : (b, providerId) ≠ v := fun he => hv (he ▸ hb)
    simp only [Function.update_of_ne hne]
    exact h.counter b hb

/-- What one event can do. -/
inductive Move (groupSize : ℕ) (providerId : UInt16) (s : State β) : Event β → State β → Prop where
  | caller {u : State β} : s.makeServersLeave groupSize = some u →
      Move groupSize providerId s .caller u
  | leave {b : Address} {u : State β} : s.goAhead providerId b = some u →
      Move groupSize providerId s (.leave b) u
  | notice {b : Address} : b ∈ s.gone →
      Move groupSize providerId s (.notice b) { s with view := s.view.filter fun m => m.2 ≠ b }
  | request {env v r} : r ≠ .leave → v.1 ∉ s.gone →
      Move groupSize providerId s (.request env v r)
        { s with server := Function.update s.server v (process env (s.server v) r).provider }

theorem step_move (h : Step groupSize providerId s e t) : Move groupSize providerId s e t := by
  unfold Step step at h
  cases e with
  | caller => exact .caller h
  | leave a => exact .leave h
  | notice a =>
    dsimp only at h
    split at h
    · next ha =>
      cases h
      exact .notice ha
    · cases h
  | request env v r =>
    dsimp only at h
    split at h
    · cases h
    · next hr =>
      cases h
      rw [not_or] at hr
      exact .request hr.1 hr.2

theorem notice_alone (ha : a ∈ s.gone) : Alone groupSize providerId s (.notice a)
    { s with view := s.view.filter fun m => m.2 ≠ a } :=
  ⟨if_pos ha, rfl⟩

theorem caller_alone (h : s.makeServersLeave groupSize = some t) :
    Alone groupSize providerId s .caller t := ⟨h, rfl⟩

theorem leave_alone (h : s.goAhead providerId a = some t) :
    Alone groupSize providerId s (.leave a) t := ⟨h, rfl⟩

theorem reaches_of_alone (h : Reaches (Alone groupSize providerId) s t) :
    Reaches (Step groupSize providerId) s t :=
  h.invariant (fun _ _ _ hs hst => hs.snoc hst.1) .refl

theorem Accounted.step (h : Accounted view providerId w s)
    (hstep : Step groupSize providerId s e t) : Accounted view providerId w t := by
  cases step_move hstep with
  | caller hc => exact h.caller (makeServersLeave_passes hc)
  | leave hgo => exact h.leave hgo
  | notice ha => exact h.notice ha
  | request hr hv => exact h.request hr hv

/-- Only the loop changes what the call has done. -/
theorem Asks.step (ha : Asks view ranks s) (h : Accounted view providerId w s) (hg : Group view)
    (hd : Decreasing view.length ranks) (hstep : Step view.length providerId s e t) :
    Asks view ranks t := by
  cases step_move hstep with
  | caller hc => exact ha.caller h hg hd (makeServersLeave_passes hc)
  | leave hgo =>
    obtain ⟨-, -, rfl⟩ := goAhead_some hgo
    exact ha
  | notice | request => exact ha

end Steps

/-! ## Whole calls -/

section Runs

variable {β : Type} {view : View} {ranks : List ℤ} {providerId : UInt16} {w : Servers β}
  {s t : State β} {a : Address}

theorem accounted_initial (view : View) (ranks : List ℤ) (providerId : UInt16) (w : Servers β) :
    Accounted view providerId w (initial view ranks w) := by
  refine ⟨⟨[], List.Subset.refl _, ?_⟩, List.Perm.refl _, fun v => ?_, fun a ha => nomatch ha⟩
  · exact (List.filter_eq_self.mpr fun m _ => decide_eq_true List.not_mem_nil).symm
  · rw [initial, List.count_nil, ite_self, Nat.add_zero]

theorem accounted_reaches
    (h : Reaches (Step view.length providerId) (initial view ranks w) s) :
    Accounted view providerId w s :=
  h.invariant (fun _ _ _ => Accounted.step) (accounted_initial view ranks providerId w)

theorem asks_reaches (hg : Group view) (hd : Decreasing view.length ranks)
    (h : Reaches (Step view.length providerId) (initial view ranks w) s) : Asks view ranks s := by
  have hstep : ∀ s e t, Asks view ranks s ∧ Accounted view providerId w s →
      Step view.length providerId s e t → Asks view ranks t ∧ Accounted view providerId w t :=
    fun s e t hs hst => ⟨hs.1.step hs.2 hg hd hst, hs.2.step hst⟩
  exact (h.invariant hstep ⟨⟨[], rfl, rfl⟩, accounted_initial view ranks providerId w⟩).1

/-! ## The end of a call -/

theorem Passes.server (h : Passes view.length s t) : t.server = s.server := by
  cases h <;> rfl

theorem call_ends (hg : Group view) (hd : Decreasing view.length ranks)
    (h : Reaches (Step view.length providerId) (initial view ranks w) s) :
    ∃ t, Reaches (Alone view.length providerId) s t ∧ t.caller = .ended (.ok ()) ∧
      t.server = s.server := by
  have hasks := asks_reaches hg hd h
  cases hc : s.caller with
  | ended r =>
    unfold Asks at hasks
    rw [hc] at hasks
    cases r with
    | ok => exact ⟨s, .refl, hc, rfl⟩
    | error e => exact hasks.elim
  | asking rest =>
    induction rest generalizing s with
    | nil =>
      have hstep : s.makeServersLeave view.length = some { s with caller := .ended (.ok ()) } := by
        unfold State.makeServersLeave
        rw [hc]
      exact ⟨_, .single ⟨_, caller_alone hstep⟩, rfl, rfl⟩
    | cons rank rest ih =>
      obtain ⟨t, ht⟩ := makeServersLeave_goesOn view.length hc
      have hst : Alone view.length providerId s .caller t := caller_alone ht
      have hp := makeServersLeave_passes ht
      have hasks' := asks_reaches hg hd (h.snoc hst.1)
      have hc' : t.caller = .asking rest := by
        cases hp with
        | returned h' => cases hc.symm.trans h'
        | skipped h' => exact congrArg Caller.asking (List.cons.inj (Caller.asking.inj
            (h'.symm.trans hc))).2
        | failed => exact hasks'.elim
        | asked h' => exact congrArg Caller.asking (List.cons.inj (Caller.asking.inj
            (h'.symm.trans hc))).2
      obtain ⟨u, hu, hended, hserver⟩ := ih (h.snoc hst.1) hasks' hc'
      exact ⟨u, .head ⟨.caller, hst⟩ hu, hended, hserver.trans hp.server⟩

theorem goAhead_of_idle (ha : a ∈ s.waiting)
    (hidle : (s.server (a, providerId)).numActivePipelines = 0) :
    ∃ t, s.goAhead providerId a = some t := by
  unfold State.goAhead
  rw [if_pos ⟨ha, hidle⟩]
  exact ⟨_, rfl⟩

/-- A departure changes no counter. -/
theorem goAhead_counts (h : s.goAhead providerId a = some t) (b : Address) :
    (t.server (b, providerId)).numActivePipelines =
      (s.server (b, providerId)).numActivePipelines := by
  obtain ⟨-, -, rfl⟩ := goAhead_some h
  by_cases hba : b = a
  · rw [hba]
    simp only [Function.update_self]
  · have hne : (b, providerId) ≠ (a, providerId) := fun he => hba (congrArg Prod.fst he)
    simp only [Function.update_of_ne hne]

theorem all_leave (groupSize : ℕ)
    (hidle : ∀ a ∈ s.waiting, (s.server (a, providerId)).numActivePipelines = 0) :
    ∃ t, Reaches (Alone groupSize providerId) s t ∧ t.caller = s.caller ∧ t.waiting = [] := by
  induction hw : s.waiting generalizing s with
  | nil => exact ⟨s, .refl, rfl, hw⟩
  | cons a rest ih =>
    have ha : a ∈ s.waiting := hw ▸ List.mem_cons_self ..
    obtain ⟨t, ht⟩ := goAhead_of_idle ha (hidle a ha)
    have hrest : t.waiting = rest := by
      obtain ⟨-, -, rfl⟩ := goAhead_some ht
      exact (congrArg (·.erase a) hw).trans (List.erase_cons_head ..)
    have hcaller : t.caller = s.caller := by
      obtain ⟨-, -, rfl⟩ := goAhead_some ht
      rfl
    have hidle' : ∀ b ∈ t.waiting, (t.server (b, providerId)).numActivePipelines = 0 := by
      intro b hb
      rw [goAhead_counts ht b]
      exact hidle b (hw ▸ List.mem_cons_of_mem a (hrest ▸ hb))
    obtain ⟨u, hu, hcaller', hwaiting⟩ := ih hidle' hrest
    exact ⟨u, .head ⟨_, leave_alone ht⟩ hu, hcaller'.trans hcaller, hwaiting⟩

theorem all_noticed (groupSize : ℕ) (providerId : UInt16) {l : List Address} (hl : l ⊆ s.gone) :
    ∃ t, Reaches (Alone groupSize providerId) s t ∧ t.caller = s.caller ∧
      t.waiting = s.waiting ∧ t.gone = s.gone ∧ t.view = s.view.filter fun m => m.2 ∉ l := by
  induction l generalizing s with
  | nil =>
    refine ⟨s, .refl, rfl, rfl, rfl, ?_⟩
    exact (List.filter_eq_self.mpr fun m _ => decide_eq_true List.not_mem_nil).symm
  | cons a l ih =>
    obtain ⟨ha, hl⟩ := List.cons_subset.mp hl
    obtain ⟨t, ht, hcaller, hwaiting, hgone, hview⟩ :=
      ih (s := { s with view := s.view.filter fun m => m.2 ≠ a }) hl
    refine ⟨t, .head ⟨_, notice_alone ha⟩ ht, hcaller, hwaiting, hgone, hview.trans ?_⟩
    simp only [List.filter_filter, List.mem_cons, not_or, Bool.decide_and, Bool.and_comm]

/-- Where the members that are to leave count no active pipeline, the call can be brought to its
end, and then they and no others are gone. -/
theorem departs (hg : Group view) (hd : Decreasing view.length ranks)
    (h : Reaches (Step view.length providerId) (initial view ranks w) s)
    (hidle : ∀ a ∈ named view ranks, (s.server (a, providerId)).numActivePipelines = 0) :
    ∃ t, Reaches (Alone view.length providerId) s t ∧ Departed view ranks t := by
  obtain ⟨t, ht, hended, hserver⟩ := call_ends hg hd h
  have hasked : t.asked = named view ranks := by
    have hasks := asks_reaches hg hd (h.trans (reaches_of_alone ht))
    unfold Asks at hasks
    rwa [hended] at hasks
  have hwaits : ∀ a ∈ t.waiting, (t.server (a, providerId)).numActivePipelines = 0 := by
    intro a ha
    rw [hserver]
    have hsub := (accounted_reaches (h.trans (reaches_of_alone ht))).requests.subset
    exact hidle a (hasked ▸ hsub (List.mem_append_left _ ha))
  obtain ⟨u, hu, hended', hwaiting⟩ := all_leave view.length hwaits
  obtain ⟨x, hx, hended'', hwaiting', hgone, hview⟩ :=
    all_noticed view.length providerId (List.Subset.refl u.gone)
  have hreaches := h.trans (reaches_of_alone (ht.trans (hu.trans hx)))
  have hacc := accounted_reaches hreaches
  have hreturned : x.caller = .ended (.ok ()) := hended''.trans (hended'.trans hended)
  have hperm : x.gone.Perm (named view ranks) := by
    have hasks := asks_reaches hg hd hreaches
    unfold Asks at hasks
    rw [hreturned] at hasks
    have hrequests := hacc.requests
    rwa [hwaiting', hwaiting, List.nil_append, show x.asked = named view ranks from hasks]
      at hrequests
  refine ⟨x, ht.trans (hu.trans hx), hreturned, hwaiting'.trans hwaiting, hperm, ?_⟩
  have haccounted := accounted_reaches (h.trans (reaches_of_alone (ht.trans hu)))
  obtain ⟨noticed, hsub, hobserved⟩ := haccounted.observed
  rw [hview, hobserved, List.filter_filter]
  refine List.filter_congr fun m _ => ?_
  rw [← Bool.decide_and]
  refine decide_eq_decide.mpr ⟨fun hm hnamed => hm.1 (hgone ▸ hperm.symm.subset hnamed), ?_⟩
  intro hm
  have hgone' : m.2 ∉ u.gone := fun hmem => hm (hperm.subset (hgone ▸ hmem))
  exact ⟨hgone', fun hmem => hgone' (hsub hmem)⟩

/-! ## Ranks that do not go down -/

/-- The call after these ranks, when nobody has left. -/
def sent (view : View) (w : Servers β) (done rest : List ℤ) : State β :=
  ⟨.asking rest, view, named view done, (named view done).reverse, [], w⟩

theorem sent_step (hg : Group view) (w : Servers β) (done : List ℤ) (rank : ℤ) (rest : List ℤ) :
    Step view.length providerId (sent view w done (rank :: rest)) .caller
      (sent view w (done ++ [rank]) rest) := by
  unfold Step step State.makeServersLeave sent
  dsimp only
  by_cases hr : rank < 0 ∨ view.length ≤ rank
  · rw [if_pos hr, named_append, named_skipped hr, List.append_nil]
  · have hi : rank.toNat < view.length := by omega
    have hm : memberAddr view rank.toNat = some view[rank.toNat].2 := by
      rw [memberAddr_eq hg, List.getElem?_eq_getElem hi]
      rfl
    rw [if_neg hr, hm, named_append, named_taken hr hi, List.reverse_append]
    exact if_neg List.not_mem_nil

theorem reaches_sent (hg : Group view) (w : Servers β) (done rest : List ℤ) :
    Reaches (Step view.length providerId) (initial view (done ++ rest) w)
      (sent view w done rest) := by
  induction done using List.reverseRecOn generalizing rest with
  | nil => exact .refl
  | append_singleton done rank ih =>
    rw [List.append_assoc]
    exact (ih (rank :: rest)).snoc (sent_step hg w done rank rest)

theorem exists_not_decreasing {size : ℕ} (h : ¬ Decreasing size ranks) :
    ∃ done, ∃ rank : ℤ, ∃ rest, ranks = done ++ rank :: rest ∧ ¬ (rank < 0 ∨ size ≤ rank) ∧
      ∃ q ∈ selected size done, q ≤ rank.toNat := by
  induction ranks with
  | nil => exact (h List.Pairwise.nil).elim
  | cons first ranks ih =>
    by_cases hd : Decreasing size ranks
    · by_cases hout : first < 0 ∨ size ≤ first
      · refine (h ?_).elim
        unfold Decreasing
        rw [← List.singleton_append, selected_append, selected_skipped hout]
        exact hd
      · obtain ⟨x, hx, hle⟩ : ∃ x ∈ selected size ranks, first.toNat ≤ x := by
          by_contra hall
          simp only [not_exists, not_and, Nat.not_le] at hall
          refine h ?_
          unfold Decreasing
          rw [← List.singleton_append, selected_append, selected_taken hout]
          exact List.Pairwise.cons hall hd
        obtain ⟨rank, hrank, hsome⟩ := List.mem_filterMap.mp hx
        split at hsome
        · cases hsome
        · next hr =>
          obtain rfl := Option.some.inj hsome
          obtain ⟨done, rest, rfl⟩ := List.append_of_mem hrank
          refine ⟨first :: done, rank, rest, rfl, hr, first.toNat, ?_, hle⟩
          rw [← List.singleton_append, selected_append, selected_taken hout]
          exact List.mem_cons_self ..
    · obtain ⟨done, rank, rest, rfl, hr, q, hq, hle⟩ := ih hd
      refine ⟨first :: done, rank, rest, rfl, hr, q, ?_, hle⟩
      rw [← List.singleton_append, selected_append]
      exact List.mem_append_right _ hq

/-- When a member with a lower rank, or with this one, is missing, the loop does not find the member
that had this rank. -/
theorem not_asks_of_missing (hg : Group view) {done rest : List ℤ} {rank : ℤ} {q : ℕ}
    (hi : rank.toNat < view.length) (hr : ¬ (rank < 0 ∨ view.length ≤ rank))
    (hqi : q < view.length) (hle : q ≤ rank.toNat) (hc : s.caller = .asking (rank :: rest))
    (hasked : s.asked = named view done) (hview : s.view = view.filter fun m => m.2 ≠ view[q].2)
    (hp : Passes view.length s t) : ¬ Asks view (done ++ rank :: rest) t := by
  have hmoved : s.view[rank.toNat]? = view[rank.toNat + 1]? := by
    rw [hview]
    refine getElem?_filter_of_lost (List.Nodup.of_map _ hg.addresses) ?_ ?_
      (List.getElem?_eq_getElem hqi) hle
    · exact decide_eq_false (not_not_intro rfl)
    · intro m hm hne
      exact decide_eq_true fun he =>
        hne (List.inj_on_of_nodup_map hg.addresses hm (List.getElem_mem hqi) he)
  have hgroup : Group s.view := hview ▸ hg.filter _
  intro hasks
  cases hp with
  | returned hc' => cases hc.symm.trans hc'
  | skipped hc' hr' =>
    obtain ⟨rfl, -⟩ := List.cons.inj (Caller.asking.inj (hc'.symm.trans hc))
    exact hr hr'
  | failed => exact hasks
  | @asked rank' rest' b hc' hr' hm hthere =>
    obtain ⟨rfl, rfl⟩ := List.cons.inj (Caller.asking.inj (hc'.symm.trans hc))
    obtain ⟨done', hdone', hasked'⟩ := hasks
    have hsplit : done' = done ++ [rank'] := by
      rw [← List.singleton_append, ← List.append_assoc] at hdone'
      exact (List.append_cancel_right hdone').symm
    have hb : b = view[rank'.toNat].2 := by
      dsimp only at hasked'
      rw [hsplit, named_append, named_taken hr hi, hasked] at hasked'
      exact List.singleton_inj.mp (List.append_cancel_left hasked')
    rw [memberAddr_eq hgroup, hmoved] at hm
    obtain ⟨m, hnext, hmb⟩ := Option.map_eq_some_iff.mp hm
    have hsame := position_unique hg hnext (List.getElem?_eq_getElem hi) (hmb.trans hb)
    exact Nat.succ_ne_self _ hsame

/-- A member that the call has asked, and whose counter is 0, leaves and is missed. -/
theorem reaches_missing (hg : Group view) {done : List ℤ} (rest : List ℤ) {q : ℕ}
    (hq : q ∈ selected view.length done) (hqi : q < view.length)
    (hidle : (w (view[q].2, providerId)).numActivePipelines = 0) :
    ∃ s, Reaches (Step view.length providerId) (initial view (done ++ rest) w) s ∧
      s.caller = .asking rest ∧ s.asked = named view done ∧
      s.view = view.filter fun m => m.2 ≠ view[q].2 := by
  have hasked : view[q].2 ∈ (named view done).reverse :=
    List.mem_reverse.mpr (mem_named.mpr ⟨q, hq, _, List.getElem?_eq_getElem hqi, rfl⟩)
  obtain ⟨t, ht⟩ := goAhead_of_idle (s := sent view w done rest) hasked hidle
  have hleft := (reaches_sent hg w done rest).snoc (leave_alone ht).1
  obtain ⟨-, -, rfl⟩ := goAhead_some ht
  have hmem : view[q].2 ∈ view[q].2 :: (sent view w done rest).gone := List.mem_cons_self ..
  exact ⟨_, hleft.snoc (notice_alone hmem).1, rfl, rfl, rfl⟩

/-- A member that has been asked before one with a rank that is not lower may leave first, and then
another one has that rank, or nobody. -/
theorem exists_not_asks (hg : Group view) (hidle : ∀ m ∈ view,
      (w (m.2, providerId)).numActivePipelines = 0) (h : ¬ Decreasing view.length ranks) :
    ∃ s, Reaches (Step view.length providerId) (initial view ranks w) s ∧ ¬ Asks view ranks s := by
  obtain ⟨done, rank, rest, rfl, hr, q, hq, hle⟩ := exists_not_decreasing h
  have hi : rank.toNat < view.length := by omega
  have hqi : q < view.length := Nat.lt_of_le_of_lt hle hi
  obtain ⟨s, hs, hc, hasked, hview⟩ :=
    reaches_missing hg (rank :: rest) hq hqi (hidle _ (List.getElem_mem hqi))
  obtain ⟨t, ht⟩ := makeServersLeave_goesOn view.length hc
  exact ⟨t, hs.snoc (caller_alone ht).1,
    not_asks_of_missing hg hi hr hqi hle hc hasked hview (makeServersLeave_passes ht)⟩

/-- Where the ranks go down, whatever the members and their clients do: the members asked are those
that had the ranks when the call began, each leaves at most once and only when its counter of active
pipelines is 0, and nobody else leaves; and once their counters are 0, the call can be brought to an
end with exactly them gone. Where the ranks do not go down, and all counters are 0, the call may ask
another member, or fail. -/
theorem ranks_leave_iff_decreasing {β : Type} {view : View} (hg : Group view) (ranks : List ℤ)
    (providerId : UInt16) (w : Servers β) :
    (Decreasing view.length ranks →
      ∀ s, Reaches (Step view.length providerId) (initial view ranks w) s →
        Asks view ranks s ∧ Accounted view providerId w s ∧
        ((∀ a ∈ named view ranks, (s.server (a, providerId)).numActivePipelines = 0) →
          ∃ t, Reaches (Alone view.length providerId) s t ∧ Departed view ranks t)) ∧
    ((∀ m ∈ view, (w (m.2, providerId)).numActivePipelines = 0) →
      (∀ s, Reaches (Step view.length providerId) (initial view ranks w) s → Asks view ranks s) →
        Decreasing view.length ranks) := by
  refine ⟨fun hd s hs => ⟨asks_reaches hg hd hs, accounted_reaches hs, departs hg hd hs⟩, ?_⟩
  intro hidle hasks
  by_contra h
  obtain ⟨s, hs, hwrong⟩ := exists_not_asks hg hidle h
  exact hwrong (hasks s hs)

end Runs

def threeMembers : View := [(4, [97]), (7, [98]), (9, [99])]

/-- The last member and the first one are asked in this order; in the other order the first one may
be missing when the last one is looked up. -/
theorem last_and_first_leave :
    (∃ t, Reaches (Alone 3 0) (initial threeMembers [2, 0] fun _ => ProviderRuns.freshProvider) t ∧
      Departed threeMembers [2, 0] t) ∧
    ∃ s, Reaches (Step 3 0) (initial threeMembers [0, 2] fun _ => ProviderRuns.freshProvider) s ∧
      ¬ Asks threeMembers [0, 2] s := by
  have hg : Group threeMembers := ⟨⟨by decide, by decide⟩, by decide⟩
  have hdown := (ranks_leave_iff_decreasing hg [2, 0] 0 fun _ => ProviderRuns.freshProvider).1
    (by decide) _ .refl
  have hup := (ranks_leave_iff_decreasing hg [0, 2] 0 fun _ => ProviderRuns.freshProvider).2
    fun _ _ => rfl
  refine ⟨hdown.2.2 fun _ _ => rfl, ?_⟩
  by_contra h
  have hasks : ∀ s, Reaches (Step 3 0) (initial threeMembers [0, 2] fun _ =>
      ProviderRuns.freshProvider) s → Asks threeMembers [0, 2] s :=
    fun s hs => by_contra fun hwrong => h ⟨s, hs, hwrong⟩
  exact absurd (hup hasks) (by decide)

end Departures
