import Colza.MonaAddresses

/-!
# The lists of addresses that pipelines are passed

A thread passes the list of its own snapshot. Where every list is still current when it is
passed, the thread of the last change leaves all pipelines with the final list.
-/
namespace MonaLists

open GuardedRuns Interfaces GroupHash MonaAddresses

/-- Every registered pipeline was last passed the list of the current addresses. -/
def UpToDate (s : State) : Prop :=
  ∀ name r, s.pipelines name = some r → r.last = s.addresses.values

/-- A list that is passed to the registered pipelines, or to a pipeline that is registered
now, is the list of the current addresses. -/
def PassesCurrent (s : State) : Event → Prop
  | .pass k => ∀ x addresses stamp, s.threads[k]? = some x → x.stage = .passing addresses stamp →
    addresses = s.addresses.values
  | _ => True

/-- The thread of an update that has changed the map and has not passed its list. -/
def IsPending (x : Thread) : Prop :=
  (∃ u, x.task = .update u) ∧
    (x.stage = .snapshot ∨ ∃ addresses stamp, x.stage = .passing addresses stamp)

def Awaiting (s : State) : Prop := (∃ x ∈ s.threads, IsPending x) ∨ UpToDate s

/-- The list of the addresses after these changes. -/
def valuesAfter (m : AddressMap) (changes : List Change) : List NaAddr :=
  (changes.foldl AddressMap.apply m).values

variable {s t : State} {e : Event} {k : ℕ} {x y : Thread}

theorem mem_goto_of_ne (hk : s.threads[k]? = some x) (hy : y ∈ s.threads) (hne : y ≠ x)
    (stage : Stage) : y ∈ (s.goto k x stage).threads := by
  obtain ⟨j, hj⟩ := List.mem_iff_getElem?.mp hy
  have hkj : k ≠ j := by
    rintro rfl
    exact hne (Option.some.inj (hj.symm.trans hk))
  apply List.mem_of_getElem? (i := j)
  change (s.threads.set k _)[j]? = some y
  rw [List.getElem?_set_ne hkj, hj]

theorem mem_goto_self (hk : s.threads[k]? = some x) (stage : Stage) :
    { x with stage := stage } ∈ (s.goto k x stage).threads :=
  List.mem_set (List.getElem?_eq_some_iff.mp hk).1 _

theorem Awaiting.make (h : Awaiting s) (view : Finset MemberId) (task : Task) :
    Awaiting ({ s with view := view }.make task) := by
  rcases h with ⟨y, hy, hp⟩ | h
  · exact Or.inl ⟨y, List.mem_append_left _ hy, hp⟩
  · exact Or.inr h

/-- A thread that is not pending goes on. -/
theorem Awaiting.goto (h : Awaiting s) (hk : s.threads[k]? = some x) (hx : ¬ IsPending x)
    (stage : Stage) : Awaiting (s.goto k x stage) := by
  rcases h with ⟨y, hy, hp⟩ | h
  · have hne : y ≠ x := fun he => hx (he ▸ hp)
    exact Or.inl ⟨y, mem_goto_of_ne hk hy hne stage, hp⟩
  · exact Or.inr h

theorem not_pending_create {name : String} (htask : x.task = .create name) : ¬ IsPending x := by
  rintro ⟨⟨u, hu⟩, -⟩
  rw [htask] at hu
  cases hu

/-- The list of a creation is current, and goes to the new pipeline only. -/
theorem Awaiting.register (h : Awaiting s) (hk : s.threads[k]? = some x) {name : String}
    (htask : x.task = .create name) {r : Registered} (hr : r.last = s.addresses.values) :
    Awaiting ({ s with pipelines := passTo x.task r s.pipelines }.goto k x .done) := by
  have hpassed : Awaiting { s with pipelines := passTo x.task r s.pipelines } := by
    rcases h with h | h
    · exact Or.inl h
    · refine Or.inr fun name' r' hr' => ?_
      have hlookup : passTo x.task r s.pipelines name' = some r' := hr'
      rw [htask] at hlookup
      by_cases hname : name' = name
      · subst hname
        have hself : some r = some r' := by
          simpa [passTo] using hlookup
        cases hself
        exact hr
      · have hold : s.pipelines name' = some r' := by
          simpa [passTo, hname] using hlookup
        exact h name' r' hold
  exact hpassed.goto hk (not_pending_create htask) .done

/-- The list of an update is current, and goes to all registered pipelines. -/
theorem upToDate_update {u : Update} {r : Registered} (hr : r.last = s.addresses.values) :
    UpToDate { s with pipelines := passTo (.update u) r s.pipelines } := by
  intro name r' hr'
  have hlookup : (s.pipelines name).map (fun _ => r) = some r' := hr'
  obtain ⟨r'', -, hr''⟩ := Option.map_eq_some_iff.mp hlookup
  rw [← hr'']
  exact hr

theorem awaiting_step {before : Finset MemberId} (ht : Tracked before s) (h : Awaiting s)
    (hg : PassesCurrent s e) (hs : Step s e t) : Awaiting t := by
  cases hs with
  | update _ => exact h.make _ _
  | create name => exact h.make _ _
  | resolve addr hk =>
    apply h.goto hk
    rintro ⟨-, hx | ⟨addresses, stamp, hx⟩⟩ <;> cases hx
  | @change k x c hk hc =>
    -- the thread of the change is pending now
    have hfits := ht.fits x (List.mem_of_getElem? hk)
    unfold Fits at hfits
    rw [hc] at hfits
    obtain ⟨u, htask, -⟩ := hfits
    exact Or.inl ⟨_, mem_goto_self hk .snapshot, ⟨u, htask⟩, Or.inl rfl⟩
  | @snapshot k x hk hstage =>
    cases htask : x.task with
    | update u =>
      exact Or.inl ⟨_, mem_goto_self hk _, ⟨u, htask⟩, Or.inr ⟨_, _, rfl⟩⟩
    | create name => exact h.goto hk (not_pending_create htask) _
  | @pass k x addresses stamp hk hstage =>
    have hcurrent : addresses = s.addresses.values := hg x addresses stamp hk hstage
    cases htask : x.task with
    | update u =>
      have hall : UpToDate { s with
          pipelines := passTo (.update u) ⟨addresses, stamp⟩ s.pipelines } :=
        upToDate_update hcurrent
      exact Or.inr hall
    | create name => exact htask ▸ h.register hk htask (r := ⟨addresses, stamp⟩) hcurrent

theorem awaiting_settled (h : Settled s) : Awaiting s := by
  refine Or.inr fun name r hr => ?_
  rw [h.pipelines name r hr]

/-- A run in which lists are current when they are passed. -/
theorem upToDate_of_guarded {p : List (Event × State)} (h : Settled s) (hp : Run Step s p)
    (hg : Guarded PassesCurrent s p) (hf : Finished (final s p)) : UpToDate (final s p) := by
  have hboth : ∀ a e b, (Tracked s.view a ∧ Awaiting a) → PassesCurrent a e → Step a e b →
      Tracked s.view b ∧ Awaiting b := by
    rintro a e b ⟨ht, ha⟩ hg hs
    exact ⟨tracked_step ht hs, awaiting_step ht ha hg hs⟩
  have hlast := (guarded_always hboth hp ⟨tracked_settled h, awaiting_settled h⟩ hg).last
  rcases hlast.2 with ⟨x, hx, -, hstage⟩ | hup
  · have hdone := hf x hx
    rcases hstage with hs | ⟨addresses, stamp, hs⟩
    · rw [hdone] at hs
      cases hs
    · rw [hdone] at hs
      cases hs
  · exact hup

/-! ## Where the lists come from -/

/-- A list that was taken after the first `stamp` changes. -/
def TakenAt (m : AddressMap) (applied : List Change) (addresses : List NaAddr) (stamp : ℕ) : Prop :=
  stamp ≤ applied.length ∧ addresses = valuesAfter m (applied.take stamp)

structure Stamped (m : AddressMap) (s : State) : Prop where
  addresses : s.addresses = s.applied.foldl AddressMap.apply m
  pipelines : ∀ name r, s.pipelines name = some r → TakenAt m s.applied r.last r.stamp
  threads : ∀ x ∈ s.threads, ∀ addresses stamp, x.stage = .passing addresses stamp →
    TakenAt m s.applied addresses stamp

variable {m : AddressMap}

theorem TakenAt.concat {applied : List Change} {addresses : List NaAddr} {stamp : ℕ}
    (h : TakenAt m applied addresses stamp) (c : Change) :
    TakenAt m (applied ++ [c]) addresses stamp := by
  obtain ⟨hle, hvalues⟩ := h
  constructor
  · rw [List.length_append]
    omega
  · rw [List.take_append_of_le_length hle]
    exact hvalues

theorem Stamped.values (h : Stamped m s) : s.addresses.values = valuesAfter m s.applied := by
  rw [h.addresses]
  rfl

theorem Stamped.goto (h : Stamped m s) {stage : Stage}
    (hx : ∀ addresses stamp, stage = .passing addresses stamp →
      TakenAt m s.applied addresses stamp) : Stamped m (s.goto k x stage) := by
  refine ⟨h.addresses, h.pipelines, fun y hy => ?_⟩
  rcases mem_goto hy with hy | rfl
  · exact h.threads y hy
  · exact hx

theorem Stamped.make (h : Stamped m s) (view : Finset MemberId) (task : Task) :
    Stamped m ({ s with view := view }.make task) := by
  refine ⟨h.addresses, h.pipelines, fun y hy => ?_⟩
  rcases List.mem_append.mp hy with hy | hy
  · exact h.threads y hy
  · obtain rfl := List.mem_singleton.mp hy
    intro addresses stamp hstage
    match task with
    | .update (.joined _) | .update (.left _) | .create _ => cases hstage

theorem Stamped.change (h : Stamped m s) (c : Change) : Stamped m { s with
    addresses := s.addresses.apply c, applied := s.applied ++ [c] } := by
  constructor
  · change s.addresses.apply c = (s.applied ++ [c]).foldl AddressMap.apply m
    rw [List.foldl_append, ← h.addresses]
    rfl
  · intro name r hr
    exact (h.pipelines name r hr).concat c
  · intro y hy addresses stamp hstage
    exact (h.threads y hy addresses stamp hstage).concat c

theorem Stamped.pass (h : Stamped m s) (task : Task) {r : Registered}
    (hr : TakenAt m s.applied r.last r.stamp) :
    Stamped m { s with pipelines := passTo task r s.pipelines } := by
  refine ⟨h.addresses, fun name r' hr' => ?_, h.threads⟩
  cases task with
  | update u =>
    have hlookup : (s.pipelines name).map (fun _ => r) = some r' := hr'
    obtain ⟨r'', -, hr''⟩ := Option.map_eq_some_iff.mp hlookup
    exact hr'' ▸ hr
  | create new =>
    by_cases hname : name = new
    · have hself : some r = some r' := by
        simpa [passTo, hname] using hr'
      exact Option.some.inj hself ▸ hr
    · have hold : s.pipelines name = some r' := by
        simpa [passTo, hname] using hr'
      exact h.pipelines name r' hold

theorem stamped_step (h : Stamped m s) (hs : Step s e t) : Stamped m t := by
  cases hs with
  | update _ => exact h.make _ _
  | create name => exact h.make s.view (.create name)
  | resolve addr hk => exact h.goto fun _ _ hstage => nomatch hstage
  | change hk hc => exact (h.change _).goto fun _ _ hstage => nomatch hstage
  | snapshot hk hstage =>
    apply h.goto
    rintro _ _ ⟨⟩
    refine ⟨Nat.le_refl _, ?_⟩
    rw [List.take_length]
    exact h.values
  | pass hk hstage =>
    have htaken := h.threads _ (List.mem_of_getElem? hk) _ _ hstage
    exact (h.pass _ htaken).goto fun _ _ hstage => nomatch hstage

theorem stamped_run {p : List (Event × State)} (h : Settled s) (hp : Run Step s p) :
    Stamped s.addresses (final s p) := by
  have hstart : Stamped s.addresses s := by
    constructor
    · rw [h.applied]
      rfl
    · intro name r hr
      rw [h.pipelines name r hr]
      exact ⟨Nat.zero_le _, rfl⟩
    · intro x hx
      rw [h.threads] at hx
      cases hx
  apply Reaches.invariant _ hp.reaches hstart
  intro a e b ha hs
  exact stamped_step ha hs

/-- For any number of creations and updates and any interleaving of their threads: the lists
are the final ones if each of them is current when it is passed. In general they are exactly
where the changes after its snapshot leave the list of values as it was. -/
theorem lists_up_to_date {s : State} {p : List (Event × State)} (h : Settled s)
    (hp : Run Step s p) (hf : Finished (final s p)) :
    (Guarded PassesCurrent s p → UpToDate (final s p)) ∧
    (UpToDate (final s p) ↔ ∀ name r, (final s p).pipelines name = some r →
      valuesAfter s.addresses ((final s p).applied.take r.stamp) =
        valuesAfter s.addresses (final s p).applied) := by
  have hstamped := stamped_run h hp
  refine ⟨fun hg => upToDate_of_guarded h hp hg hf, ?_⟩
  unfold UpToDate
  rw [hstamped.values]
  apply forall_congr'
  intro name
  apply forall_congr'
  intro r
  apply imp_congr_right
  intro hr
  rw [(hstamped.pipelines name r hr).2]

/-- A pipeline is created, then member 2 joins: its thread passes the new list to it. -/
theorem lists_current_after_a_join :
    ∃ p, Run Step alone p ∧ UpToDate (final alone p) ∧
      (final alone p).pipelines "p" = some ⟨[10, 20], 1⟩ := by
  have hp : ∃ p, Run Step alone p ∧ Finished (final alone p) ∧ Guarded PassesCurrent alone p ∧
      (final alone p).pipelines "p" = some ⟨[10, 20], 1⟩ := by
    refine ⟨_, .cons (.create "p") (.cons (.snapshot (k := 0) rfl rfl)
      (.cons (.pass (k := 0) rfl rfl) (.cons (.update (u := .joined 2) (.joined (by decide)))
        (.cons (.resolve (k := 1) 20 rfl) (.cons (.change (k := 1) rfl rfl)
          (.cons (.snapshot (k := 1) rfl rfl) (.cons (.pass (k := 1) rfl rfl) (.nil _)))))))),
      ?_, ⟨trivial, trivial, ?created, trivial, trivial, trivial, trivial, ?joined, trivial⟩, ?_⟩
    case created =>
      intro x addresses stamp hk hstage
      cases hk
      cases hstage
      rfl
    case joined =>
      intro x addresses stamp hk hstage
      cases hk
      cases hstage
      rfl
    all_goals decide
  obtain ⟨p, hp, hf, hg, hlast⟩ := hp
  exact ⟨p, hp, (lists_up_to_date alone_settled hp hf).1 hg, hlast⟩

/-- Member 2 joins between the snapshot of a creation and the registration. -/
theorem new_pipeline_misses_member :
    ¬ ∀ (s : State) (p : List (Event × State)), Settled s → Run Step s p → Finished (final s p) →
      UpToDate (final s p) := by
  intro hall
  have hp : ∃ p, Run Step alone p ∧ Finished (final alone p) ∧
      (final alone p).pipelines "p" = some ⟨[10], 0⟩ ∧
      (final alone p).addresses.values = [10, 20] := by
    refine ⟨_, .cons (.create "p") (.cons (.update (u := .joined 2) (.joined (by decide)))
      (.cons (.snapshot (k := 0) rfl rfl) (.cons (.resolve (k := 1) 20 rfl)
        (.cons (.change (k := 1) rfl rfl) (.cons (.snapshot (k := 1) rfl rfl)
          (.cons (.pass (k := 1) rfl rfl) (.cons (.pass (k := 0) rfl rfl) (.nil _)))))))),
      ?_, ?_, ?_⟩ <;> decide
  obtain ⟨p, hp, hf, hpipeline, hvalues⟩ := hp
  have hlast := hall alone p alone_settled hp hf "p" _ hpipeline
  rw [hvalues] at hlast
  cases hlast

end MonaLists
