import Colza.ServedAttempts

/-!
# DistributedPipelineHandle::start on a group that changes

Between two attempts servers join and leave the group, the servers hold the hashes of
different views, and a refresh finds whatever view there is. An attempt that some server
refuses is undone on the servers that accept it, and once the servers of the view that a
refresh finds hold its hash the call ends with all of them active.
-/
namespace UnsteadyStart

open GuardedRuns FiniteCounts Interfaces ProviderHandlers OpenIterations ClientHandles
open CollectiveNetwork DistributedStart StartCollectives ServedStart ServedAttempts

/-! ## What a start and an abort leave -/

section Providers

variable {β : Type} {env : Environment β} {s t u : Provider β} {name : String} {i : UInt64}
  {groupHash : UInt64}

/-- No pipeline becomes active or inactive, and the counter is the same. -/
structure Steady (s t : Provider β) : Prop where
  active : ∀ name, (t.pipelines.lookup name).map PipelineState.active =
    (s.pipelines.lookup name).map PipelineState.active
  counter : t.numActivePipelines = s.numActivePipelines

/-- The pipeline opens this iteration, and it is the only one that does. -/
structure Opened (s t : Provider β) (name : String) (i : UInt64) : Prop where
  active : ActiveAt t name i
  others : ∀ other, other ≠ name → (t.pipelines.lookup other).map PipelineState.active =
    (s.pipelines.lookup other).map PipelineState.active
  counter : t.numActivePipelines = s.numActivePipelines + 1

theorem Steady.refl (s : Provider β) : Steady s s := ⟨fun _ => rfl, rfl⟩

theorem Steady.trans (h : Steady s t) (h' : Steady t u) : Steady s u :=
  ⟨fun name => (h'.active name).trans (h.active name), h'.counter.trans h.counter⟩

theorem Steady.opened (h : Steady s t) (h' : Opened t u name i) : Opened s u name i where
  active := h'.active
  others other hne := (h'.others other hne).trans (h.active other)
  counter := by rw [h'.counter, h.counter]

theorem steady_setState {st st' : PipelineState β} (hl : s.pipelines.lookup name = some st)
    (ha : st'.active = st.active) : Steady s (s.setState name st') := by
  refine ⟨fun other => ?_, rfl⟩
  by_cases hne : other = name
  · rw [hne, lookup_setState, hl, Option.map_some, Option.map_some, ha]
  · rw [Provider.setState, Finmap.lookup_insert_of_ne _ hne]

theorem steady_of_start_refused (h : ¬ StartAccepted env s groupHash name i) :
    Steady s (start env s groupHash name i).provider := by
  unfold start
  split
  · exact .refl s
  · split
    · exact .refl s
    · next st hl =>
      split
      · exact .refl s
      · next ha =>
        split
        · exact .refl s
        · dsimp only
          split
          · next hg _ hi hr =>
            refine (h ⟨by simpa using hg, st, hl, by simpa using ha, ?_, hr⟩).elim
            by_cases h0 : st.iteration = 0
            · exact Or.inl h0
            · exact Or.inr (UInt64.not_le.mp fun hle => hi ⟨h0, hle⟩)
          · have hc : s.numActivePipelines + 1 - 1 = s.numActivePipelines := by simp
            rw [hc]
            exact steady_setState hl rfl

theorem start_replies (env : Environment β) (s : Provider β) (groupHash : UInt64) (name : String)
    (i : UInt64) : ∃ r, (start env s groupHash name i).reply = some r := by
  unfold start
  repeat' split
  all_goals exact ⟨_, rfl⟩

theorem start_opens (h : StartAccepted env s groupHash name i) :
    Opened s (start env s groupHash name i).provider name i := by
  obtain ⟨st, r, b, hl, -, -, -, he⟩ := start_accepted h
  refine ⟨(activeAt_start h).2, fun other hne => ?_, by rw [he]; rfl⟩
  rw [he]
  change (Finmap.lookup other (Finmap.insert name _ s.pipelines)).map _ = _
  rw [Finmap.lookup_insert_of_ne _ hne]

/-- What is left of a start that is aborted. -/
theorem abort_started (h : StartAccepted env s groupHash name i) :
    ∃ b, (abort env (start env s groupHash name i).provider name i).provider =
      { s with pipelines := s.pipelines.insert name ⟨b, false, i - 1⟩ } := by
  obtain ⟨st, r, b, hl, -, -, -, he⟩ := start_accepted h
  rw [he]
  refine ⟨⟨st.pipeline.id, env.backend.abort b i⟩, ?_⟩
  simp [abort, onActive, Provider.activate, Provider.deactivate, Provider.setState,
    PipelineState.setBackend]

theorem steady_abort_started (h : StartAccepted env s groupHash name i) :
    Steady s (abort env (start env s groupHash name i).provider name i).provider := by
  obtain ⟨b, hb⟩ := abort_started h
  obtain ⟨-, st, hl, ha, -⟩ := h
  rw [hb]
  exact steady_setState hl ha.symm

/-- An iteration other than 0 can be started again after it is aborted. -/
theorem ready_abort_started (hok : ∀ b, (env.backend.start b i).1.success = true) (hi : i ≠ 0)
    (h : StartAccepted env s groupHash name i) :
    ReadyFor env (abort env (start env s groupHash name i).provider name i).provider name i := by
  obtain ⟨b, hb⟩ := abort_started h
  rw [hb]
  refine ⟨⟨b, false, i - 1⟩, Finmap.lookup_insert _, rfl, Or.inr ?_, hok _⟩
  have hpos : 0 < i.toNat := Nat.pos_of_ne_zero fun h0 => hi (UInt64.toNat_inj.mp h0)
  rw [UInt64.lt_iff_toNat_lt, toNat_pred hi]
  omega

end Providers

/-! ## One attempt -/

section Attempt

variable {β : Type} {env : Environment β} {view : View} {w : Servers β}
  {h : DistributedPipelineHandle} {i : UInt64}

theorem accepts_iff {p : PipelineHandle} : accepts env w h i p = true ↔
    StartAccepted env (w (endpoint p)) h.groupHash p.name i := by
  obtain ⟨r, hr⟩ := start_replies env (w (endpoint p)) h.groupHash p.name i
  rw [accepts_of_reply hr, ← start_succeeded]
  constructor
  · exact fun hs => ⟨r, hr, hs⟩
  · rintro ⟨r', hr', hs⟩
    obtain rfl : r = r' := Option.some.inj (hr.symm.trans hr')
    exact hs

/-- The pipelines of a handle have its name and servers of their own. -/
structure Sound (h : DistributedPipelineHandle) : Prop where
  endpoints : (h.pipelines.map endpoint).Nodup
  names : ∀ p ∈ h.pipelines, p.name = h.name

theorem sound_of_onView (hon : OnView view h) : Sound h :=
  ⟨hon.endpoints_nodup, fun p hp => name_of_mem_handles (hon.members p hp)⟩

variable (hs : Sound h)

include hs

/-- Where all servers accept, the iteration is open on them and nothing else changes. -/
theorem attempt_opens (view : View) (ha : ∀ p ∈ h.pipelines,
      StartAccepted env (w (endpoint p)) h.groupHash p.name i) :
    attempt (servedBy env view w) h i = .decided (servers h) true [] .returned ∧
      (∀ p ∈ h.pipelines,
        Opened (w (endpoint p)) (afterAttempt env view w h i (endpoint p)) h.name i) ∧
      ∀ v, v ∉ h.pipelines.map endpoint → afterAttempt env view w h i v = w v := by
  have hattempt : attempt (servedBy env view w) h i = .decided (servers h) true [] .returned := by
    rcases attempt_served env view w h i with ⟨-, he⟩ | ⟨⟨p, hp, hno⟩, -⟩
    · exact he
    · rw [accepts_iff.mpr (ha p hp)] at hno
      cases hno
  refine ⟨hattempt, fun p hp => ?_, fun v hv => afterAttempt_other hv⟩
  rw [afterAttempt_all hs.endpoints hattempt hp, ← hs.names p hp]
  exact start_opens (ha p hp)

/-- Where some server refuses, nothing is left of the attempt. -/
theorem attempt_undone (view : View) {p : PipelineHandle} (hp : p ∈ h.pipelines)
    (hno : ¬ StartAccepted env (w (endpoint p)) h.groupHash p.name i) (v : Address × UInt16) :
    Steady (w v) (afterAttempt env view w h i v) ∧
      ((∀ b, (env.backend.start b i).1.success = true) → i ≠ 0 → ReadyFor env (w v) h.name i →
        ReadyFor env (afterAttempt env view w h i v) h.name i) := by
  rcases attempt_served env view w h i with ⟨hall, -⟩ | ⟨-, hattempt⟩
  · exact (hno (accepts_iff.mp (hall p hp))).elim
  by_cases hv : v ∈ h.pipelines.map endpoint
  · obtain ⟨q, hq, rfl⟩ := List.mem_map.mp hv
    rw [afterAttempt_some hs.endpoints hattempt hq, ← hs.names q hq]
    by_cases hacc : StartAccepted env (w (endpoint q)) h.groupHash q.name i
    · rw [if_pos (accepts_iff.mpr hacc)]
      exact ⟨steady_abort_started hacc, fun hok hi _ => ready_abort_started hok hi hacc⟩
    · rw [if_neg fun ht => hacc (accepts_iff.mp ht)]
      refine ⟨steady_of_start_refused hacc, fun _ _ hready => ?_⟩
      -- a server that is ready refuses a hash other than its own, before anything else
      have hhash : h.groupHash ≠ (w (endpoint q)).groupHash := fun he => hacc ⟨he, hready⟩
      simpa [start, hhash] using hready
  · rw [afterAttempt_other hv]
    exact ⟨.refl _, fun _ _ hready => hready⟩

end Attempt

/-! ## An attempt depends on the RPCs to its servers only -/

section Congruence

variable {σ : Type} {start abort start' abort' : σ → Rpc} {xs : List σ}

theorem sendStarts_congr (hs : ∀ x ∈ xs, start x = start' x) :
    sendStarts start xs = sendStarts start' xs := by
  induction xs with
  | nil => rfl
  | cons x xs ih =>
    have ih := ih fun y hy => hs y (List.mem_cons_of_mem _ hy)
    simp only [sendStarts, hs x (List.mem_cons_self ..), ih]

theorem waitStarts_congr (hs : ∀ x ∈ xs, start x = start' x) (w : Waited σ) :
    waitStarts start xs w = waitStarts start' xs w := by
  induction xs generalizing w with
  | nil => rfl
  | cons x xs ih =>
    have ih := fun w => ih (fun y hy => hs y (List.mem_cons_of_mem _ hy)) w
    simp only [waitStarts, hs x (List.mem_cons_self ..), ih]

theorem waitStarts_started (start : σ → Rpc) (xs : List σ) (w : Waited σ) :
    ∀ x ∈ (waitStarts start xs w).started, x ∈ w.started ∨ x ∈ xs := by
  induction xs generalizing w with
  | nil => exact fun x hx => Or.inl hx
  | cons y xs ih =>
    intro x hx
    unfold waitStarts at hx
    split at hx
    · split at hx
      · exact (ih _ x hx).imp_right (List.mem_cons_of_mem _)
      · rcases ih _ x hx with hx | hx
        · rcases List.mem_append.mp hx with hx | hx
          · exact Or.inl hx
          · exact Or.inr (List.mem_singleton.mp hx ▸ List.mem_cons_self ..)
        · exact Or.inr (List.mem_cons_of_mem _ hx)
    · exact Or.inl hx
    · exact Or.inl hx

theorem waitAborts_congr (ha : ∀ x ∈ xs, abort x = abort' x) :
    waitAborts abort xs = waitAborts abort' xs := by
  induction xs with
  | nil => rfl
  | cons x xs ih =>
    have ih := ih fun y hy => ha y (List.mem_cons_of_mem _ hy)
    simp only [waitAborts, ha x (List.mem_cons_self ..), ih]

theorem runAttempt_congr (hs : ∀ x ∈ xs, start x = start' x) (ha : ∀ x ∈ xs, abort x = abort' x) :
    runAttempt start abort xs = runAttempt start' abort' xs := by
  have hstarted : ∀ x ∈ (waitStarts start' xs {}).started, abort x = abort' x := fun x hx =>
    ha x ((waitStarts_started start' xs {} x hx).resolve_left List.not_mem_nil)
  have haborted : sendAborts abort (waitStarts start' xs {}).started =
      sendAborts abort' (waitStarts start' xs {}).started :=
    List.filter_congr fun x hx => by rw [hstarted x hx]
  have hwaited : waitAborts abort (sendAborts abort' (waitStarts start' xs {}).started) =
      waitAborts abort' (sendAborts abort' (waitStarts start' xs {}).started) :=
    waitAborts_congr fun x hx => hstarted x (List.mem_of_mem_filter hx)
  unfold runAttempt
  simp only [sendStarts_congr hs, waitStarts_congr hs, haborted, hwaited]

end Congruence

/-! ## The attempts of a call -/

/-- The view that a refresh before attempt `k` finds, and the hashes that the servers hold in
attempt `k`. -/
structure Membership where
  views : ℕ → View
  hashes : ℕ → Address × UInt16 → UInt64

section Course

variable {β : Type} (env : Environment β) (m : Membership) (h₀ : DistributedPipelineHandle)
  (w₀ : Servers β) (i : UInt64)

/-- The servers when attempt `k` begins. -/
def Membership.during (k : ℕ) (w : Servers β) : Servers β := fun v =>
  { w v with groupHash := m.hashes k v }

/-- The handle and the servers of attempt `k`, if it begins. -/
def course : ℕ → DistributedPipelineHandle × Servers β
  | 0 => (h₀, m.during 0 w₀)
  | k + 1 =>
    let (h, w) := course k
    let w := m.during (k + 1) (afterAttempt env (m.views k) w h i)
    match (refresh (fun k => servedBy env (m.views k) w) h (k + 1)).result with
    | .ok h' => (h', w)
    | .error _ => (h, w)

/-- What rank 0 meets in the call. -/
def unsteady (k : ℕ) : AttemptEnv := servedBy env (m.views k) (course env m h₀ w₀ i k).2

/-- The servers after attempt `k`. -/
def left (k : ℕ) : Servers β :=
  afterAttempt env (m.views k) (course env m h₀ w₀ i k).2 (course env m h₀ w₀ i k).1 i

/-- The reply of the server in place `j` of attempt `k`. -/
def replies (k j : ℕ) : RequestResult Int32 :=
  match (course env m h₀ w₀ i k).1.pipelines[j]? with
  | none => {}
  | some p =>
    (start env ((course env m h₀ w₀ i k).2 (endpoint p)) (course env m h₀ w₀ i k).1.groupHash
      p.name i).reply.getD {}

/-- Its reply to an abort. -/
def abortReplies (k j : ℕ) : RequestResult Int32 :=
  match (course env m h₀ w₀ i k).1.pipelines[j]? with
  | none => {}
  | some p => (abort env ((course env m h₀ w₀ i k).2 (endpoint p)) p.name i).reply.getD {}

end Course

section Attempts

variable {β : Type} {env : Environment β} {m : Membership} {h₀ h : DistributedPipelineHandle}
  {w₀ : Servers β} {i : UInt64} {k : ℕ}

theorem course_servers (k : ℕ) : (course env m h₀ w₀ i (k + 1)).2 =
    m.during (k + 1) (left env m h₀ w₀ i k) := by
  unfold left
  simp only [course]
  split <;> rfl

/-- A later attempt has the whole view that the refresh has found. -/
theorem course_refreshed (env : Environment β) (h₀ : DistributedPipelineHandle)
    (w₀ : Servers β) (i : UInt64) (hd : ∀ k, Distinct (m.views k)) (k : ℕ) :
    (course env m h₀ w₀ i (k + 1)).1.name = (course env m h₀ w₀ i k).1.name ∧
    (course env m h₀ w₀ i (k + 1)).1.providerId = (course env m h₀ w₀ i k).1.providerId ∧
    (course env m h₀ w₀ i (k + 1)).1.pipelines = handles (m.views (k + 1))
      (course env m h₀ w₀ i k).1.name (course env m h₀ w₀ i k).1.providerId ∧
    (course env m h₀ w₀ i (k + 1)).1.groupHash = hashOf (m.views (k + 1)) := by
  obtain ⟨h', hr, hname, hid, -, hpipelines, hhash⟩ := refresh_result (hd (k + 1))
    (fun j => servedBy env (m.views j) (m.during (k + 1) (left env m h₀ w₀ i k)))
    (course env m h₀ w₀ i k).1 (k + 1) rfl
  have hcourse : (course env m h₀ w₀ i (k + 1)).1 = h' := by
    unfold left at hr
    simp only [course, hr]
  rw [hcourse]
  exact ⟨hname, hid, hpipelines, hhash⟩

theorem course_named (env : Environment β) (h₀ : DistributedPipelineHandle)
    (w₀ : Servers β) (i : UInt64) (hd : ∀ k, Distinct (m.views k)) (k : ℕ) :
    (course env m h₀ w₀ i k).1.name = h₀.name ∧
    (course env m h₀ w₀ i k).1.providerId = h₀.providerId := by
  induction k with
  | zero => exact ⟨rfl, rfl⟩
  | succ k ih =>
    obtain ⟨hname, hid, -⟩ := course_refreshed env h₀ w₀ i hd k
    exact ⟨hname.trans ih.1, hid.trans ih.2⟩

theorem course_pipelines (env : Environment β) (h₀ : DistributedPipelineHandle)
    (w₀ : Servers β) (i : UInt64) (hd : ∀ k, Distinct (m.views k)) (k : ℕ) :
    (course env m h₀ w₀ i (k + 1)).1.pipelines =
      handles (m.views (k + 1)) h₀.name h₀.providerId := by
  obtain ⟨-, -, hp, -⟩ := course_refreshed env h₀ w₀ i hd k
  rw [hp, (course_named env h₀ w₀ i hd k).1, (course_named env h₀ w₀ i hd k).2]

theorem course_sound (env : Environment β) (h₀ : DistributedPipelineHandle)
    (w₀ : Servers β) (i : UInt64) (hd : ∀ k, Distinct (m.views k)) (hs : Sound h₀) (k : ℕ) :
    Sound (course env m h₀ w₀ i k).1 := by
  cases k with
  | zero => exact hs
  | succ k =>
    have hp := course_pipelines env h₀ w₀ i hd k
    have hon : OnView (m.views (k + 1)) (course env m h₀ w₀ i (k + 1)).1 := by
      refine ⟨?_, ?_⟩
      · rw [hp]
        exact handles_nodup (hd (k + 1)) _ _
      · rw [hp, (course_named env h₀ w₀ i hd (k + 1)).1, (course_named env h₀ w₀ i hd (k + 1)).2]
        exact fun p hp => hp
    exact sound_of_onView hon

theorem course_length (env : Environment β) (h₀ : DistributedPipelineHandle)
    (w₀ : Servers β) (i : UInt64) (hd : ∀ k, Distinct (m.views k)) (k : ℕ) :
    (course env m h₀ w₀ i k).1.pipelines.length = serversAt m.views h₀ k := by
  cases k with
  | zero => rfl
  | succ k =>
    rw [course_pipelines env h₀ w₀ i hd]
    exact List.length_map _

/-- In the terms of `StartCollectives`. -/
theorem attempt_course (k : ℕ) :
    attempt (unsteady env m h₀ w₀ i k) (course env m h₀ w₀ i k).1 i =
      attempt (groupEnv m.views (replies env m h₀ w₀ i) (abortReplies env m h₀ w₀ i) k)
        (course env m h₀ w₀ i k).1 i := by
  apply runAttempt_congr
  · intro p hp
    have hplace := List.mem_zipIdx_iff_getElem?.mp hp
    simp only [unsteady, servedBy, groupEnv, answeredBy, replies, hplace]
  · intro p hp
    have hplace := List.mem_zipIdx_iff_getElem?.mp hp
    simp only [unsteady, servedBy, groupEnv, answeredBy, abortReplies, hplace]

/-- Attempts that begin are those of the course. -/
theorem begins_course (hb : Begins (unsteady env m h₀ w₀ i) h₀ i k h) :
    h = (course env m h₀ w₀ i k).1 := by
  induction hb with
  | first => rfl
  | @again k h h' _ _ hr ih =>
    subst ih
    have hr' : (refresh (fun j => servedBy env (m.views j)
        (m.during (k + 1) (left env m h₀ w₀ i k))) (course env m h₀ w₀ i k).1 (k + 1)).result =
        .ok h' := hr
    unfold left at hr'
    simp only [course, hr']

theorem replies_of_place {j : ℕ} {p : PipelineHandle}
    (hj : (course env m h₀ w₀ i k).1.pipelines[j]? = some p) :
    replies env m h₀ w₀ i k j = (start env ((course env m h₀ w₀ i k).2 (endpoint p))
      (course env m h₀ w₀ i k).1.groupHash p.name i).reply.getD {} := by
  simp only [replies, hj]

theorem success_iff {j : ℕ} {p : PipelineHandle}
    (hj : (course env m h₀ w₀ i k).1.pipelines[j]? = some p) :
    (replies env m h₀ w₀ i k j).success = true ↔
      StartAccepted env ((course env m h₀ w₀ i k).2 (endpoint p))
        (course env m h₀ w₀ i k).1.groupHash p.name i := by
  rw [replies_of_place hj, ← accepts_iff]
  rfl

/-- An attempt that is refused because of the hash has a server that does not accept. -/
theorem exists_refuser
    (hr : RefusesHash (replies env m h₀ w₀ i k) (course env m h₀ w₀ i k).1.pipelines.length) :
    ∃ p ∈ (course env m h₀ w₀ i k).1.pipelines,
      ¬ StartAccepted env ((course env m h₀ w₀ i k).2 (endpoint p))
        (course env m h₀ w₀ i k).1.groupHash p.name i := by
  obtain ⟨j, hj, hr⟩ := hr
  refine ⟨(course env m h₀ w₀ i k).1.pipelines[j], List.getElem_mem hj, fun hacc => ?_⟩
  have hs := (success_iff (List.getElem?_eq_getElem hj)).mpr hacc
  simp [isHashRefusal, hs] at hr

/-- Nothing is left of the attempts before, and every server that was ready still is. -/
theorem course_untouched (hd : ∀ k, Distinct (m.views k)) (hs : Sound h₀)
    (hb : RefusedBefore m.views (replies env m h₀ w₀ i) h₀ k) (v : Address × UInt16) :
    Steady (w₀ v) ((course env m h₀ w₀ i k).2 v) ∧
      ((∀ b, (env.backend.start b i).1.success = true) → i ≠ 0 →
        ReadyFor env (w₀ v) h₀.name i →
        ReadyFor env ((course env m h₀ w₀ i k).2 v) h₀.name i) := by
  induction k with
  | zero => exact ⟨⟨fun _ => rfl, rfl⟩, fun _ _ hready => hready⟩
  | succ k ih =>
    obtain ⟨hsteady, hready⟩ := ih fun j hj => hb j (Nat.lt_succ_of_lt hj)
    have hr := hb k (Nat.lt_succ_self k)
    rw [← course_length env h₀ w₀ i hd k] at hr
    obtain ⟨p, hp, hno⟩ := exists_refuser hr
    obtain ⟨hundone, hagain⟩ :=
      attempt_undone (course_sound env h₀ w₀ i hd hs k) (m.views k) hp hno v
    rw [(course_named env h₀ w₀ i hd k).1] at hagain
    rw [course_servers]
    refine ⟨hsteady.trans ⟨hundone.active, hundone.counter⟩, fun hok hi h => ?_⟩
    exact hagain hok hi (hready hok hi h)

end Attempts

/-! ## The call -/

/-- The servers of attempt `k`. -/
def listed (m : Membership) (h₀ : DistributedPipelineHandle) : ℕ → List PipelineHandle
  | 0 => h₀.pipelines
  | k + 1 => handles (m.views (k + 1)) h₀.name h₀.providerId

/-- The servers of every attempt up to attempt `K` are ready, and when attempt `K` begins those
of the view that the refresh has found hold its hash. -/
structure Agreeing {β : Type} (env : Environment β) (m : Membership)
    (h₀ : DistributedPipelineHandle) (w₀ : Servers β) (i : UInt64) (K : ℕ) : Prop where
  distinct : ∀ k, Distinct (m.views k)
  sound : Sound h₀
  iteration : i ≠ 0
  succeeds : ∀ b, (env.backend.start b i).1.success = true
  ready : ∀ k ≤ K, ∀ p ∈ listed m h₀ k, ReadyFor env (w₀ (endpoint p)) h₀.name i
  refreshed : K ≠ 0
  agreed : ∀ p ∈ listed m h₀ K, m.hashes K (endpoint p) = hashOf (m.views K)

section Call

variable {β : Type} {env : Environment β} {m : Membership} {h₀ h : DistributedPipelineHandle}
  {w₀ : Servers β} {i : UInt64} {k K : ℕ}

theorem listed_course (env : Environment β) (h₀ : DistributedPipelineHandle)
    (w₀ : Servers β) (i : UInt64) (hd : ∀ k, Distinct (m.views k)) (k : ℕ) :
    (course env m h₀ w₀ i k).1.pipelines = listed m h₀ k := by
  cases k with
  | zero => rfl
  | succ k => exact course_pipelines env h₀ w₀ i hd k

theorem Agreeing.ready_at (ha : Agreeing env m h₀ w₀ i K) (hk : k ≤ K)
    (hb : RefusedBefore m.views (replies env m h₀ w₀ i) h₀ k) {p : PipelineHandle}
    (hp : p ∈ (course env m h₀ w₀ i k).1.pipelines) :
    ReadyFor env ((course env m h₀ w₀ i k).2 (endpoint p)) p.name i := by
  rw [(course_sound env h₀ w₀ i ha.distinct ha.sound k).names p hp,
    (course_named env h₀ w₀ i ha.distinct k).1]
  have hready := ha.ready k hk p (listed_course env h₀ w₀ i ha.distinct k ▸ hp)
  exact (course_untouched ha.distinct ha.sound hb _).2 ha.succeeds ha.iteration hready

/-- A server of an attempt accepts where it holds the hash of the handle. -/
theorem Agreeing.accepts_iff (ha : Agreeing env m h₀ w₀ i K) (hk : k ≤ K)
    (hb : RefusedBefore m.views (replies env m h₀ w₀ i) h₀ k) {p : PipelineHandle}
    (hp : p ∈ (course env m h₀ w₀ i k).1.pipelines) :
    StartAccepted env ((course env m h₀ w₀ i k).2 (endpoint p))
        (course env m h₀ w₀ i k).1.groupHash p.name i ↔
      (course env m h₀ w₀ i k).1.groupHash =
        ((course env m h₀ w₀ i k).2 (endpoint p)).groupHash :=
  ⟨fun h => h.1, fun h => ⟨h, ha.ready_at hk hb hp⟩⟩

/-- So it is refused because of the hash, or all servers accept. -/
theorem Agreeing.allAccept (ha : Agreeing env m h₀ w₀ i K) (hk : k ≤ K)
    (hb : RefusedBefore m.views (replies env m h₀ w₀ i) h₀ k)
    (hr : ¬ RefusesHash (replies env m h₀ w₀ i k) (serversAt m.views h₀ k)) :
    AllAccept (replies env m h₀ w₀ i k) (serversAt m.views h₀ k) := by
  rw [← course_length env h₀ w₀ i ha.distinct k] at hr ⊢
  intro j hj
  have hplace := List.getElem?_eq_getElem hj
  rw [success_iff hplace, ha.accepts_iff hk hb (List.getElem_mem hj)]
  by_contra hhash
  refine hr ⟨j, hj, ?_⟩
  rw [replies_of_place hplace, start, if_pos hhash]
  rfl

/-- Attempt `K` is not refused. -/
theorem Agreeing.not_refused (ha : Agreeing env m h₀ w₀ i K)
    (hb : RefusedBefore m.views (replies env m h₀ w₀ i) h₀ K) :
    ¬ RefusesHash (replies env m h₀ w₀ i K) (serversAt m.views h₀ K) := by
  intro hr
  rw [← course_length env h₀ w₀ i ha.distinct K] at hr
  obtain ⟨p, hp, hno⟩ := exists_refuser hr
  refine hno ((ha.accepts_iff (Nat.le_refl K) hb hp).mpr ?_)
  have hagreed := ha.agreed p (listed_course env h₀ w₀ i ha.distinct K ▸ hp)
  obtain ⟨k, rfl⟩ := Nat.exists_eq_succ_of_ne_zero ha.refreshed
  obtain ⟨-, -, -, hhash⟩ := course_refreshed env h₀ w₀ i ha.distinct k
  rw [hhash, course_servers]
  exact hagreed.symm

theorem Agreeing.le_of_refusedBefore (ha : Agreeing env m h₀ w₀ i K)
    (hb : RefusedBefore m.views (replies env m h₀ w₀ i) h₀ k) : k ≤ K := by
  by_contra hlt
  have hlt := Nat.lt_of_not_le hlt
  exact ha.not_refused (fun j hj => hb j (hj.trans hlt)) (hb K hlt)

theorem Agreeing.refusedOnlyByHash (ha : Agreeing env m h₀ w₀ i K) :
    RefusedOnlyByHash m.views (replies env m h₀ w₀ i) h₀ :=
  fun _ hb hr => ha.allAccept (ha.le_of_refusedBefore hb) hb hr

/-- Attempts that begin come after refused ones only. -/
theorem begins_refusedBefore (hd : ∀ k, Distinct (m.views k))
    (hb : Begins (unsteady env m h₀ w₀ i) h₀ i k h) :
    RefusedBefore m.views (replies env m h₀ w₀ i) h₀ k := by
  induction hb with
  | first => exact fun j hj => (Nat.not_lt_zero j hj).elim
  | @again k h h' hb hexit _ ih =>
    have hr : RefusesHash (replies env m h₀ w₀ i k)
        (course env m h₀ w₀ i k).1.pipelines.length := by
      rw [begins_course hb, attempt_course] at hexit
      exact (exit_retry_iff _ k).mp hexit
    rw [course_length env h₀ w₀ i hd k] at hr
    exact refusedBefore_succ ih hr

/-- The call returns after attempt `k`. -/
theorem Agreeing.returned (ha : Agreeing env m h₀ w₀ i K)
    (hb : Begins (unsteady env m h₀ w₀ i) h₀ i k h)
    (hexit : (attempt (unsteady env m h₀ w₀ i k) h i).exit = .returned) :
    (∀ p ∈ h.pipelines, Opened (w₀ (endpoint p)) (left env m h₀ w₀ i k (endpoint p)) h₀.name i) ∧
      ∀ v, v ∉ h.pipelines.map endpoint → Steady (w₀ v) (left env m h₀ w₀ i k v) := by
  have hbefore := begins_refusedBefore ha.distinct hb
  have hk := ha.le_of_refusedBefore hbefore
  have hsteady v := (course_untouched ha.distinct ha.sound hbefore v).1
  obtain rfl := begins_course hb
  rw [attempt_course] at hexit
  have hr := (exit_returned_iff _ k).mp hexit
  rw [course_length env h₀ w₀ i ha.distinct k] at hr
  have hall := ha.allAccept hk hbefore hr
  rw [← course_length env h₀ w₀ i ha.distinct k] at hall
  have haccepted : ∀ p ∈ (course env m h₀ w₀ i k).1.pipelines,
      StartAccepted env ((course env m h₀ w₀ i k).2 (endpoint p))
        (course env m h₀ w₀ i k).1.groupHash p.name i := by
    intro p hp
    obtain ⟨j, hj, rfl⟩ := List.mem_iff_getElem.mp hp
    exact (success_iff (List.getElem?_eq_getElem hj)).mp (hall j hj)
  obtain ⟨-, hopened, hothers⟩ := attempt_opens
    (course_sound env h₀ w₀ i ha.distinct ha.sound k) (m.views k) haccepted
  rw [(course_named env h₀ w₀ i ha.distinct k).1] at hopened
  refine ⟨fun p hp => (hsteady _).opened (hopened p hp), fun v hv => ?_⟩
  unfold left
  rw [hothers v hv]
  exact hsteady v

/-- No attempt and no refresh ends with an exception. -/
theorem call_throws_not (hd : ∀ k, Distinct (m.views k)) :
    ¬ Throws (unsteady env m h₀ w₀ i) h₀ i := by
  rintro ⟨k, h, e, hb, hexit | ⟨-, hr⟩⟩
  · rw [begins_course hb, attempt_course] at hexit
    exact exit_ne_threw _ k e hexit
  · obtain ⟨h', hr', -⟩ := refresh_result (hd (k + 1)) (unsteady env m h₀ w₀ i) h (k + 1) rfl
    rw [hr'] at hr
    cases hr

end Call

/-! ## The collectives of all ranks -/

section Ranks

variable {views : ℕ → View} {replies : ℕ → ℕ → RequestResult Int32}
  {h₀ : DistributedPipelineHandle}

theorem next_left {env : ℕ → AttemptEnv} {i : UInt64} {r : RootAt} (h : rootCall r = none) :
    rootNext env i r = r := by
  cases r with
  | returned => rfl
  | threw => rfl
  | _ => cases h

/-- Rank 0 has left the call, or it has gone through `3 * k + 1` collectives when it broadcasts
the `ok` of attempt `k`. -/
theorem left_or_due (aborts : ℕ → ℕ → RequestResult Int32) (i : UInt64)
    (hc : RefusedOnlyByHash views replies h₀) (k : ℕ) :
    let R := root (groupEnv views replies aborts) i
    R.call (R.next^[3 * k + 1] (.entering h₀)) = none ∨
      ∃ h, Due views replies h₀ k h ∧ R.next^[3 * k + 1] (.entering h₀) =
        beginAttempt (groupEnv views replies aborts) i k h := by
  intro R
  induction k with
  | zero => exact Or.inr ⟨h₀, ⟨fun j hj => (Nat.not_lt_zero j hj).elim, rfl⟩, rfl⟩
  | succ k ih =>
    have hiterate : R.next^[3 * (k + 1) + 1] (.entering h₀) =
        R.next (R.next (R.next (R.next^[3 * k + 1] (.entering h₀)))) := by
      have hcount : 3 * (k + 1) + 1 = 3 * k + 1 + 1 + 1 + 1 := by omega
      rw [hcount, Function.iterate_succ_apply', Function.iterate_succ_apply',
        Function.iterate_succ_apply']
    rw [hiterate]
    rcases ih with hleft | ⟨h, hdue, hbegin⟩
    · refine Or.inl ?_
      have hnext : R.next (R.next^[3 * k + 1] (.entering h₀)) = R.next^[3 * k + 1] (.entering h₀) :=
        next_left hleft
      rw [hnext, hnext, hnext]
      exact hleft
    rw [hbegin]
    by_cases hr : RefusesHash (replies k) h.pipelines.length
    · -- the flag, the size and the addresses
      obtain ⟨packed, h', he, -, hsize⟩ := refresh_groupEnv views replies aborts h (k + 1)
      have hrefresh : R.next (.deciding k h false .retry) =
          .refreshing (k + 1) (.groupSize (views (k + 1)).length) [.addresses packed] (.ok h') := by
        change continueRefresh _ i (k + 1) (refresh _ h (k + 1)) = _
        rw [he]
        rfl
      rw [beginAttempt_refused h hr, hrefresh]
      rw [hdue.size] at hr
      exact Or.inr ⟨h', ⟨refusedBefore_succ hdue.before hr, hsize⟩, rfl⟩
    · rw [hdue.size] at hr
      have ha := hc k hdue.before hr
      rw [← hdue.size] at ha
      rw [beginAttempt_accepted h ha]
      exact Or.inl rfl

/-- Where no attempt after attempt `K` begins, rank 0 leaves after `3 * K + 2` collectives. -/
theorem left_after (aborts : ℕ → ℕ → RequestResult Int32) (i : UInt64)
    (hc : RefusedOnlyByHash views replies h₀) {K : ℕ}
    (hK : RefusedBefore views replies h₀ K → ¬ RefusesHash (replies K) (serversAt views h₀ K)) :
    (root (groupEnv views replies aborts) i).call
      ((root (groupEnv views replies aborts) i).next^[3 * K + 2] (.entering h₀)) = none := by
  rw [Function.iterate_succ_apply']
  rcases left_or_due aborts i hc K with hleft | ⟨h, hdue, hbegin⟩
  · change rootCall (rootNext _ i _) = none
    rw [next_left hleft]
    exact hleft
  · have ha := hc K hdue.before (hK hdue.before)
    rw [← hdue.size] at ha
    rw [hbegin, beginAttempt_accepted h ha]
    rfl

end Ranks

/-- For any number of other ranks, whatever views the refreshes find and whatever hashes the
servers hold, once they agree: every run ends, all ranks leave the call after the same attempt,
and of all servers exactly those of its handle have opened the iteration. Before each attempt
none had. -/
theorem start_settles_when_the_group_agrees {β : Type} {env : Environment β} {m : Membership}
    {h₀ : DistributedPipelineHandle} {w₀ : Servers β} {i : UInt64} {K : ℕ}
    (ha : Agreeing env m h₀ w₀ i K) {n : ℕ} (hs : Fin n → DistributedPipelineHandle) :
    (∀ k h, Begins (unsteady env m h₀ w₀ i) h₀ i k h →
      k ≤ K ∧ ∀ v, Steady (w₀ v) ((course env m h₀ w₀ i k).2 v)) ∧
    ∀ p, Run (Step (root (unsteady env m h₀ w₀ i) i) (leaf fun k => .ofView (m.views k)))
        (initial (.entering h₀) fun j => .entering (hs j)) p →
      p.length ≤ (3 * K + 2) * (n + 1) ∧
      (Stuck (root (unsteady env m h₀ w₀ i) i) (leaf fun k => .ofView (m.views k))
          (final (initial (.entering h₀) fun j : Fin n => .entering (hs j)) p) →
        ∃ k ≤ K, ∃ h,
          (final (initial (.entering h₀) fun j => .entering (hs j)) p).root = .returned k h ∧
          (∀ j, ∃ h', (final (initial (.entering h₀) fun j => .entering (hs j)) p).leaf j =
            .returned k h') ∧
          (∀ q ∈ h.pipelines,
            Opened (w₀ (endpoint q)) (left env m h₀ w₀ i k (endpoint q)) h₀.name i) ∧
          ∀ v, v ∉ h.pipelines.map endpoint → Steady (w₀ v) (left env m h₀ w₀ i k v)) := by
  refine ⟨fun k h hb => ?_, fun p hp => ?_⟩
  · have hbefore := begins_refusedBefore ha.distinct hb
    exact ⟨ha.le_of_refusedBefore hbefore,
      fun v => (course_untouched ha.distinct ha.sound hbefore v).1⟩
  · have hc := ha.refusedOnlyByHash
    have hl := lockstep (abortReplies env m h₀ w₀ i) i hc
    have hstart : ∀ j,
        Sim m.views (replies env m h₀ w₀ i) h₀ (.entering h₀) (.entering (hs j)) :=
      fun j => .entering ⟨fun k hk => (Nat.not_lt_zero k hk).elim, rfl⟩
    have hsame : ∀ k h, Begins (unsteady env m h₀ w₀ i) h₀ i k h →
        attempt (unsteady env m h₀ w₀ i k) h i = attempt
          (groupEnv m.views (replies env m h₀ w₀ i) (abortReplies env m h₀ w₀ i) k) h i := by
      intro k h hb
      rw [begins_course hb]
      exact attempt_course k
    have hp' := run_congr hsame (fun _ => rfl) .entering hp
    refine ⟨run_length_le hl.tracks hstart hp' (left_after _ i hc ha.not_refused), fun hstuck => ?_⟩
    have hsync := synchronized_reachable hl.tracks hstart hp'.reaches
    have hcall := inCall_reachable hp.reaches
    generalize final (initial (.entering h₀) fun j => .entering (hs j)) p = s
      at hstuck hsync hcall
    have hstuck' : Stuck (root (groupEnv m.views (replies env m h₀ w₀ i)
        (abortReplies env m h₀ w₀ i)) i) (leaf fun k => .ofView (m.views k)) s := by
      apply Stuck.congr _ hstuck
      rfl
    obtain ⟨hroot, hleaves⟩ := hsync.left_of_stuck hl hstuck'
    generalize hr : s.root = r at hroot hleaves hcall
    cases hcall with
    | @returned k h hb hexit =>
      obtain ⟨hopened, hothers⟩ := ha.returned hb hexit
      refine ⟨k, ha.le_of_refusedBefore (begins_refusedBefore ha.distinct hb), h, rfl,
        fun j => ?_, hopened, hothers⟩
      have hsim := (hleaves j).2
      generalize s.leaf j = l at hsim
      cases hsim with
      | @returned _ _ h' => exact ⟨h', rfl⟩
    | threw ht => exact (call_throws_not ha.distinct ht).elim
    | _ => cases hroot

/-- The second of two servers learns of the first one late. -/
def formingGroup : Membership where
  views _ := twoMembers
  hashes k v := if k = 0 then (if v.1 = [97] then 3 else 4) else hashOf twoMembers

theorem formingGroup_agrees : Agreeing ProviderRuns.acceptingEnvironment formingGroup twoServers
    (fun _ => readyProvider) 1 1 where
  distinct _ :=
    ⟨show (twoMembers.map Prod.fst).Nodup by decide, show (twoMembers.map Prod.snd).Nodup by decide⟩
  sound := by
    refine ⟨by decide, fun p hp => ?_⟩
    rcases List.mem_cons.mp hp with rfl | hp
    · rfl
    · obtain rfl := List.mem_singleton.mp hp
      rfl
  iteration := by decide
  succeeds _ := rfl
  ready _ _ _ _ := ⟨_, Finmap.lookup_insert _, rfl, Or.inl rfl, rfl⟩
  refreshed := Nat.one_ne_zero
  agreed _ _ := rfl

abbrev formingAttempts : ℕ → AttemptEnv :=
  unsteady ProviderRuns.acceptingEnvironment formingGroup twoServers (fun _ => readyProvider) 1

abbrev formingLeaf : Leaf LeafAt Payload := leaf fun k => .ofView (formingGroup.views k)

def formingRanks : State 1 RootAt LeafAt Payload :=
  initial (.entering twoServers) fun _ => .entering twoServers

theorem forming_ranks_return :
    ∃ p h, Run (Step (root formingAttempts 1) formingLeaf) formingRanks p ∧
      Stuck (root formingAttempts 1) formingLeaf (final formingRanks p) ∧
      (final formingRanks p).root = .returned 1 h ∧ h.pipelines = twoServers.pipelines := by
  let R := root formingAttempts 1
  let L := formingLeaf
  have htwo : twoServers.pipelines.length = 2 := rfl
  let packed := packAll (List.replicate (2 * slotSize) 0) 0 twoServers.pipelines
  have hpacked : some (Call.bcast (2 * slotSize)) = some (Call.bcast packed.length) :=
    congrArg (fun bytes => some (Call.bcast bytes)) (packed_length htwo).symm
  let s₁ := formingRanks.together R L (.barrier, none)
  let s₂ := s₁.together R L (.bcast 1, some (.ok false))
  let s₃ := s₂.together R L (.bcast 4, some (.groupSize 2))
  let s₄ := s₃.together R L (.bcast packed.length, some (.addresses packed))
  let s₅ := s₄.together R L (.bcast 1, some (.ok true))
  have h₁ : Reaches (Step R L) formingRanks s₁ := reaches_together rfl fun _ => ⟨rfl, rfl⟩
  have h₂ : Reaches (Step R L) s₁ s₂ := reaches_together rfl fun _ => ⟨rfl, rfl⟩
  have h₃ : Reaches (Step R L) s₂ s₃ := reaches_together rfl fun _ => ⟨rfl, rfl⟩
  have h₄ : Reaches (Step R L) s₃ s₄ := reaches_together rfl fun _ => ⟨hpacked, rfl⟩
  have h₅ : Reaches (Step R L) s₄ s₅ := reaches_together rfl fun _ => ⟨rfl, rfl⟩
  have hend : Reaches (Step R L) formingRanks s₅ := (((h₁.trans h₂).trans h₃).trans h₄).trans h₅
  obtain ⟨p, hp, hfinal⟩ := Reaches.run hend
  have hall : AllAt s₅ s₅.root fun _ => True := ⟨rfl, fun _ => ⟨trivial, rfl⟩⟩
  have hroot : s₅.root = .returned 1 _ := rfl
  rw [← hfinal] at hall hroot
  exact ⟨p, _, hp, hall.stuck (by rw [hroot]; rfl), hroot, rfl⟩

/-- The first one accepts in the first attempt, and is sent an abort; in the second attempt both
accept and all ranks return. -/
theorem start_settles_after_an_abort :
    (attempt (formingAttempts 0) twoServers 1).aborted.map (fun q => q.1.address) = [[97]] ∧
    (∀ k h, Begins formingAttempts twoServers 1 k h → k ≤ 1) ∧
    ∃ p h, Run (Step (root formingAttempts 1) formingLeaf) formingRanks p ∧ p.length ≤ 10 ∧
      (final formingRanks p).root = .returned 1 h ∧
      (∀ j, ∃ h', (final formingRanks p).leaf j = .returned 1 h') ∧
      h.pipelines = twoServers.pipelines ∧
      ∀ q ∈ h.pipelines, Opened readyProvider (left ProviderRuns.acceptingEnvironment formingGroup
        twoServers (fun _ => readyProvider) 1 1 (endpoint q)) "p" 1 := by
  obtain ⟨hbegins, hruns⟩ := start_settles_when_the_group_agrees formingGroup_agrees
    (fun _ : Fin 1 => twoServers)
  refine ⟨by decide, fun k h hb => (hbegins k h hb).1, ?_⟩
  obtain ⟨p, h, hp, hstuck, hroot, hpipelines⟩ := forming_ranks_return
  obtain ⟨hlength, hend⟩ := hruns p hp
  obtain ⟨k, -, h', hroot', hleaves, hopened, -⟩ := hend hstuck
  obtain ⟨rfl, rfl⟩ : 1 = k ∧ h = h' := by
    have hboth := hroot.symm.trans hroot'
    injection hboth with hk hh
    exact ⟨hk, hh⟩
  exact ⟨p, h, hp, hlength, hroot, hleaves, hpipelines, hopened⟩

end UnsteadyStart
