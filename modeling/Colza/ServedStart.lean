import Colza.GroupHash
import Colza.OpenIterations
import Colza.ProviderRuns
import Colza.StartCollectives

/-!
# DistributedPipelineHandle::start on servers that keep one view

The RPCs of rank 0 are answered by the handlers of the providers, whose states change from
one attempt to the next. Every provider of the group holds the same view during the call,
and a refresh finds that view.
-/
namespace ServedStart

open GuardedRuns Interfaces OpenIterations ClientHandles CollectiveNetwork DistributedStart
open StartCollectives

/-! ## Updates of distinct keys -/

section Updates

variable {α κ γ : Type} [DecidableEq κ] (key : α → κ) (f : α → γ → γ)

/-- Each element of the list updates the value of its key. -/
def updateAll : List α → (κ → γ) → κ → γ
  | [], w => w
  | x :: l, w => updateAll l (Function.update w (key x) (f x (w (key x))))

variable {key f} {l : List α} {w : κ → γ}

theorem updateAll_of_notMem {a : κ} (h : a ∉ l.map key) : updateAll key f l w a = w a := by
  induction l generalizing w with
  | nil => rfl
  | cons x l ih =>
    rw [List.map_cons, List.mem_cons, not_or] at h
    rw [updateAll, ih h.2, Function.update_of_ne h.1]

theorem updateAll_of_mem (hl : (l.map key).Nodup) {x : α} (hx : x ∈ l) :
    updateAll key f l w (key x) = f x (w (key x)) := by
  induction l generalizing w with
  | nil => cases hx
  | cons y l ih =>
    obtain ⟨hy, hl⟩ := List.nodup_cons.mp hl
    rw [updateAll]
    rcases List.mem_cons.mp hx with rfl | hx
    · rw [updateAll_of_notMem hy, Function.update_self]
    · have hne : key x ≠ key y := fun he => hy (he ▸ List.mem_map_of_mem hx)
      rw [ih hl hx, Function.update_of_ne hne]

theorem updateAll_eq_self (h : ∀ x ∈ l, f x (w (key x)) = w (key x)) :
    updateAll key f l w = w := by
  induction l with
  | nil => rfl
  | cons x l ih =>
    rw [updateAll, h x (List.mem_cons_self ..), Function.update_eq_self]
    exact ih fun y hy => h y (List.mem_cons_of_mem _ hy)

end Updates

/-! ## The servers -/

/-- The providers by address and provider id. -/
abbrev Servers (β : Type) := Address × UInt16 → ProviderHandlers.Provider β

def endpoint (p : PipelineHandle) : Address × UInt16 := (p.address, p.providerId)

section Course

variable {β : Type} (env : ProviderHandlers.Environment β) (view : View)

/-- What rank 0 meets in an attempt on servers in these states. The servers of a list differ,
so that each start finds its server as the attempt found it. -/
def servedBy (w : Servers β) : AttemptEnv where
  client := .ofView view
  start groupHash p iteration := .reply
    ((ProviderHandlers.start env (w (endpoint p.1)) groupHash p.1.name iteration).reply.getD {})
  abort p iteration := .reply
    ((ProviderHandlers.abort env (w (endpoint p.1)) p.1.name iteration).reply.getD {})

/-- The servers after an attempt: those that were sent a start, and then an abort. -/
def afterAttempt (w : Servers β) (h : DistributedPipelineHandle) (iteration : UInt64) :
    Servers β :=
  let a := attempt (servedBy env view w) h iteration
  let started := updateAll (fun p => endpoint p.1)
    (fun p s => (ProviderHandlers.start env s h.groupHash p.1.name iteration).provider) a.sent w
  updateAll (fun p => endpoint p.1)
    (fun p s => (ProviderHandlers.abort env s p.1.name iteration).provider) a.aborted started

variable (h₀ : DistributedPipelineHandle) (w₀ : Servers β) (iteration : UInt64)

/-- The handle and the servers before attempt `k`, if it begins. -/
def course : ℕ → DistributedPipelineHandle × Servers β
  | 0 => (h₀, w₀)
  | k + 1 =>
    let (h, w) := course k
    let h' := match (refresh (fun _ => servedBy env view w) h (k + 1)).result with
      | .ok h' => h'
      | .error _ => h
    (h', afterAttempt env view w h iteration)

/-- What rank 0 meets in the call. -/
def served (k : ℕ) : AttemptEnv := servedBy env view (course env view h₀ w₀ iteration k).2

end Course

/-! ## A group that keeps its view -/

/-- The members of a view have their own ids and addresses. -/
structure Distinct (view : View) : Prop where
  ids : (view.map Prod.fst).Nodup
  addresses : (view.map Prod.snd).Nodup

/-- The pipelines of a handle on the whole view. -/
def handles (view : View) (name : String) (providerId : UInt16) : List PipelineHandle :=
  view.map fun m => ⟨name, m.2, providerId⟩

/-- The hash that every provider of the group and every refreshed handle holds. -/
def hashOf (view : View) : UInt64 := GroupHash.viewHash (view.map Prod.fst).toFinset

/-- Every member of the view holds it, and its pipeline is ready. -/
def GroupReady {β : Type} (env : ProviderHandlers.Environment β) (view : View) (w : Servers β)
    (name : String) (providerId : UInt16) (i : UInt64) : Prop :=
  ∀ p ∈ handles view name providerId, (w (endpoint p)).groupHash = hashOf view ∧
    ReadyFor env (w (endpoint p)) name i

section Refresh

variable {view : View} (hd : Distinct view) (providerId : UInt16) (name : String)

include hd

theorem resolveMember_ofView {i : ℕ} (hi : i < view.length) :
    resolveMember (.ofView view) 0 providerId name false i =
      .ok ⟨name, view[i].2, providerId⟩ := by
  have hid : (ClientEnv.ofView view).memberIdFromRank 0 i = .ok view[i].1 := by
    simp [ClientEnv.ofView, hi]
  have haddr : (ClientEnv.ofView view).memberAddr 0 view[i].1 = .ok view[i].2 := by
    have hfind : view.find? (fun m => m.1 = view[i].1) = some view[i] := by
      cases hf : view.find? (fun m => decide (m.1 = view[i].1)) with
      | none =>
        rw [List.find?_eq_none] at hf
        exact (hf view[i] (List.getElem_mem hi) (by simp)).elim
      | some m =>
        have hm : m.1 = view[i].1 := by simpa using List.find?_some hf
        rw [List.inj_on_of_nodup_map hd.ids (List.mem_of_find?_eq_some hf) (List.getElem_mem hi) hm]
    simp [ClientEnv.ofView, hfind]
  simp only [resolveMember, hid, haddr, makePipelineHandle_ofView]

theorem resolveMembers_ofView (i n : ℕ) (h : i + n = view.length) :
    resolveMembers (.ofView view) 0 providerId name false (List.range' i n) =
      .ok (handles (view.drop i) name providerId) := by
  induction n generalizing i with
  | zero =>
    have hi : view.length ≤ i := by omega
    rw [List.drop_eq_nil_of_le hi]
    rfl
  | succ n ih =>
    have hi : i < view.length := by omega
    rw [List.range'_succ, resolveMembers, resolveMember_ofView hd providerId name hi,
      ih (i + 1) (by omega), List.drop_eq_getElem_cons hi]
    rfl

/-- A refresh gives a handle on the whole view with its hash. -/
theorem refresh_result (env : ℕ → AttemptEnv) (h : DistributedPipelineHandle) (k : ℕ)
    (henv : (env k).client = .ofView view) :
    ∃ h', (refresh env h k).result = .ok h' ∧ h'.name = h.name ∧ h'.providerId = h.providerId ∧
      h'.ssgGroupFile = h.ssgGroupFile ∧ h'.pipelines = handles view h.name h.providerId ∧
      h'.groupHash = hashOf view := by
  have hload : (ClientEnv.ofView view).groupIdLoad h.ssgGroupFile = some 0 := rfl
  have hsize : (ClientEnv.ofView view).groupSize 0 = some view.length := rfl
  unfold refresh
  rw [henv, makeOnMaster_eq hload rfl hsize,
    resolveMembers_ofView hd h.providerId h.name 0 view.length (Nat.zero_add _)]
  refine ⟨_, rfl, rfl, rfl, rfl, rfl, ?_⟩
  exact GroupHash.computeGroupHash_of_lists ⟨hd.ids, rfl⟩

/-- The members are distinct endpoints. -/
theorem handles_nodup : (handles view name providerId).Nodup := by
  have haddresses := hd.addresses
  unfold handles
  rw [List.nodup_map_iff_inj_on (List.Nodup.of_map _ haddresses)]
  intro m hm m' hm' he
  have ha : m.2 = m'.2 := congrArg PipelineHandle.address he
  exact List.inj_on_of_nodup_map haddresses hm hm' ha

end Refresh

theorem endpoint_injOn {view : View} {name : String} {providerId : UInt16} {p p' : PipelineHandle}
    (hp : p ∈ handles view name providerId) (hp' : p' ∈ handles view name providerId)
    (he : endpoint p = endpoint p') : p = p' := by
  obtain ⟨m, -, rfl⟩ := List.mem_map.mp hp
  obtain ⟨m', -, rfl⟩ := List.mem_map.mp hp'
  have ha : m.2 = m'.2 := congrArg Prod.fst he
  rw [ha]

/-! ## One attempt -/

/-- The servers of a handle are members of the view, each once. -/
structure OnView (view : View) (h : DistributedPipelineHandle) : Prop where
  nodup : h.pipelines.Nodup
  members : ∀ p ∈ h.pipelines, p ∈ handles view h.name h.providerId

section Attempt

variable {β : Type} {env : ProviderHandlers.Environment β} {view : View} {w : Servers β}
  {h : DistributedPipelineHandle} {i : UInt64}

theorem name_of_mem_handles {p : PipelineHandle} {name : String} {providerId : UInt16}
    (hp : p ∈ handles view name providerId) : p.name = name := by
  obtain ⟨m, -, rfl⟩ := List.mem_map.mp hp
  rfl

theorem mem_pipelines {p : PipelineHandle × ℕ} (hp : p ∈ servers h) : p.1 ∈ h.pipelines :=
  List.fst_mem_of_mem_zipIdx hp

theorem servers_endpoints (h : DistributedPipelineHandle) :
    (servers h).map (fun p => endpoint p.1) = h.pipelines.map endpoint := by
  have hfst : (servers h).map Prod.fst = h.pipelines := List.zipIdx_map_fst ..
  rw [← congrArg (List.map endpoint) hfst, List.map_map]
  rfl

theorem OnView.endpoints_nodup (hon : OnView view h) : (h.pipelines.map endpoint).Nodup := by
  rw [List.nodup_map_iff_inj_on hon.nodup]
  intro p hp p' hp' he
  exact endpoint_injOn (hon.members p hp) (hon.members p' hp') he

theorem GroupReady.start_accepted {name : String} {providerId : UInt16} {p : PipelineHandle}
    (hready : GroupReady env view w name providerId i) (hp : p ∈ handles view name providerId) :
    ProviderHandlers.StartAccepted env (w (endpoint p)) (hashOf view) p.name i := by
  obtain ⟨hhash, hstart⟩ := hready p hp
  rw [name_of_mem_handles hp]
  exact ⟨hhash.symm, hstart⟩

/-- Where the handle has the hash of the view, all servers accept and are active. -/
theorem attempt_accepted (hon : OnView view h)
    (hready : GroupReady env view w h.name h.providerId i)
    (hhash : h.pipelines ≠ [] → h.groupHash = hashOf view) :
    attempt (servedBy env view w) h i = .decided (servers h) true [] .returned ∧
      ∀ p ∈ h.pipelines, ActiveAt (afterAttempt env view w h i (endpoint p)) p.name i := by
  have hstart : ∀ p ∈ h.pipelines,
      ProviderHandlers.StartAccepted env (w (endpoint p)) h.groupHash p.name i := by
    intro p hp
    rw [hhash (List.ne_nil_of_mem hp)]
    exact hready.start_accepted (hon.members p hp)
  have ha : attempt (servedBy env view w) h i = .decided (servers h) true [] .returned := by
    apply runAttempt_accepted
    intro p hp
    obtain ⟨st, r, b, -, -, -, hr, he⟩ := ProviderHandlers.start_accepted
      (hstart p.1 (mem_pipelines hp))
    simp only [servedBy, he, Option.getD_some, accepted, hr]
  refine ⟨ha, fun p hp => ?_⟩
  have hplace : ∃ j, (p, j) ∈ servers h := by
    have hmem : p ∈ (servers h).map Prod.fst := by
      rw [servers, List.zipIdx_map_fst]
      exact hp
    obtain ⟨⟨p, j⟩, hj, rfl⟩ := List.mem_map.mp hmem
    exact ⟨j, hj⟩
  obtain ⟨j, hj⟩ := hplace
  have hnodup : ((servers h).map fun p => endpoint p.1).Nodup := by
    rw [servers_endpoints]
    exact hon.endpoints_nodup
  have hafter : afterAttempt env view w h i (endpoint p) =
      (ProviderHandlers.start env (w (endpoint p)) h.groupHash p.name i).provider := by
    unfold afterAttempt
    rw [ha]
    exact updateAll_of_mem hnodup hj
  rw [hafter]
  exact (activeAt_start (hstart p hp)).2

/-- Where it has another hash, all servers refuse and stay as they are. -/
theorem attempt_refused (hne : h.pipelines ≠ []) (hon : OnView view h)
    (hready : GroupReady env view w h.name h.providerId i) (hhash : h.groupHash ≠ hashOf view) :
    attempt (servedBy env view w) h i = .decided (servers h) false [] .retry ∧
      afterAttempt env view w h i = w := by
  have hrefused : ∀ p ∈ h.pipelines,
      ProviderHandlers.start env (w (endpoint p)) h.groupHash p.name i =
        ProviderHandlers.respond (w (endpoint p))
          (.failure .invalidGroupHash "Inconsistent group view") := by
    intro p hp
    have hother : h.groupHash ≠ (w (endpoint p)).groupHash := by
      rw [(hready p (hon.members p hp)).1]
      exact hhash
    simp [ProviderHandlers.start, hother]
  have ha : attempt (servedBy env view w) h i = .decided (servers h) false [] .retry := by
    apply runAttempt_hashRefused
    · intro hnil
      exact hne (List.zipIdx_eq_nil_iff.mp hnil)
    · intro p hp
      simp only [servedBy, hrefused p.1 (mem_pipelines hp)]
      rfl
  refine ⟨ha, ?_⟩
  unfold afterAttempt
  rw [ha]
  change updateAll _ _ (servers h) w = w
  apply updateAll_eq_self
  intro p hp
  rw [hrefused p.1 (mem_pipelines hp)]
  rfl

end Attempt

/-! ## The call -/

section Call

variable {β : Type} {env : ProviderHandlers.Environment β} {view : View} {w₀ : Servers β}
  {h₀ : DistributedPipelineHandle} {i : UInt64}

/-- Attempt `k` is the last one: all servers accept, and are active after it. -/
structure LastAttempt (env : ProviderHandlers.Environment β) (view : View)
    (h₀ : DistributedPipelineHandle) (w₀ : Servers β) (i : UInt64) (k : ℕ) : Prop where
  accepted : attempt (served env view h₀ w₀ i k) (course env view h₀ w₀ i k).1 i =
    .decided (servers (course env view h₀ w₀ i k).1) true [] .returned
  active : ∀ p ∈ (course env view h₀ w₀ i k).1.pipelines,
    ActiveAt ((course env view h₀ w₀ i (k + 1)).2 (endpoint p)) p.name i

theorem course_servers (k : ℕ) : (course env view h₀ w₀ i (k + 1)).2 =
    afterAttempt env view (course env view h₀ w₀ i k).2 (course env view h₀ w₀ i k).1 i := rfl

/-- The first attempt is the last one, or it is refused by all servers and the second one
is the last. -/
theorem call_settles (hd : Distinct view) (hon : OnView view h₀)
    (hready : GroupReady env view w₀ h₀.name h₀.providerId i) :
    LastAttempt env view h₀ w₀ i 0 ∨
      h₀.pipelines ≠ [] ∧ attempt (served env view h₀ w₀ i 0) h₀ i =
        .decided (servers h₀) false [] .retry ∧ LastAttempt env view h₀ w₀ i 1 := by
  by_cases hhash : h₀.pipelines ≠ [] → h₀.groupHash = hashOf view
  · obtain ⟨ha, hactive⟩ := attempt_accepted hon hready hhash
    exact Or.inl ⟨ha, hactive⟩
  · obtain ⟨hne, hhash⟩ := Classical.not_imp.mp hhash
    obtain ⟨ha, hafter⟩ := attempt_refused hne hon hready hhash
    obtain ⟨h', hr, hname, hid, -, hp, hh'⟩ := refresh_result hd
      (fun _ => servedBy env view w₀) h₀ 1 rfl
    have hcourse : course env view h₀ w₀ i 1 = (h', w₀) := by
      simp only [course, hr, hafter]
    have hon' : OnView view h' := by
      constructor
      · rw [hp]
        exact handles_nodup hd h₀.providerId h₀.name
      · rw [hp, hname, hid]
        exact fun p hp => hp
    have hready' : GroupReady env view w₀ h'.name h'.providerId i := by
      rw [hname, hid]
      exact hready
    obtain ⟨ha', hactive'⟩ := attempt_accepted hon' hready' fun _ => hh'
    refine Or.inr ⟨hne, ha, ?_, ?_⟩
    · unfold served
      rw [hcourse]
      exact ha'
    · have hservers : (course env view h₀ w₀ i 2).2 = afterAttempt env view w₀ h' i := by
        rw [course_servers, hcourse]
      rw [hcourse, hservers]
      exact hactive'

/-- Attempts that begin are those of the course. -/
theorem begins_course {k : ℕ} {h : DistributedPipelineHandle}
    (hb : Begins (served env view h₀ w₀ i) h₀ i k h) :
    h = (course env view h₀ w₀ i k).1 := by
  induction hb with
  | first => rfl
  | @again k h h' _ _ hr ih =>
    subst ih
    have hr' : (refresh (fun _ => servedBy env view (course env view h₀ w₀ i k).2)
        (course env view h₀ w₀ i k).1 (k + 1)).result = .ok h' := hr
    simp only [course, hr']

theorem begins_cases (hd : Distinct view) (hon : OnView view h₀)
    (hready : GroupReady env view w₀ h₀.name h₀.providerId i) {k : ℕ}
    {h : DistributedPipelineHandle} (hb : Begins (served env view h₀ w₀ i) h₀ i k h) :
    k ≤ 1 ∧ (LastAttempt env view h₀ w₀ i k ∨ k = 0 ∧ h₀.pipelines ≠ [] ∧
      attempt (served env view h₀ w₀ i 0) h₀ i = .decided (servers h₀) false [] .retry) := by
  induction hb with
  | first =>
    refine ⟨Nat.zero_le 1, ?_⟩
    rcases call_settles hd hon hready with hlast | ⟨hne, ha, -⟩
    · exact Or.inl hlast
    · exact Or.inr ⟨rfl, hne, ha⟩
  | @again k h h' hb hexit _ ih =>
    rcases ih.2 with hlast | ⟨rfl, hne, ha⟩
    · have heq := begins_course hb
      subst heq
      rw [hlast.accepted] at hexit
      cases hexit
    · rcases call_settles hd hon hready with hlast | ⟨-, -, hlast⟩
      · have hacc : attempt (served env view h₀ w₀ i 0) h₀ i =
            .decided (servers h₀) true [] .returned := hlast.accepted
        rw [ha] at hacc
        cases hacc
      · exact ⟨Nat.le_refl 1, Or.inl hlast⟩

theorem call_throws_not (hd : Distinct view) (hon : OnView view h₀)
    (hready : GroupReady env view w₀ h₀.name h₀.providerId i) :
    ¬ Throws (served env view h₀ w₀ i) h₀ i := by
  rintro ⟨k, h, e, hb, hexit⟩
  have heq := begins_course hb
  rcases (begins_cases hd hon hready hb).2 with hlast | ⟨rfl, -, ha⟩
  · rw [heq, hlast.accepted] at hexit
    rcases hexit with he | ⟨he, -⟩ <;> cases he
  · obtain rfl : h = h₀ := heq
    rw [ha] at hexit
    rcases hexit with he | ⟨-, hr⟩
    · cases he
    · obtain ⟨h', hr', -⟩ := refresh_result hd (served env view h w₀ i) h 1 rfl
      rw [hr'] at hr
      cases hr

/-! The replies by the number of the attempt alone: at most the first one is refused. -/

def verdicts (refused : Bool) (k _ : ℕ) : RequestResult Int32 :=
  if refused = true ∧ k = 0 then .failure .invalidGroupHash "Inconsistent group view" else {}

abbrev verdictEnv (view : View) (refused : Bool) : ℕ → AttemptEnv :=
  groupEnv (fun _ => view) (verdicts refused) fun _ _ => {}

theorem verdicts_success {refused : Bool} {k : ℕ} (h : ¬ (refused = true ∧ k = 0)) (j : ℕ) :
    (verdicts refused k j).success = true := by
  rw [verdicts, if_neg h]

theorem verdicts_refusedOnlyByHash (view : View) (refused : Bool)
    (h₀ : DistributedPipelineHandle) :
    RefusedOnlyByHash (fun _ => view) (verdicts refused) h₀ := by
  intro k _ hno j hj
  apply verdicts_success
  rintro ⟨rfl, rfl⟩
  exact hno ⟨j, hj, rfl⟩

theorem verdict_accepted {refused : Bool} {k : ℕ} (h : DistributedPipelineHandle)
    (hk : ¬ (refused = true ∧ k = 0)) :
    attempt (verdictEnv view refused k) h i = .decided (servers h) true [] .returned := by
  apply runAttempt_accepted
  intro p _
  exact verdicts_success hk p.2

theorem verdict_refused {h : DistributedPipelineHandle} (hne : h.pipelines ≠ []) :
    attempt (verdictEnv view true 0) h i = .decided (servers h) false [] .retry := by
  apply runAttempt_hashRefused
  · intro hnil
    exact hne (List.zipIdx_eq_nil_iff.mp hnil)
  · intro p _
    rfl

/-- The handlers answer like this. -/
theorem served_verdicts (hd : Distinct view) (hon : OnView view h₀)
    (hready : GroupReady env view w₀ h₀.name h₀.providerId i) :
    ∃ refused, (refused = true → h₀.pipelines ≠ []) ∧
      ∀ k h, Begins (served env view h₀ w₀ i) h₀ i k h →
        attempt (served env view h₀ w₀ i k) h i = attempt (verdictEnv view refused k) h i := by
  by_cases hlast : LastAttempt env view h₀ w₀ i 0
  · refine ⟨false, fun hf => (Bool.false_ne_true hf).elim, fun k h hb => ?_⟩
    rw [verdict_accepted h fun hk => Bool.false_ne_true hk.1]
    rcases (begins_cases hd hon hready hb).2 with hk | ⟨rfl, hne, ha⟩
    · rw [begins_course hb]
      exact hk.accepted
    · have hacc : attempt (served env view h₀ w₀ i 0) h₀ i =
          .decided (servers h₀) true [] .returned := hlast.accepted
      rw [ha] at hacc
      cases hacc
  · obtain ⟨hne, ha, hsecond⟩ := (call_settles hd hon hready).resolve_left hlast
    refine ⟨true, fun _ => hne, fun k h hb => ?_⟩
    have heq := begins_course hb
    rcases (begins_cases hd hon hready hb).2 with hk | ⟨rfl, -, -⟩
    · rw [verdict_accepted h fun h0 => hlast (h0.2 ▸ hk), heq]
      exact hk.accepted
    · obtain rfl : h = h₀ := heq
      rw [ha, verdict_refused hne]

/-- The barrier, twice `ok`, and the refresh between. -/
theorem left_after_five {refused : Bool} (hne : refused = true → h₀.pipelines ≠ []) :
    (root (verdictEnv view refused) i).call
      ((root (verdictEnv view refused) i).next^[5] (.entering h₀)) = none := by
  let R := root (verdictEnv view refused) i
  change R.call (R.next (R.next (R.next (R.next (R.next (.entering h₀)))))) = none
  cases refused with
  | false =>
    have hbegin : R.next (.entering h₀) = .deciding 0 h₀ true .returned := by
      apply beginAttempt_accepted
      intro j _
      exact verdicts_success (fun hk => Bool.false_ne_true hk.1) j
    rw [hbegin]
    rfl
  | true =>
    have hbegin : R.next (.entering h₀) = .deciding 0 h₀ false .retry := by
      apply beginAttempt_refused
      exact ⟨0, List.length_pos_iff.mpr (hne rfl), rfl⟩
    obtain ⟨packed, h', hr, -, -⟩ := refresh_groupEnv (fun _ => view) (verdicts true)
      (fun _ _ => {}) h₀ 1
    have hrefresh : R.next (.deciding 0 h₀ false .retry) =
        .refreshing 1 (.groupSize view.length) [.addresses packed] (.ok h') := by
      change continueRefresh _ _ 1 (refresh (verdictEnv view true) h₀ 1) = _
      rw [hr]
      rfl
    have hagain : R.next (.refreshing 1 (.addresses packed) [] (.ok h')) =
        .deciding 1 h' true .returned := by
      apply beginAttempt_accepted
      intro j _
      exact verdicts_success (fun hk => Nat.one_ne_zero hk.2) j
    have haddresses : R.next (.refreshing 1 (.groupSize view.length) [.addresses packed] (.ok h')) =
        .refreshing 1 (.addresses packed) [] (.ok h') := rfl
    rw [hbegin, hrefresh, haddresses, hagain]
    rfl

end Call

/-- For any number of other ranks and any view: at most two attempts, no abort, and every run
ends with all ranks out of the call and the servers of the last attempt active. -/
theorem start_settles_in_two_attempts {β : Type} (env : ProviderHandlers.Environment β)
    {view : View} (hd : Distinct view) {h₀ : DistributedPipelineHandle} (hon : OnView view h₀)
    (w₀ : Servers β) (i : UInt64) (hready : GroupReady env view w₀ h₀.name h₀.providerId i)
    {n : ℕ} (hs : Fin n → DistributedPipelineHandle) :
    (∀ k h, Begins (served env view h₀ w₀ i) h₀ i k h →
      k ≤ 1 ∧ (attempt (served env view h₀ w₀ i k) h i).aborted = []) ∧
    ∀ p, Run (Step (root (served env view h₀ w₀ i) i) (leaf fun _ => .ofView view))
        (initial (.entering h₀) fun j => .entering (hs j)) p →
      p.length ≤ 5 * (n + 1) ∧
      (Stuck (root (served env view h₀ w₀ i) i) (leaf fun _ => .ofView view)
          (final (initial (.entering h₀) fun j : Fin n => .entering (hs j)) p) →
        ∃ k ≤ 1, ∃ h,
          (final (initial (.entering h₀) fun j => .entering (hs j)) p).root = .returned k h ∧
          (∀ j, ∃ h', (final (initial (.entering h₀) fun j => .entering (hs j)) p).leaf j =
            .returned k h') ∧
          ∀ q ∈ h.pipelines,
            ActiveAt ((course env view h₀ w₀ i (k + 1)).2 (endpoint q)) q.name i) := by
  refine ⟨fun k h hb => ?_, fun p hp => ?_⟩
  · obtain ⟨hk, hcases⟩ := begins_cases hd hon hready hb
    refine ⟨hk, ?_⟩
    rcases hcases with hlast | ⟨rfl, -, ha⟩
    · rw [begins_course hb, hlast.accepted]
      rfl
    · rw [begins_course hb]
      change (attempt (served env view h₀ w₀ i 0) h₀ i).aborted = []
      rw [ha]
      rfl
  · obtain ⟨refused, hne, hsame⟩ := served_verdicts hd hon hready
    have hl := lockstep (fun _ _ => {}) i (verdicts_refusedOnlyByHash view refused h₀)
    have hstart : ∀ j,
        Sim (fun _ => view) (verdicts refused) h₀ (.entering h₀) (.entering (hs j)) :=
      fun j => .entering ⟨fun k hk => (Nat.not_lt_zero k hk).elim, rfl⟩
    have hp' : Run (Step (root (verdictEnv view refused) i) (leaf fun _ => .ofView view))
        (initial (.entering h₀) fun j => .entering (hs j)) p :=
      run_congr hsame (fun _ => rfl) .entering hp
    refine ⟨run_length_le hl.tracks hstart hp' (left_after_five hne), fun hstuck => ?_⟩
    have hsync := synchronized_reachable hl.tracks hstart hp'.reaches
    have hcourse := inCall_reachable hp.reaches
    generalize final (initial (.entering h₀) fun j => .entering (hs j)) p = s
      at hstuck hsync hcourse
    have hstuck' : Stuck (root (verdictEnv view refused) i) (leaf fun _ => .ofView view) s := by
      apply Stuck.congr _ hstuck
      rfl
    obtain ⟨hcall, hleaves⟩ := hsync.left_of_stuck hl hstuck'
    generalize hroot : s.root = r at hcall hleaves hcourse
    cases hcourse with
    | @returned k h hb hexit =>
      obtain ⟨hk, hlast | ⟨rfl, -, ha⟩⟩ := begins_cases hd hon hready hb
      · refine ⟨k, hk, h, rfl, fun j => ?_, ?_⟩
        · have hsim := (hleaves j).2
          generalize s.leaf j = m at hsim
          cases hsim with
          | @returned _ _ h' => exact ⟨h', rfl⟩
        · rw [begins_course hb]
          exact hlast.active
      · obtain rfl : h = h₀ := begins_course hb
        rw [ha] at hexit
        cases hexit
    | threw ht => exact (call_throws_not hd hon hready ht).elim
    | _ => cases hcall

/-! Two members, and a handle that lists one of them with an old hash. -/

def twoMembers : View := [(1, [97]), (2, [98])]

def readyProvider : ProviderHandlers.Provider Unit :=
  (ProviderHandlers.initial "" (hashOf twoMembers) []).register "p" ()

def staleHandle : DistributedPipelineHandle := { oneServer with groupHash := 7 }

theorem no_abort_after_stale_hash :
    (attempt (served ProviderRuns.acceptingEnvironment twoMembers staleHandle
      (fun _ => readyProvider) 0 0) staleHandle 0).aborted = [] := by
  have hd : Distinct twoMembers := ⟨by decide, by decide⟩
  have hon : OnView twoMembers staleHandle := by
    constructor
    · decide
    · intro p hp
      obtain rfl := List.mem_singleton.mp hp
      exact List.mem_cons_self ..
  have hready : GroupReady ProviderRuns.acceptingEnvironment twoMembers (fun _ => readyProvider)
      staleHandle.name staleHandle.providerId 0 := by
    intro p _
    exact ⟨rfl, _, Finmap.lookup_insert _, rfl, Or.inl rfl, rfl⟩
  exact ((start_settles_in_two_attempts ProviderRuns.acceptingEnvironment hd hon
    (fun _ => readyProvider) 0 hready (fun _ : Fin 1 => staleHandle)).1 0 staleHandle .first).2

end ServedStart
