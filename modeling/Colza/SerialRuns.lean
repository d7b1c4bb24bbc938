import Colza.SerialHandlers

/-!
# Suspended handlers that amount to requests handled one at a time

The handlers of `ProviderHandlers`, in the order of the events with which the suspended ones
take effect, give the same responses and leave the same provider.
-/
namespace SerialRuns

open Interfaces GuardedRuns FiniteCounts CommitPoints ProviderInterleaving CounterRaces SoloRuns
open RequestEffects SerialRequests SerialHandlers
open ProviderHandlers (Provider PipelineState Environment process badToken)
open ProviderRuns (Balanced)
open LeaveWakeups (running running_wake)

variable {β : Type} {n : ℕ}

section Steps

variable {c : Config} {a : Arrivals n} {env : Fin n → Environment β} {s t : State n}
  {p o : Provider β} {k : Fin n} {q : Pc}

theorem counts (h : Serial c a s p) {name : String} {i : UInt64}
    (hk : s.pc k = .starting name i) (hlock : s.lock = none) :
    Advances c a env s p (.acquire k) := by
  have hstep : step c s (.acquire k) = some { s.goto k (.inBackend name (.start i)) with
      numActivePipelines := s.numActivePipelines + 1 } := by
    simp [step, State.acquire, hk, hlock]
  refine advances_silent hstep (by simp only [commit, hstep, hk]) (h.advance (o := p) rfl
    (fun _ => Or.inl (by rw [hk]; rfl)) rfl rfl ?_ h.leaves h.pipelines (fun j _ => h.fits j) ?_ ?_
    h.balanced le_rfl)
  · have hcount := startsCounted_goto s k (.inBackend name (.start i))
    rw [hk] at hcount
    change s.numActivePipelines + 1 = _ + UInt64.ofNat (startsCounted (s.goto k _))
    have hcount : startsCounted (s.goto k (.inBackend name (.start i))) = startsCounted s + 1 :=
      hcount
    rw [hcount, h.counter, UInt64.ofNat_add, UInt64.add_assoc]
    rfl
  · have hf := h.fits_of hk
    unfold FitsAt
    generalize a.handlers k = g at hf ⊢
    cases hf with
    | starting hl ha hi => exact .inStart hl ha hi
    | ended _ hq => rcases hq with hq | hq | hq <;> cases hq
  · exact fun j other hj => h.locked_goto (fun _ hq => by cases hq) hj

theorem uncounts (h : Serial c a s p) (hk : s.pc k = .startFailed) (hlock : s.lock = none) :
    Advances c a env s p (.acquire k) := by
  have hstep : step c s (.acquire k) = some { s.goto k .notifying with
      numActivePipelines := s.numActivePipelines - 1 } := by
    simp [step, State.acquire, hk, hlock]
  refine advances_silent hstep (by simp only [commit, hstep, hk]) (h.advance (o := p) rfl
    (fun _ => Or.inl (by rw [hk]; rfl)) rfl rfl ?_ h.leaves h.pipelines (fun j _ => h.fits j)
    (.ended _ (Or.inr (Or.inl rfl))) ?_ h.balanced le_rfl)
  · have hcount := startsCounted_goto s k .notifying
    rw [hk] at hcount
    change s.numActivePipelines - 1 = _ + UInt64.ofNat (startsCounted (s.goto k _))
    have hcount : startsCounted (s.goto k .notifying) + 1 = startsCounted s := hcount
    rw [h.counter, ← hcount, UInt64.ofNat_add, ← UInt64.add_assoc]
    exact UInt64.add_sub_cancel ..
  · exact fun j other hj => h.locked_goto (fun _ => Pc.noConfusion) hj

/-- The critical section that closes an iteration. -/
theorem closes (h : Serial c a s p) {name : String} {st : PipelineState β}
    (st' : PipelineState β) (hk : pipelineOf (a.handlers k) = some name)
    (hs : isStage (a.handlers k) = false) (hrun : running (s.pc k) = true)
    (hcount : counted (s.pc k) = false) (hl : p.pipelines.lookup name = some st)
    (ha : st.active = true) :
    Serial c a (s.deactivate k name st'.iteration) (p.deactivate name st') := by
  refine h.assign (q := .notifying) (u := { st' with active := false }) hk hs hrun hl (Or.inl rfl)
    rfl rfl rfl rfl rfl ?_ (ProviderRuns.deactivate_balanced h.balanced hl ha)
  change s.numActivePipelines - 1 = _ + UInt64.ofNat (startsCounted (s.goto k .notifying))
  rw [startsCounted_goto_same (q := .notifying) hcount.symm, h.counter]
  grind

theorem cleans (henv : ∀ k, Returns (env k) (a.executed k) (a.result k)) (h : Serial c a s p)
    {name : String} (hk : s.pc k = .cleaned name) (hlock : s.lock = none) :
    Advances c a env s p (.acquire k) := by
  have hstep : step c s (.acquire k) = some (s.deactivate k name (s.state name).iteration) := by
    simp [step, State.acquire, hk, hlock]
  have hcommit : commit c a s (.acquire k) = some ⟨k, some (a.result k)⟩ := by
    simp only [commit, hstep, hk]
  have hf := h.fits_of hk
  generalize hg : a.handlers k = g at hf
  cases hf with
  | @cleaned _ _ i hh hr hfind =>
    obtain ⟨st, hl, ha, hi⟩ := h.lookup hfind
    have hrun : running (s.pc k) = true := by rw [hk]; rfl
    have hcount : counted (s.pc k) = false := by rw [hk]; rfl
    have hiter : (s.state name).iteration = st.iteration := by
      rw [(find_some hfind).2]
      exact hi.symm
    obtain ⟨b, hy⟩ : ∃ b, Yields (process (env k) p (request a k))
        (p.deactivate name (st.setBackend b)) (some (a.result k)) := by
      unfold request
      rw [hg]
      rcases hh with rfl | ⟨rfl, hx⟩
      · exact cleanup_succeeds (henv k) hl ha hi hr
      · exact execute_cleans (henv k) hl ha hi hx hr
    refine advances_commit hstep hcommit hy ?_ ?_
    · intro hleave
      rw [hg] at hleave
      rcases hh with rfl | ⟨rfl, -⟩ <;> cases hleave
    · rw [hiter]
      refine closes h (st.setBackend b) ?_ ?_ hrun hcount hl ha
      · rcases hh with rfl | ⟨rfl, -⟩ <;> rw [hg] <;> rfl
      · rcases hh with rfl | ⟨rfl, -⟩ <;> rw [hg] <;> rfl
  | ended _ hq => rcases hq with hq | hq | hq <;> cases hq

theorem aborts (h : Serial c a s p) {name : String} (hk : s.pc k = .aborted name)
    (hlock : s.lock = none) : Advances c a env s p (.acquire k) := by
  have hstep : step c s (.acquire k) =
      some (s.deactivate k name ((s.state name).iteration - 1)) := by
    simp [step, State.acquire, hk, hlock]
  have hcommit : commit c a s (.acquire k) = some ⟨k, some {}⟩ := by
    simp only [commit, hstep, hk]
  have hf := h.fits_of hk
  generalize hg : a.handlers k = g at hf
  cases hf with
  | @aborted _ i hfind =>
    obtain ⟨st, hl, ha, hi⟩ := h.lookup hfind
    have hiter : (s.state name).iteration = st.iteration := by
      rw [(find_some hfind).2]
      exact hi.symm
    obtain ⟨b, hy⟩ := abort_yields (env k) hl ha hi
    refine advances_commit hstep hcommit (o := p.deactivate name
      { st.setBackend b with iteration := st.iteration - 1 }) ?_ (fun hleave => ?_) ?_
    · unfold request
      rw [hg]
      exact hy
    · rw [hg] at hleave
      cases hleave
    · rw [hiter]
      exact closes h { st.setBackend b with iteration := st.iteration - 1 } (by rw [hg]; rfl)
        (by rw [hg]; rfl) (by rw [hk]; rfl) (by rw [hk]; rfl) hl ha
  | ended _ hq => rcases hq with hq | hq | hq <;> cases hq

/-! A call on the backend object returns. -/

/-- The success of the call is the one that is told. -/
theorem told {success b : Bool} (ht : a.Tells s (.returns k success))
    (hb : a.succeeds k (s.pc k) = some b) : b = success := by
  change (a.succeeds k (s.pc k)).getD success = success at ht
  rwa [hb] at ht

theorem start_returns (henv : ∀ k, Returns (env k) (a.executed k) (a.result k))
    (h : Serial c a s p) {name : String} {i : UInt64} {success : Bool}
    (ht : a.Tells s (.returns k success)) (hk : s.pc k = .inBackend name (.start i)) :
    Advances c a env s p (.returns k success) := by
  have hr : (a.result k).success = success := told ht (by rw [hk]; rfl)
  have hf := h.fits_of hk
  generalize hg : a.handlers k = g at hf
  cases hf with
  | @inStart _ _ st hfind ha hi =>
    obtain ⟨st', hl, hact, hiter⟩ := h.lookup hfind
    have ha' : st'.active = false := hact.trans ha
    have hi' : st'.iteration = 0 ∨ st'.iteration < i := by rwa [hiter]
    have hrun : running (s.pc k) = true := by rw [hk]; rfl
    have hname : pipelineOf (a.handlers k) = some name := by rw [hg]; rfl
    have hreq : process (env k) p (request a k) =
        ProviderHandlers.start (env k) p p.groupHash name i := by
      simp only [request, hg, requestOf, process, h.groupHash]
    cases success with
    | false =>
      refine h.answers (q := .startFailed) hname hl ?_
        (r := some (a.result k)) ?_ ?_ (Or.inl rfl) ?_ hrun
      · simp [step, State.returns, hk]
      · simp [commit, step, State.returns, hk]
      · rw [hreq]
        exact start_fails (henv k) hr hl ha' hi'
      · rw [hk]
        rfl
    | true =>
      have hstep : step c s (.returns k true) =
          some ((s.setState name ⟨true, i⟩).goto k .done) := by
        simp [step, State.returns, hk]
      obtain ⟨b, hy⟩ := start_succeeds (henv k) hr hl ha' hi'
      refine advances_commit (k := k) hstep (r := some (a.result k))
        (o := p.activate name (st'.setBackend b) i) ?_ ?_ (fun hleave => ?_) ?_
      · simp only [commit, hstep, hk]
      · rw [hreq]
        exact hy
      · rw [hg] at hleave
        cases hleave
      · -- the increment of this start is now the one of an active pipeline
        have hcounted : startsCounted (s.goto k .done) + 1 = startsCounted s := by
          have hcount := startsCounted_goto s k .done
          rw [hk] at hcount
          exact hcount
        have hroom : p.numActivePipelines.toNat + 1 < 2 ^ 64 := by
          have hactive : ProviderRuns.activeCount p ≤ p.pipelines.keys.card :=
            Finset.card_filter_le _ _
          have hbalanced : p.numActivePipelines.toNat = ProviderRuns.activeCount p := h.balanced
          have hpos := k.pos
          have hfit := h.room
          omega
        refine h.assign (q := .done) (u := { st'.setBackend b with iteration := i, active := true })
          hname (by rw [hg]; rfl) hrun hl (Or.inr rfl) rfl rfl rfl rfl rfl ?_
          ((ProviderRuns.activate_balanced h.balanced hl ha' b i).mpr hroom)
        change s.numActivePipelines = _ + UInt64.ofNat (startsCounted (s.goto k .done))
        rw [h.counter, ← hcounted, UInt64.ofNat_add, UInt64.add_comm (UInt64.ofNat _),
          ← UInt64.add_assoc]
        rfl
  | opened ho hfind => cases g <;> cases ho
  | ended _ hq => rcases hq with hq | hq | hq <;> cases hq

theorem stage_returns (henv : ∀ k, Returns (env k) (a.executed k) (a.result k))
    (h : Serial c a s p) {name : String} {i : UInt64} {success : Bool}
    (hk : s.pc k = .inBackend name (.stage i)) : Advances c a env s p (.returns k success) := by
  have hf := h.fits_of hk
  generalize hg : a.handlers k = g at hf
  cases hf with
  | opened ho hfind =>
    cases g <;> cases ho
    obtain ⟨st, hl, ha, hi⟩ := h.lookup hfind
    refine h.answers (q := .done) (r := some (a.result k)) (by rw [hg]; rfl) hl ?_ ?_ ?_
      (Or.inr (Or.inr rfl)) ?_ ?_
    · simp [step, State.returns, hk]
    · simp [commit, step, State.returns, hk]
    · unfold request
      rw [hg]
      exact stage_yields (henv k) hl ha hi (a.args k)
    · rw [hk]
      rfl
    · rw [hk]
      rfl
  | ended _ hq => rcases hq with hq | hq | hq <;> cases hq

theorem execute_returns (henv : ∀ k, Returns (env k) (a.executed k) (a.result k))
    (h : Serial c a s p) {name : String} {i : UInt64} {auto success : Bool}
    (ht : a.Tells s (.returns k success)) (hk : s.pc k = .inBackend name (.execute i auto)) :
    Advances c a env s p (.returns k success) := by
  have hx : (a.executed k).success = success := told ht (by rw [hk]; rfl)
  have hrun : running (s.pc k) = true := by rw [hk]; rfl
  have hf := h.fits_of hk
  generalize hg : a.handlers k = g at hf
  cases hf with
  | opened ho hfind =>
    cases g <;> cases ho
    obtain ⟨st, hl, ha, hi⟩ := h.lookup hfind
    cases hauto : success && auto with
    | true =>
      obtain ⟨rfl, rfl⟩ := (Bool.and_eq_true _ _).mp hauto
      refine h.moves (q := .inBackend name (.cleanup i true)) ?_ ?_ ?_ ?_ (fun _ hq => by cases hq)
        hrun
      · simp [step, State.returns, hk]
      · simp [commit, step, State.returns, hk]
      · exact .of hg (.autoCleanup hx hfind)
      · rw [hk]
        rfl
    | false =>
      refine h.answers (q := .done) (r := some (a.executed k)) (by rw [hg]; rfl) hl ?_ ?_ ?_
        (Or.inr (Or.inr rfl)) ?_ hrun
      · simp [step, State.returns, hk, hauto]
      · simp [commit, step, State.returns, hk, hauto]
      · unfold request
        rw [hg]
        exact execute_yields (henv k) hl ha hi (by rw [hx]; exact hauto)
      · rw [hk]
        rfl
  | ended _ hq => rcases hq with hq | hq | hq <;> cases hq

theorem cleanup_returns (henv : ∀ k, Returns (env k) (a.executed k) (a.result k))
    (h : Serial c a s p) {name : String} {i : UInt64} {auto success : Bool}
    (ht : a.Tells s (.returns k success)) (hk : s.pc k = .inBackend name (.cleanup i auto)) :
    Advances c a env s p (.returns k success) := by
  have hr : (a.result k).success = success := told ht (by rw [hk]; rfl)
  have hrun : running (s.pc k) = true := by rw [hk]; rfl
  have hcount (q : Pc) (hq : counted q = false) : counted q = counted (s.pc k) := by
    rw [hq, hk]
    rfl
  have hf := h.fits_of hk
  generalize hg : a.handlers k = g at hf
  cases hf with
  | opened ho hfind =>
    cases g <;> cases ho
    obtain ⟨st, hl, ha, hi⟩ := h.lookup hfind
    cases success with
    | true =>
      refine h.moves (q := .cleaned name) ?_ ?_ ?_ (hcount _ rfl) (fun _ => Pc.noConfusion) hrun
      · simp [step, State.returns, hk]
      · simp [commit, step, State.returns, hk]
      · exact .of hg (.cleaned (Or.inl rfl) hr hfind)
    | false =>
      refine h.answers (q := .done) (r := some (a.result k)) (by rw [hg]; rfl) hl ?_ ?_ ?_
        (Or.inr (Or.inr rfl)) (hcount _ rfl) hrun
      · simp [step, State.returns, hk]
      · simp [commit, step, State.returns, hk]
      · unfold request
        rw [hg]
        exact cleanup_fails (henv k) hl ha hi hr
  | autoCleanup hx hfind =>
    obtain ⟨st, hl, ha, hi⟩ := h.lookup hfind
    cases success with
    | true =>
      refine h.moves (q := .cleaned name) ?_ ?_ ?_ (hcount _ rfl) (fun _ => Pc.noConfusion) hrun
      · simp [step, State.returns, hk]
      · simp [commit, step, State.returns, hk]
      · exact .of hg (.cleaned (Or.inr ⟨rfl, hx⟩) hr hfind)
    | false =>
      refine h.answers (q := .notifying) (r := some (a.result k)) (by rw [hg]; rfl) hl ?_ ?_ ?_
        (Or.inr (Or.inl rfl)) (hcount _ rfl) hrun
      · simp [step, State.returns, hk]
      · simp [commit, step, State.returns, hk]
      · unfold request
        rw [hg]
        exact execute_not_cleaned (henv k) hl ha hi hx hr
  | ended _ hq => rcases hq with hq | hq | hq <;> cases hq

theorem abort_returns (h : Serial c a s p) {name : String} {i : UInt64} {success : Bool}
    (hk : s.pc k = .inBackend name (.abort i)) : Advances c a env s p (.returns k success) := by
  have hf := h.fits_of hk
  generalize hg : a.handlers k = g at hf
  cases hf with
  | opened ho hfind =>
    cases g <;> cases ho
    refine h.moves (k := k) (q := .aborted name) ?_ ?_ ?_ ?_ (fun _ => Pc.noConfusion) ?_
    · simp [step, State.returns, hk]
    · simp [commit, step, State.returns, hk]
    · exact .of hg (.aborted hfind)
    · rw [hk]
      rfl
    · rw [hk]
      rfl
  | ended _ hq => rcases hq with hq | hq | hq <;> cases hq

theorem destroy_returns (henv : ∀ k, Returns (env k) (a.executed k) (a.result k))
    (h : Serial c a s p) {name : String} {success : Bool}
    (hk : s.pc k = .inBackend name .destroy) : Advances c a env s p (.returns k success) := by
  have hrun : running (s.pc k) = true := by rw [hk]; rfl
  have hheld := h.locked k name hk
  have hf := h.fits_of hk
  generalize hg : a.handlers k = g at hf
  cases hf with
  | @inDestroy token _ st ht hfind ha =>
    obtain ⟨st', hl, hact, -⟩ := h.lookup hfind
    have ha' : st'.active = false := hact.trans ha
    have ht' : ¬ badToken p token := by
      unfold badToken
      rwa [← h.token]
    have hstep : step c s (.returns k success) = some { s.goto k .done with
        lock := none, registered := s.registered.erase name } := by
      simp [step, State.returns, hk]
    refine advances_commit (k := k) (r := some (a.result k))
      (o := { p with pipelines := p.pipelines.erase name }) hstep ?_ ?_ (fun hleave => ?_) ?_
    · simp only [commit, hstep, hk]
    · unfold request
      rw [hg]
      exact destroyPipeline_yields (henv k) ht' hl ha'
    · rw [hg] at hleave
      cases hleave
    have hfind' (other : String) (ho : other ≠ name) :
        State.find { s.goto k .done with lock := none, registered := s.registered.erase name }
          other = s.find other := by
      simp [State.find, ho]
    refine h.advance (k := k) (q := .done) rfl Bool.noConfusion rfl rfl ?_ h.leaves ?_ ?_
      (.ended _ (Or.inr (Or.inr rfl))) ?_ ?_ ?_
    · change s.numActivePipelines = _ + UInt64.ofNat (startsCounted (s.goto k .done))
      rw [startsCounted_goto_same (q := .done) (by rw [hk]; rfl)]
      exact h.counter
    · intro other
      by_cases ho : other = name
      · subst ho
        simp [State.find]
      · rw [hfind' other ho, h.pipelines, Finmap.lookup_erase_ne ho]
    · exact fun j hj => h.others (by rw [hg]; rfl) (by rw [hg]; rfl) hrun hfind' hj
    · -- only the handler that holds the lock is in `Backend::destroy`
      intro j other hj
      have hheld' := h.locked_goto (fun _ => Pc.noConfusion) hj
      obtain rfl : k = j := Option.some.inj (hheld.symm.trans hheld')
      change (s.goto k .done).pc k = _ at hj
      rw [goto_pc_self] at hj
      cases hj
    · exact ProviderRuns.quiet_balanced h.balanced (.destroyed success hl ha')
    · exact Finset.card_le_card fun other ho => by
        rw [Finmap.mem_keys] at ho ⊢
        exact (Finmap.mem_erase.mp ho).2
  | opened ho hfind => cases g <;> cases ho
  | ended _ hq => rcases hq with hq | hq | hq <;> cases hq

/-- `notify_all` wakes the handlers of leave that wait. -/
theorem wakes (h : Serial c a s p) : Serial c a s.notifyAll p where
  token := h.token
  groupHash := h.groupHash
  counter := by
    rw [startsCounted_notifyAll]
    exact h.counter
  leaves := h.leaves
  pipelines := h.pipelines
  fits k := (h.fits k).wake
  alone j k hjk hc hj := by
    rw [notifyAll_pc, running_wake] at hj ⊢
    exact h.alone j k hjk hc hj
  locked k name hk := by
    refine h.locked k name ?_
    rw [notifyAll_pc] at hk
    cases hq : s.pc k <;> rw [hq] at hk <;> first | exact hk | cases hk
  balanced := h.balanced
  room := h.room

theorem notifies (h : Serial c a s p) (hk : s.pc k = .notifying) :
    Advances c a env s p (.notify k) := by
  have hstep : step c s (.notify k) = some (s.notifyAll.goto k .done) := if_pos hk
  refine advances_silent hstep (by simp only [commit, hstep]) ?_
  refine (wakes h).goto (.ended _ (Or.inr (Or.inr rfl))) ?_ (fun _ => Pc.noConfusion)
    Bool.noConfusion
  rw [notifyAll_pc, hk]
  rfl

theorem wakes_by_itself (h : Serial c a s p) (hk : s.pc k = .waiting) :
    Advances c a env s p (.wake k) := by
  have hstep : step c s (.wake k) = some (s.goto k .woken) := if_pos hk
  have hwoken := (wakes h).fits k
  rw [notifyAll_pc, hk] at hwoken
  exact h.moves hstep (by simp only [commit, hstep]) hwoken (by rw [hk]; rfl)
    (fun _ => Pc.noConfusion) (by rw [hk]; rfl)

theorem acquires (henv : ∀ k, Returns (env k) (a.executed k) (a.result k)) (h : Serial c a s p)
    (hg : Apart a s (.acquire k)) (hstep : step c s (.acquire k) = some t) :
    Advances c a env s p (.acquire k) := by
  have hacquire : s.acquire c k = some t := hstep
  unfold State.acquire at hacquire
  split at hacquire
  · next hk => exact h.arrived hg hk hstep
  · next hk => exact counts h hk (unlocked hacquire).1
  · next hk => exact uncounts h hk (unlocked hacquire).1
  · next hk => exact cleans henv h hk (unlocked hacquire).1
  · next hk => exact aborts h hk (unlocked hacquire).1
  · next hk =>
    have hf := h.fits_of hk
    generalize hh : a.handlers k = g at hf
    cases hf with
    | woken => exact h.leave hg hh (Or.inr hk) (unlocked hacquire).1
    | ended _ hq => rcases hq with hq | hq | hq <;> cases hq
  · cases hacquire

theorem returns (henv : ∀ k, Returns (env k) (a.executed k) (a.result k)) (h : Serial c a s p)
    {success : Bool} (ht : a.Tells s (.returns k success))
    (hstep : step c s (.returns k success) = some t) :
    Advances c a env s p (.returns k success) := by
  have hreturns : s.returns k success = some t := hstep
  unfold State.returns at hreturns
  split at hreturns
  · next hk => exact start_returns henv h ht hk
  · next hk => exact stage_returns henv h hk
  · next hk => exact execute_returns henv h ht hk
  · next hk => exact cleanup_returns henv h ht hk
  · next hk => exact abort_returns h hk
  · next hk => exact destroy_returns henv h hk
  · cases hreturns

/-- One event. -/
theorem serial_step (henv : ∀ k, Returns (env k) (a.executed k) (a.result k)) (s : State n)
    (p : Provider β) (e : Event n) (h : Serial c a s p) (hg : a.Tells s e ∧ Apart a s e) :
    Advances c a env s p e := by
  cases hstep : step c s e with
  | none =>
    have hnext : next c s e = s := by rw [next, hstep]; rfl
    have hcommit : commit c a s e = none := by simp only [commit, hstep]
    unfold Advances
    rw [hnext, hcommit]
    exact ⟨h, fun x hx => by cases hx⟩
  | some t =>
    cases e with
    | acquire k => exact acquires henv h hg.2 hstep
    | returns k success => exact returns henv h hg.1 hstep
    | notify k =>
      by_cases hk : s.pc k = .notifying
      · exact notifies h hk
      · simp [step, hk] at hstep
    | wake k =>
      by_cases hk : s.pc k = .waiting
      · exact wakes_by_itself h hk
      · simp [step, hk] at hstep

end Steps

/-! ## Whole runs -/

/-- Requests that arrive at a provider that both models agree on. -/
structure Arriving (c : Config) (a : Arrivals n) (s₀ : State n) (p₀ : Provider β) : Prop where
  agrees : Agrees c s₀ p₀
  arrived : ∀ k, s₀.pc k = .arrived (a.handlers k)
  unlocked : s₀.lock = none
  balanced : Balanced p₀
  room : p₀.pipelines.keys.card + n < 2 ^ 64

/-- The order makes the run one of requests handled one at a time: it lists the handlers that
have ended, at any time those that have ended by then before the others, the requests have
these responses in this order, and they leave the same provider. -/
structure Serializes (c : Config) (a : Arrivals n) (env : Fin n → Environment β) (s₀ : State n)
    (p₀ : Provider β) (events : List (Event n)) (order : List (Effect n)) : Prop where
  realTime : ∀ before after, events = before ++ after → ∃ earlier later,
    order = earlier ++ later ∧ Listed (fun s k => ended (s.pc k) = true)
      (before.foldl (next c) s₀) (earlier.map Effect.handler)
  listed : Listed (fun s k => ended (s.pc k) = true) (events.foldl (next c) s₀)
    (order.map Effect.handler)
  answers : Guarded (Answers a env) p₀ (path (perform a env) p₀ order)
  agrees : startsCounted (events.foldl (next c) s₀) = 0 →
    Agrees c (events.foldl (next c) s₀) (order.foldl (perform a env) p₀)

section Runs

variable {c : Config} {a : Arrivals n} {s₀ s : State n} {p₀ p : Provider β}

theorem Arriving.serial (h : Arriving c a s₀ p₀) : Serial c a s₀ p₀ where
  token := h.agrees.token
  groupHash := h.agrees.groupHash
  counter := by
    have hcount : startsCounted s₀ = 0 :=
      (tally_eq_zero _ _ _).mpr fun k _ => by rw [h.arrived]; exact Bool.false_ne_true
    rw [hcount, h.agrees.counter]
    exact (UInt64.add_zero _).symm
  leaves := h.agrees.leaves
  pipelines := h.agrees.pipelines
  fits k := by
    rw [h.arrived]
    exact .arrived _
  alone j k _ _ hj := by
    rw [h.arrived] at hj
    cases hj
  locked k name hk := by
    rw [h.arrived] at hk
    cases hk
  balanced := h.balanced
  room := h.room

/-- Where requests do not overlap within a pipeline: handled one at a time in the order of the
events with which they take effect, with backends that return the same, they have the same
responses, in full, and leave the same provider. -/
theorem separate_requests_serialize (c : Config) (a : Arrivals n) (env : Fin n → Environment β)
    (henv : ∀ k, Returns (env k) (a.executed k) (a.result k)) (s₀ : State n)
    (p₀ : Provider β) (h : Arriving c a s₀ p₀) (events : List (Event n))
    (hg : Guarded (fun s e => a.Tells s e ∧ Apart a s e) s₀ (path (next c) s₀ events)) :
    Serializes c a env s₀ p₀ events (commits (next c) (commit c a) s₀ events) := by
  have hended (k : Fin n) : ended (s₀.pc k) = false := by
    rw [h.arrived]
    rfl
  obtain ⟨hrun, hanswers⟩ := simulation (serial_step henv) h.serial hg
  refine ⟨fun before after he => ⟨commits (next c) (commit c a) s₀ before,
    commits (next c) (commit c a) (before.foldl (next c) s₀) after, ?_,
    commits_listed c a hended before⟩, commits_listed c a hended events, hanswers, hrun.agrees⟩
  rw [he]
  exact commits_append ..

end Runs

/-- A provider of two new pipelines. -/
def twoPipelines : Provider Unit :=
  ((ProviderHandlers.initial "" 7 []).register "p" ()).register "q" ()

theorem twoPipelines_arriving {n : ℕ} (a : Arrivals n) (hn : 2 + n < 2 ^ 64) :
    Arriving ⟨"", 7⟩ a (initial {"p", "q"} (fun _ => {}) a.handlers) twoPipelines where
  agrees := by
    have hcounter : tally ({"p", "q"} : Finset String) (fun st => st.active = true)
        (fun _ => ({} : PipelineFlags)) = 0 := by decide
    refine ⟨rfl, rfl, congrArg UInt64.ofNat hcounter, rfl, fun name => ?_⟩
    by_cases hq : name = "q"
    · subst hq
      rfl
    by_cases hp : name = "p"
    · subst hp
      rfl
    · simp [State.find, initial, twoPipelines, ProviderHandlers.Provider.register,
        ProviderHandlers.initial, hp, hq]
  arrived k := rfl
  unlocked := rfl
  balanced := by
    refine (ProviderRuns.register_balanced ?_ "q" ()).mpr ?_
    · refine (ProviderRuns.register_balanced ?_ "p" ()).mpr ?_
      · exact ProviderRuns.initial_balanced "" 7 []
      · simp [ProviderHandlers.initial]
    · decide
  room := by
    have : twoPipelines.pipelines.keys.card = 2 := by decide
    omega

/-- A backend class whose calls have the results of a request. -/
def answering (executed result : RequestResult Int32) : Environment Unit where
  backend :=
    { updateMonaAddresses := fun b _ => b
      start := fun b _ => (result, b)
      abort := fun b _ => b
      stage := fun b _ _ => (result, b)
      execute := fun b _ => (executed, b)
      cleanup := fun b _ => (result, b)
      destroy := fun b => (result, b) }
  parse := fun _ => .ok .null
  dlopen := fun _ => none
  createFn := fun _ => none

theorem answering_returns (executed result : RequestResult Int32) :
    Returns (answering executed result) executed result :=
  ⟨fun _ _ => rfl, fun _ _ _ => rfl, fun _ _ => rfl, fun _ _ => rfl, fun _ => rfl⟩

/-- The starts and the cleanup of two pipelines overlap, a second start of one of them is refused,
a block of the other is rejected by its backend, and a leave waits. -/
theorem separate_requests_of_two_pipelines :
    let full : RequestResult Int32 := { success := false, error := "full", value := some 7 }
    let a : Arrivals 6 :=
      { handlers := ![.start 7 "p" 1, .start 7 "q" 1, .cleanup "p" 1, .leave, .start 7 "p" 1,
          .stage "q" 1]
        args := fun _ => ⟨"na+sm://1", "mesh", 0, [1], [0], .int8, ⟨[0]⟩⟩
        executed := fun _ => {}
        result := fun k => if k = 5 then full else {} }
    let s₀ := initial {"p", "q"} (fun _ => {}) a.handlers
    let events : List (Event 6) := [.acquire 0, .acquire 1, .acquire 0, .acquire 1,
      .returns 1 true, .acquire 3, .acquire 5, .returns 0 true, .acquire 4, .acquire 2,
      .returns 5 false, .returns 2 true, .acquire 2]
    commits (next ⟨"", 7⟩) (commit ⟨"", 7⟩ a) s₀ events =
        [⟨1, some {}⟩, ⟨0, some {}⟩,
          ⟨4, some (.failure .pipelineIsActive "Pipeline is already active")⟩, ⟨5, some full⟩,
          ⟨2, some {}⟩] ∧
      Serializes ⟨"", 7⟩ a (fun k => answering (a.executed k) (a.result k)) s₀ twoPipelines events
        (commits (next ⟨"", 7⟩) (commit ⟨"", 7⟩ a) s₀ events) := by
  intro full a s₀ events
  exact ⟨by decide, separate_requests_serialize _ a _ (fun _ => answering_returns _ _) s₀ _
    (twoPipelines_arriving a (by decide)) events (by decide)⟩

end SerialRuns
