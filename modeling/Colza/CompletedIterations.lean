import Colza.OpenIterations
import Colza.ProviderRuns

/-!
# Iterations that have been completed

An iteration is completed by a cleanup that succeeds, the automatic one of `execute`
included. The automatic cleanup is the request it stands for, and the iterations completed
on one backend object come in increasing order, with 0 as the only one that may come again.
-/
namespace CompletedIterations

open Interfaces ProviderHandlers OpenIterations ProviderRuns GuardedRuns FiniteCounts

variable {β : Type}

/-! ## The automatic cleanup -/

/-- An execute request and, if it has succeeded, a cleanup request. -/
def executeThenCleanup (env : Environment β) (s : Provider β) (name : String) (i : UInt64) :
    Outcome β :=
  let executed := execute env s name i false
  if executed.succeeded then
    let cleaned := cleanup env executed.provider name i
    ⟨cleaned.provider, cleaned.reply, executed.calls ++ cleaned.calls⟩
  else executed

theorem setState_setState (s : Provider β) (name : String) (st st' : PipelineState β) :
    (s.setState name st).setState name st' = s.setState name st' := by
  simp [Provider.setState, Finmap.insert_insert]

theorem deactivate_setState (s : Provider β) (name : String) (st st' : PipelineState β) :
    (s.setState name st).deactivate name st' = s.deactivate name st' := by
  simp [Provider.deactivate, Provider.setState, Finmap.insert_insert]

/-- The checks of the handlers refuse without a look at what comes after them. -/
theorem onActive_refused {s : Provider β} {name : String} {i : UInt64}
    (h : ¬ ActiveAt s name i) :
    ∃ r : RequestResult Int32, r.success = false ∧
      ∀ body : PipelineState β → Outcome β, onActive s name i body = respond s r := by
  unfold onActive
  cases hl : s.pipelines.lookup name with
  | none => exact ⟨pipelineNotFound name, rfl, fun _ => rfl⟩
  | some st =>
    cases ha : st.active with
    | false =>
      refine ⟨.failure .pipelineNotActive "Pipeline is not active", rfl, fun body => ?_⟩
      simp only [ha, Bool.not_false, if_true]
    | true =>
      have hi : st.iteration ≠ i := fun hi => h ⟨st, hl, ha, hi⟩
      refine ⟨.failure .invalidIteration "Invalid iteration", rfl, fun body => ?_⟩
      simp only [ha, Bool.not_true, Bool.false_eq_true, if_false, if_pos hi]

section Active

variable {env : Environment β} {s : Provider β} {name : String} {i : UInt64}
  {st : PipelineState β} {r : RequestResult Int32} {b : β}

/-- Execute on an active pipeline, up to the automatic cleanup. -/
theorem execute_active (hl : s.pipelines.lookup name = some st) (ha : st.active = true)
    (hi : st.iteration = i) (hb : env.backend.execute st.pipeline.state i = (r, b))
    (auto : Bool) (hauto : (r.success && auto) = false) :
    execute env s name i auto =
      ⟨s.setState name (st.setBackend b), some r, callsOf st [.execute i r.success]⟩ := by
  unfold execute
  rw [onActive_active hl ha hi]
  simp only [hb, hauto, Bool.false_eq_true, if_false]
  rfl

theorem execute_auto (hl : s.pipelines.lookup name = some st) (ha : st.active = true)
    (hi : st.iteration = i) (hb : env.backend.execute st.pipeline.state i = (r, b))
    (hr : r.success = true) :
    execute env s name i true =
      let (cleaned, b') := env.backend.cleanup b i
      let calls := callsOf st [.execute i true, .cleanup i cleaned.success]
      if cleaned.success then
        ⟨s.deactivate name (st.setBackend b'), some cleaned, calls⟩
      else ⟨s.setState name (st.setBackend b'), some cleaned, calls⟩ := by
  unfold execute
  rw [onActive_active hl ha hi]
  simp only [hb, hr, Bool.and_true, if_true]
  rfl

theorem cleanup_active (hl : s.pipelines.lookup name = some st) (ha : st.active = true)
    (hi : st.iteration = i) :
    cleanup env s name i =
      let (cleaned, b) := env.backend.cleanup st.pipeline.state i
      let calls := callsOf st [.cleanup i cleaned.success]
      if cleaned.success then ⟨s.deactivate name (st.setBackend b), some cleaned, calls⟩
      else ⟨s.setState name (st.setBackend b), some cleaned, calls⟩ := by
  unfold cleanup
  rw [onActive_active hl ha hi]
  rfl

theorem executeThenCleanup_succeeded (h : (execute env s name i false).succeeded) :
    executeThenCleanup env s name i =
      ⟨(cleanup env (execute env s name i false).provider name i).provider,
        (cleanup env (execute env s name i false).provider name i).reply,
        (execute env s name i false).calls ++
          (cleanup env (execute env s name i false).provider name i).calls⟩ := if_pos h

theorem executeThenCleanup_failed (h : ¬ (execute env s name i false).succeeded) :
    executeThenCleanup env s name i = execute env s name i false := if_neg h

end Active

/-- The same provider, the same answer and the same calls, from every state. -/
theorem execute_autoCleanup (env : Environment β) (s : Provider β) (name : String) (i : UInt64) :
    execute env s name i true = executeThenCleanup env s name i := by
  by_cases h : ActiveAt s name i
  · obtain ⟨st, hl, ha, hi⟩ := h
    rcases hb : env.backend.execute st.pipeline.state i with ⟨r, b⟩
    have hexecuted := execute_active hl ha hi hb false (Bool.and_false _)
    by_cases hr : r.success = true
    · have hs : (execute env s name i false).succeeded := by
        rw [hexecuted]
        exact ⟨r, rfl, hr⟩
      have hlookup := lookup_setState s name (st.setBackend b)
      rw [executeThenCleanup_succeeded hs, execute_auto hl ha hi hb hr, hexecuted,
        cleanup_active hlookup ha hi]
      have hstate : (st.setBackend b).pipeline.state = b := rfl
      rw [hstate]
      rcases env.backend.cleanup b i with ⟨cleaned, b'⟩
      by_cases hc : cleaned.success = true
      · simp only [hr, hc, if_true, deactivate_setState]
        rfl
      · simp only [hr, hc, setState_setState]
        rfl
    · have hf : r.success = false := by simpa using hr
      have hn : ¬ (execute env s name i false).succeeded := by
        rw [hexecuted]
        rintro ⟨r', hr', hs⟩
        rw [← Option.some.inj hr'] at hs
        exact hr hs
      rw [executeThenCleanup_failed hn, hexecuted,
        execute_active hl ha hi hb true (by rw [hf]; rfl)]
  · obtain ⟨r, hf, hr⟩ := onActive_refused h
    have hexecute (auto : Bool) : execute env s name i auto = respond s r := hr _
    have hn : ¬ (execute env s name i false).succeeded := by
      rw [hexecute]
      simp [respond_succeeded, hf]
    rw [executeThenCleanup_failed hn, hexecute, hexecute]

/-! ## The order of completions -/

def completedBy : BackendCall → Option UInt64
  | .cleanup i true => some i
  | _ => none

/-- The iterations completed on one backend object, in the order in which they were. -/
def completed (id : BackendId) (calls : List (BackendId × BackendCall)) : List UInt64 :=
  (callsOn id calls).filterMap completedBy

def InOrder (a b : UInt64) : Prop := a < b ∨ (a = 0 ∧ b = 0)

/-- What a completed iteration is to the stored one. While the pipeline is inactive an abort
may have lowered the stored iteration, but not below a completed one. -/
def Covers (st : PipelineState β) (a : UInt64) : Prop :=
  if st.active = true then InOrder a st.iteration else a ≤ st.iteration

structure Ordered (h : History β) : Prop where
  inOrder : ∀ id, (completed id h.calls).Pairwise InOrder
  covered : ∀ name st, h.provider.pipelines.lookup name = some st →
    ∀ a ∈ completed st.pipeline.id h.calls, Covers st a

section Order

variable {s t : Provider β} {calls : List (BackendId × BackendCall)} {name : String}
  {st st' : PipelineState β} {a i : UInt64}

theorem InOrder.le (h : InOrder a i) : a ≤ i := by
  rcases h with h | ⟨rfl, rfl⟩
  · exact UInt64.le_of_lt h
  · exact UInt64.le_refl _

/-- The check of `start`. -/
theorem InOrder.of_started {j : UInt64} (ha : a ≤ j) (hj : j = 0 ∨ j < i) : InOrder a i := by
  rcases hj with rfl | hj
  · have h0 : a = 0 := UInt64.le_zero_iff.mp ha
    subst h0
    by_cases hi : i = 0
    · exact Or.inr ⟨rfl, hi⟩
    · exact Or.inl (UInt64.pos_iff_ne_zero.mpr hi)
  · exact Or.inl (UInt64.lt_of_le_of_lt ha hj)

/-- An abort subtracts 1, and wraps around at 0. -/
theorem InOrder.le_pred (h : InOrder a i) : a ≤ i - 1 := by
  rcases h with h | ⟨rfl, rfl⟩
  · have hi : i ≠ 0 := by
      rintro rfl
      exact absurd h (UInt64.not_lt_zero)
    rw [UInt64.le_iff_toNat_le, toNat_pred hi]
    have := UInt64.lt_iff_toNat_lt.mp h
    omega
  · exact UInt64.zero_le

theorem Covers.active (h : Covers st a) (ha : st.active = true) : InOrder a st.iteration := by
  simpa [Covers, ha] using h

theorem Covers.inactive (h : Covers st a) (ha : st.active = false) : a ≤ st.iteration := by
  simpa [Covers, ha] using h

theorem completed_append (id : BackendId) (cs ds : List (BackendId × BackendCall)) :
    completed id (cs ++ ds) = completed id cs ++ completed id ds := by
  rw [completed, callsOn_append, List.filterMap_append]
  rfl

theorem completed_callsOf (st : PipelineState β) (cs : List BackendCall) :
    completed st.pipeline.id (callsOf st cs) = cs.filterMap completedBy := by
  rw [completed, callsOn_callsOf]

theorem completed_callsOf_ne {id : BackendId} (h : st.pipeline.id ≠ id) (cs : List BackendCall) :
    completed id (callsOf st cs) = [] := by
  rw [completed, callsOn_callsOf_ne h]
  rfl

/-- Inside an iteration nothing is completed. -/
theorem completedBy_inner {cs : List BackendCall} (h : ∀ c ∈ cs, c ∈ protocol.inner i) :
    cs.filterMap completedBy = [] := by
  rw [List.filterMap_eq_nil_iff]
  intro c hc
  rcases h c hc with ⟨args, ok, rfl⟩ | ⟨ok, rfl⟩ | rfl
  · rfl
  · rfl
  · rfl

theorem Ordered.erase (o : Ordered ⟨s, calls⟩)
    (hp : ∀ other x, t.pipelines.lookup other = some x → s.pipelines.lookup other = some x) :
    Ordered ⟨t, calls⟩ :=
  ⟨o.inOrder, fun other x hx => o.covered other x (hp other x hx)⟩

/-- The handlers that keep a pipeline registered. -/
theorem Ordered.setState (o : Ordered ⟨s, calls⟩) (d : Disciplined ⟨s, calls⟩)
    (hl : s.pipelines.lookup name = some st) (cs : List BackendCall)
    (hp : t.pipelines = s.pipelines.insert name st') (hid : st'.pipeline.id = st.pipeline.id)
    (hnew : (completed st.pipeline.id calls ++ cs.filterMap completedBy).Pairwise InOrder)
    (hcovers : ∀ a ∈ completed st.pipeline.id calls ++ cs.filterMap completedBy, Covers st' a) :
    Ordered ⟨t, calls ++ callsOf st cs⟩ where
  inOrder id := by
    rw [completed_append]
    by_cases h : st.pipeline.id = id
    · subst h
      rw [completed_callsOf]
      exact hnew
    · rw [completed_callsOf_ne h, List.append_nil]
      exact o.inOrder id
  covered other x hx := by
    rw [hp] at hx
    rw [completed_append]
    rcases lookup_insert_cases hx with ⟨-, rfl⟩ | ⟨ho, hold⟩
    · rw [hid, completed_callsOf]
      exact hcovers
    · have hne : st.pipeline.id ≠ x.pipeline.id :=
        fun he => ho (d.distinct _ _ _ _ hold hl he.symm)
      rw [completed_callsOf_ne hne, List.append_nil]
      exact o.covered other x hold

/-- Where the calls complete nothing, the stored iteration has to cover what it did. -/
theorem Ordered.setState_same (o : Ordered ⟨s, calls⟩) (d : Disciplined ⟨s, calls⟩)
    (hl : s.pipelines.lookup name = some st) {cs : List BackendCall}
    (hcs : cs.filterMap completedBy = []) (hp : t.pipelines = s.pipelines.insert name st')
    (hid : st'.pipeline.id = st.pipeline.id) (hcovers : ∀ a, Covers st a → Covers st' a) :
    Ordered ⟨t, calls ++ callsOf st cs⟩ := by
  apply o.setState d hl cs hp hid
  · rw [hcs, List.append_nil]
    exact o.inOrder _
  · rw [hcs, List.append_nil]
    exact fun a ha => hcovers a (o.covered name st hl a ha)

theorem Ordered.register (o : Ordered ⟨s, calls⟩) (d : Disciplined ⟨s, calls⟩) (name : String)
    (b : β) : Ordered ⟨s.register name b, calls⟩ where
  inOrder := o.inOrder
  covered other x hx := by
    rcases lookup_insert_cases hx with ⟨-, rfl⟩ | ⟨-, hold⟩
    · have hnew : completed s.nextBackend calls = [] := by
        rw [completed, d.unborn _ (Nat.le_refl _)]
        rfl
      intro a ha
      change a ∈ completed s.nextBackend calls at ha
      rw [hnew] at ha
      cases ha
    · exact o.covered other x hold

/-- A cleanup that succeeds completes the stored iteration. -/
theorem Ordered.cleaned (o : Ordered ⟨s, calls⟩) (d : Disciplined ⟨s, calls⟩)
    (hl : s.pipelines.lookup name = some st) (ha : st.active = true) {cs : List BackendCall}
    (hcs : ∀ c ∈ cs, c ∈ protocol.inner st.iteration) (b : β) :
    Ordered ⟨s.deactivate name (st.setBackend b),
      calls ++ callsOf st (cs ++ [.cleanup st.iteration true])⟩ := by
  have hone : (cs ++ [BackendCall.cleanup st.iteration true]).filterMap completedBy =
      [st.iteration] := by
    rw [List.filterMap_append, completedBy_inner hcs]
    rfl
  have hp : (s.deactivate name (st.setBackend b)).pipelines =
      s.pipelines.insert name { st.setBackend b with active := false } := rfl
  have hbefore (a : UInt64) (h : a ∈ completed st.pipeline.id calls) : InOrder a st.iteration :=
    (o.covered name st hl a h).active ha
  apply o.setState d hl _ hp rfl
  · rw [hone, List.pairwise_append]
    refine ⟨o.inOrder _, List.pairwise_singleton _ _, fun a h c hc => ?_⟩
    rw [List.mem_singleton.mp hc]
    exact hbefore a h
  · rw [hone]
    intro a h
    change a ≤ st.iteration
    rcases List.mem_append.mp h with h | h
    · exact (hbefore a h).le
    · rw [List.mem_singleton.mp h]
      exact UInt64.le_refl _

theorem quiet_ordered {cs : List (BackendId × BackendCall)} (o : Ordered ⟨s, calls⟩)
    (d : Disciplined ⟨s, calls⟩) (q : Quiet s t cs) : Ordered ⟨t, calls ++ cs⟩ := by
  cases q with
  | unchanged => simpa using o
  | destroyed ok hl ha =>
    have hcs : [BackendCall.destroy ok].filterMap completedBy = [] := rfl
    have hkept : Ordered ⟨s.setState _ _, calls ++ callsOf _ [.destroy ok]⟩ :=
      o.setState_same d hl hcs rfl rfl fun a h => h
    refine hkept.erase fun other x hx => ?_
    obtain ⟨ho, hx⟩ := lookup_erase_cases hx
    rw [Provider.setState, Finmap.lookup_insert_of_ne _ ho]
    exact hx
  | startFailed i b hl ha => exact o.setState_same d hl rfl rfl rfl fun a h => h
  | used b cs hl ha hc => exact o.setState_same d hl (completedBy_inner hc) rfl rfl fun a h => h
  | cleaned b cs hl ha hc => exact o.cleaned d hl ha hc b
  | aborted b hl ha =>
    exact o.setState_same d hl rfl rfl rfl fun a h => (h.active ha).le_pred
  | left h0 =>
    rw [List.append_nil]
    exact o.erase fun other x hx => by simp at hx

theorem effect_ordered {cs : List (BackendId × BackendCall)} (o : Ordered ⟨s, calls⟩)
    (d : Disciplined ⟨s, calls⟩) (e : Effect s t cs) : Ordered ⟨t, calls ++ cs⟩ := by
  cases e with
  | quiet q => exact quiet_ordered o d q
  | registered name b => simpa using o.register d name b
  | started i b hl ha hi =>
    exact o.setState_same d hl rfl rfl rfl fun a h => .of_started (h.inactive ha) hi

end Order

theorem run_ordered (token : String) (groupHash : UInt64) (addresses : List (UInt64 × NaAddr))
    (events : List (Event β)) :
    Ordered (events.foldl History.next ⟨initial token groupHash addresses, []⟩) := by
  have h : Ordered (events.foldl History.next ⟨initial token groupHash addresses, []⟩) ∧
      Disciplined (events.foldl History.next ⟨initial token groupHash addresses, []⟩) := by
    apply foldl_invariant (P := fun h => Ordered h ∧ Disciplined h)
    · rintro h e ⟨o, d⟩
      have he := process_effect e.1 h.provider e.2
      exact ⟨effect_ordered o d he, effect_disciplined d he⟩
    · exact ⟨⟨fun _ => .nil, by simp [initial]⟩, run_disciplined token groupHash addresses []⟩
  exact h.1

/-- In every run, on every backend object: an iteration that is completed later is larger,
or both are 0. -/
theorem completions_in_order (token : String) (groupHash : UInt64)
    (addresses : List (UInt64 × NaAddr)) (events : List (Event β)) (id : BackendId) :
    (completed id
      (events.foldl History.next ⟨initial token groupHash addresses, []⟩).calls).Pairwise
        fun a b => a < b ∨ (a = 0 ∧ b = 0) :=
  (run_ordered token groupHash addresses events).inOrder id

end CompletedIterations
