import Colza.LeaveWakeups
import Colza.ProviderRuns
import Colza.SerialRequests

/-!
# Suspended handlers beside requests handled one at a time

Where no request overlaps another one of its pipeline, blocks being staged aside, and no leave
goes ahead between the checks of a start and its increment, a suspended handler finds the
flags of its pipeline as it left them. The provider of `ProviderHandlers` then differs only in
the starts that are counted already.
-/
namespace SerialHandlers

open Interfaces FiniteCounts CommitPoints ProviderInterleaving CounterRaces SoloRuns
open RequestEffects SerialRequests
open ProviderHandlers (Provider PipelineState Environment process respond onActive badToken)
open ProviderRuns (Balanced)
open LeaveWakeups (running running_wake)

variable {β : Type} {n : ℕ}

/-! ## Requests that do not overlap -/

def pipelineOf : Handler → Option String
  | .start _ name _ | .stage name _ | .execute name _ _ | .cleanup name _ | .abort name _ |
    .destroyPipeline _ name => some name
  | .leave => none

def isStage : Handler → Bool
  | .stage _ _ => true
  | _ => false

/-- Two requests of one pipeline, other than two blocks that are staged. -/
def Conflicts (g h : Handler) : Prop :=
  pipelineOf g ≠ none ∧ pipelineOf g = pipelineOf h ∧ (isStage g && isStage h) = false

instance (g h : Handler) : Decidable (Conflicts g h) := inferInstanceAs (Decidable (_ ∧ _ ∧ _))

def isStarting : Pc → Bool
  | .starting _ _ => true
  | _ => false

/-- No request that conflicts with this one is running. -/
def Free (a : Arrivals n) (s : State n) (k : Fin n) : Prop :=
  ∀ j, j ≠ k → Conflicts (a.handlers j) (a.handlers k) → running (s.pc j) = false

instance (a : Arrivals n) (s : State n) (k : Fin n) : Decidable (Free a s k) :=
  inferInstanceAs (Decidable (∀ _, _ → _ → _))

/-- A request begins while it is free to, and leave goes ahead while no start is between its
checks and its increment. -/
def Apart (a : Arrivals n) (s : State n) : Event n → Prop
  | .acquire k =>
    (s.pc k = .arrived (a.handlers k) → Free a s k) ∧
    (Leaving s k → s.numActivePipelines = 0 → ∀ j, isStarting (s.pc j) = false)
  | _ => True

instance (s : State n) (k : Fin n) : Decidable (Leaving s k) := inferInstanceAs (Decidable (_ ∨ _))

instance (a : Arrivals n) (s : State n) : (e : Event n) → Decidable (Apart a s e)
  | .acquire _ => inferInstanceAs (Decidable (_ ∧ _))
  | .returns _ _ | .notify _ | .wake _ => inferInstanceAs (Decidable True)

/-! ## A handler relies on what it has found -/

/-- The handler may be suspended there, with the flags of its pipeline as it found them and these
results of its calls on the backend object. -/
inductive Fits (c : Config) (find : String → Option PipelineFlags)
    (executed result : RequestResult Int32) : Handler → Pc → Prop where
  | arrived (h) : Fits c find executed result h (.arrived h)
  | starting {name i st} : find name = some st → st.active = false →
      (st.iteration = 0 ∨ st.iteration < i) →
      Fits c find executed result (.start c.groupHash name i) (.starting name i)
  | inStart {name i st} : find name = some st → st.active = false →
      (st.iteration = 0 ∨ st.iteration < i) →
      Fits c find executed result (.start c.groupHash name i) (.inBackend name (.start i))
  | opened {h name i call} : h.opens = some (name, i, call) → find name = some ⟨true, i⟩ →
      Fits c find executed result h (.inBackend name call)
  | autoCleanup {name i} : executed.success = true → find name = some ⟨true, i⟩ →
      Fits c find executed result (.execute name i true) (.inBackend name (.cleanup i true))
  | cleaned {h name i} : h = .cleanup name i ∨ h = .execute name i true ∧ executed.success = true →
      result.success = true → find name = some ⟨true, i⟩ →
      Fits c find executed result h (.cleaned name)
  | aborted {name i} : find name = some ⟨true, i⟩ →
      Fits c find executed result (.abort name i) (.aborted name)
  | inDestroy {token name st} : ¬ c.Refuses token → find name = some st → st.active = false →
      Fits c find executed result (.destroyPipeline token name) (.inBackend name .destroy)
  | waiting : Fits c find executed result .leave .waiting
  | woken : Fits c find executed result .leave .woken
  | ended (h) {q} : q = .startFailed ∨ q = .notifying ∨ q = .done →
      Fits c find executed result h q

/-- The handler of a request is suspended where it may be. -/
def FitsAt (c : Config) (a : Arrivals n) (find : String → Option PipelineFlags) (k : Fin n)
    (q : Pc) : Prop :=
  Fits c find (a.executed k) (a.result k) (a.handlers k) q

/-- The two systems agree, but for the starts that are counted already. -/
structure Serial (c : Config) (a : Arrivals n) (s : State n) (p : Provider β) : Prop where
  token : c.token = p.token
  groupHash : c.groupHash = p.groupHash
  counter : s.numActivePipelines = p.numActivePipelines + UInt64.ofNat (startsCounted s)
  leaves : s.groupLeaves = p.groupLeaves
  pipelines : ∀ name, s.find name = (p.pipelines.lookup name).map flagsOf
  fits : ∀ k, FitsAt c a s.find k (s.pc k)
  alone : ∀ j k, j ≠ k → Conflicts (a.handlers j) (a.handlers k) → running (s.pc j) = true →
    running (s.pc k) = false
  locked : ∀ k name, s.pc k = .inBackend name .destroy → s.lock = some k
  balanced : Balanced p
  room : p.pipelines.keys.card + n < 2 ^ 64

section Relying

variable {c : Config} {find find' : String → Option PipelineFlags}
  {executed result : RequestResult Int32} {h : Handler} {q : Pc}

theorem pipelineOf_opens {name : String} {i : UInt64} {call : Call}
    (ho : h.opens = some (name, i, call)) : pipelineOf h = some name := by
  cases h <;> cases ho <;> rfl

/-- A handler looks at its own pipeline only. -/
theorem Fits.congr (hf : Fits c find executed result h q)
    (heq : ∀ name, pipelineOf h = some name → find' name = find name) :
    Fits c find' executed result h q := by
  cases hf with
  | arrived => exact .arrived h
  | starting hl ha hi => exact .starting ((heq _ rfl).trans hl) ha hi
  | inStart hl ha hi => exact .inStart ((heq _ rfl).trans hl) ha hi
  | opened ho hl => exact .opened ho ((heq _ (pipelineOf_opens ho)).trans hl)
  | autoCleanup hx hl => exact .autoCleanup hx ((heq _ rfl).trans hl)
  | cleaned hh hr hl =>
    refine .cleaned hh hr ((heq _ ?_).trans hl)
    rcases hh with rfl | ⟨rfl, -⟩ <;> rfl
  | aborted hl => exact .aborted ((heq _ rfl).trans hl)
  | inDestroy ht hl ha => exact .inDestroy ht ((heq _ rfl).trans hl) ha
  | waiting => exact .waiting
  | woken => exact .woken
  | ended _ hq => exact .ended h hq

theorem Fits.of_not_running (hf : Fits c find executed result h q) (hq : running q = false) :
    Fits c find' executed result h q := by
  cases hf with
  | arrived => exact .arrived h
  | ended _ hq => exact .ended h hq
  | _ => cases hq

theorem Fits.wake (hf : Fits c find executed result h q) :
    Fits c find executed result h q.wake := by
  cases q with
  | waiting =>
    cases hf with
    | waiting => exact .woken
    | ended _ hq => rcases hq with hq | hq | hq <;> cases hq
  | _ => exact hf

theorem conflicts_of_pipelineOf {g : Handler} {name : String} (hg : pipelineOf g = some name)
    (hh : pipelineOf h = some name) (hs : isStage h = false) : Conflicts g h := by
  refine ⟨by simp [hg], hg.trans hh.symm, ?_⟩
  rw [hs, Bool.and_false]

theorem Conflicts.symm {g : Handler} (hc : Conflicts g h) : Conflicts h g :=
  ⟨hc.2.1 ▸ hc.1, hc.2.1.symm, (Bool.and_comm ..).trans hc.2.2⟩

end Relying

/-! ## One event -/

section Steps

variable {c : Config} {a : Arrivals n} {env : Fin n → Environment β} {s t : State n}
  {p o : Provider β} {k : Fin n} {q : Pc}

theorem keys_setState {name : String} {st : PipelineState β}
    (hl : p.pipelines.lookup name = some st) (u : PipelineState β) :
    (p.setState name u).pipelines.keys = p.pipelines.keys := by
  ext other
  change other ∈ (p.pipelines.insert name u).keys ↔ _
  simp only [Finmap.mem_keys, Finmap.mem_insert]
  refine or_iff_right_of_imp ?_
  rintro rfl
  exact Finmap.mem_of_lookup_eq_some hl

theorem FitsAt.of {find : String → Option PipelineFlags} {g : Handler} (hg : a.handlers k = g)
    (hf : Fits c find (a.executed k) (a.result k) g q) : FitsAt c a find k q := by
  rw [← hg] at hf
  exact hf

theorem Serial.fits_of (h : Serial c a s p) (hk : s.pc k = q) :
    Fits c s.find (a.executed k) (a.result k) (a.handlers k) q := by
  rw [← hk]
  exact h.fits k

/-- The handlers of other pipelines, and those that have not begun or have ended. -/
theorem Serial.others (h : Serial c a s p) {find : String → Option PipelineFlags} {name : String}
    (hk : pipelineOf (a.handlers k) = some name) (hs : isStage (a.handlers k) = false)
    (hrun : running (s.pc k) = true) (heq : ∀ other, other ≠ name → find other = s.find other)
    {j : Fin n} (hj : j ≠ k) : FitsAt c a find j (s.pc j) := by
  by_cases hp : pipelineOf (a.handlers j) = some name
  · have hc := conflicts_of_pipelineOf hp hk hs
    exact (h.fits j).of_not_running (h.alone k j hj.symm hc.symm hrun)
  · refine (h.fits j).congr fun other ho => heq other ?_
    rintro rfl
    exact hp ho

/-- Handler `k` moves, and the provider with it. -/
theorem Serial.advance (h : Serial c a s p) (hpc : t.pc = (s.goto k q).pc)
    (hbegin : running q = true → running (s.pc k) = true ∨ Free a s k)
    (htoken : o.token = p.token) (hhash : o.groupHash = p.groupHash)
    (hcounter : t.numActivePipelines = o.numActivePipelines + UInt64.ofNat (startsCounted t))
    (hleaves : t.groupLeaves = o.groupLeaves)
    (hpipelines : ∀ name, t.find name = (o.pipelines.lookup name).map flagsOf)
    (hothers : ∀ j, j ≠ k → FitsAt c a t.find j (s.pc j))
    (hq : FitsAt c a t.find k q)
    (hlocked : ∀ j name, t.pc j = .inBackend name .destroy → t.lock = some j)
    (hbalanced : Balanced o) (hroom : o.pipelines.keys.card ≤ p.pipelines.keys.card) :
    Serial c a t o where
  token := h.token.trans htoken.symm
  groupHash := h.groupHash.trans hhash.symm
  counter := hcounter
  leaves := hleaves
  pipelines := hpipelines
  fits j := by
    rw [hpc]
    by_cases hj : j = k
    · rwa [hj, goto_pc_self]
    · rw [goto_pc_of_ne s q hj]
      exact hothers j hj
  alone i j hij hc hi := by
    rw [hpc] at hi ⊢
    by_cases hik : i = k
    · subst hik
      rw [goto_pc_self] at hi
      rw [goto_pc_of_ne s q hij.symm]
      rcases hbegin hi with hrun | hfree
      · exact h.alone i j hij hc hrun
      · exact hfree j hij.symm hc.symm
    · rw [goto_pc_of_ne s q hik] at hi
      by_cases hjk : j = k
      · subst hjk
        rw [goto_pc_self]
        cases hnext : running q with
        | false => rfl
        | true =>
          rcases hbegin hnext with hrun | hfree
          · exact absurd hrun (by simp [h.alone i j hij hc hi])
          · exact absurd hi (by simp [hfree i hij hc])
      · rw [goto_pc_of_ne s q hjk]
        exact h.alone i j hij hc hi
  locked := hlocked
  balanced := hbalanced
  room := lt_of_le_of_lt (Nat.add_le_add_right hroom n) h.room

theorem Serial.locked_goto (h : Serial c a s p) (hq : ∀ name, q ≠ .inBackend name .destroy)
    {j : Fin n} {name : String} (hj : (s.goto k q).pc j = .inBackend name .destroy) :
    s.lock = some j := by
  by_cases hjk : j = k
  · rw [hjk, goto_pc_self] at hj
    exact (hq name hj).elim
  · rw [goto_pc_of_ne s q hjk] at hj
    exact h.locked j name hj

/-- Handler `k` moves, and nothing else. -/
theorem Serial.goto (h : Serial c a s p) (hq : FitsAt c a s.find k q)
    (hcount : counted q = counted (s.pc k)) (hdestroy : ∀ name, q ≠ .inBackend name .destroy)
    (hbegin : running q = true → running (s.pc k) = true ∨ Free a s k) :
    Serial c a (s.goto k q) p := by
  refine h.advance (o := p) rfl hbegin rfl rfl ?_ h.leaves h.pipelines (fun j _ => h.fits j) hq ?_
    h.balanced le_rfl
  · rw [startsCounted_goto_same hcount]
    exact h.counter
  · exact fun j name hj => h.locked_goto hdestroy hj

/-- Handler `k` assigns the flags of its pipeline, and relies on them no more. -/
theorem Serial.assign (h : Serial c a s p) {name : String} {st : PipelineState β}
    {u : PipelineState β} {counter : UInt64}
    (hk : pipelineOf (a.handlers k) = some name) (hs : isStage (a.handlers k) = false)
    (hrun : running (s.pc k) = true) (hl : p.pipelines.lookup name = some st)
    (hq : q = .notifying ∨ q = .done)
    (hpc : t.pc = (s.goto k q).pc) (hstate : t.state = (s.setState name (flagsOf u)).state)
    (hregistered : t.registered = s.registered) (hlock : t.lock = s.lock)
    (hleaves : t.groupLeaves = s.groupLeaves)
    (hcounter : t.numActivePipelines = counter + UInt64.ofNat (startsCounted t))
    (hbalanced : Balanced { p.setState name u with numActivePipelines := counter }) :
    Serial c a t { p.setState name u with numActivePipelines := counter } := by
  have hr : name ∈ s.registered := by
    have hf := h.pipelines name
    rw [hl] at hf
    exact (find_some hf).1
  have hfind (other : String) : t.find other =
      ((p.setState name u).pipelines.lookup other).map flagsOf := by
    change _ = ((p.pipelines.insert name u).lookup other).map flagsOf
    unfold State.find
    rw [hregistered, hstate]
    by_cases ho : other = name
    · subst ho
      rw [if_pos hr, setState_self, Finmap.lookup_insert]
      rfl
    · rw [setState_of_ne s _ ho, Finmap.lookup_insert_of_ne _ ho]
      exact h.pipelines other
  refine h.advance hpc (fun _ => Or.inl hrun) rfl rfl hcounter (hleaves.trans h.leaves) hfind
    ?_ ?_ ?_ hbalanced ?_
  · intro j hj
    refine h.others hk hs hrun (fun other ho => ?_) hj
    rw [hfind, h.pipelines]
    change ((p.pipelines.insert name u).lookup other).map flagsOf = _
    rw [Finmap.lookup_insert_of_ne _ ho]
  · refine .ended _ ?_
    rcases hq with rfl | rfl <;> simp
  · intro j other hj
    rw [hpc] at hj
    rw [hlock]
    refine h.locked_goto (fun _ => ?_) hj
    rcases hq with rfl | rfl <;> exact Pc.noConfusion
  · exact (congrArg Finset.card (keys_setState hl u)).le

/-- Another state of a backend object makes no difference. -/
theorem Serial.setBackend (h : Serial c a s p) {name : String} {st : PipelineState β}
    (hl : p.pipelines.lookup name = some st) (b : β) :
    Serial c a s (p.setState name (st.setBackend b)) where
  token := h.token
  groupHash := h.groupHash
  counter := h.counter
  leaves := h.leaves
  pipelines other := by
    change s.find other = ((p.pipelines.insert name (st.setBackend b)).lookup other).map flagsOf
    by_cases ho : other = name
    · rw [ho, Finmap.lookup_insert, h.pipelines, hl]
      rfl
    · rw [Finmap.lookup_insert_of_ne _ ho, h.pipelines]
  fits := h.fits
  alone := h.alone
  locked := h.locked
  balanced := by
    cases ha : st.active with
    | true => exact ProviderRuns.quiet_balanced h.balanced (.used b [] hl ha (by simp))
    | false => exact ProviderRuns.quiet_balanced h.balanced (.startFailed 0 b hl ha)
  room := by
    have hkeys : (p.setState name (st.setBackend b)).pipelines.keys = p.pipelines.keys :=
      keys_setState hl (st.setBackend b)
    rw [hkeys]
    exact h.room

/-- The event keeps the two systems in agreement, and what takes effect has its response. -/
def Advances (c : Config) (a : Arrivals n) (env : Fin n → Environment β) (s : State n)
    (p : Provider β) (e : Event n) : Prop :=
  Serial c a (next c s e) (performed (perform a env) p (commit c a s e)) ∧
    ∀ x, commit c a s e = some x → Answers a env p x

theorem advances_silent {e : Event n} (hstep : step c s e = some t) (hc : commit c a s e = none)
    (ht : Serial c a t p) : Advances c a env s p e := by
  unfold Advances
  rw [next_of_step hstep, hc]
  exact ⟨ht, fun x hx => by cases hx⟩

theorem advances_commit {e : Event n} {r : Option (RequestResult Int32)}
    (hstep : step c s e = some t) (hc : commit c a s e = some ⟨k, r⟩)
    (hy : Yields (process (env k) p (request a k)) o r)
    (hleave : a.handlers k = .leave → p.numActivePipelines = 0) (ht : Serial c a t o) :
    Advances c a env s p e := by
  unfold Advances
  rw [next_of_step hstep, hc]
  refine ⟨?_, fun x hx => ?_⟩
  · change Serial c a t (process (env k) p (request a k)).provider
    rw [hy.provider]
    exact ht
  · obtain rfl := Option.some.inj hx
    exact ⟨hy.reply, hleave⟩

theorem Serial.lookup (h : Serial c a s p) {name : String} {st : PipelineFlags}
    (hf : s.find name = some st) :
    ∃ st', p.pipelines.lookup name = some st' ∧ st'.active = st.active ∧
      st'.iteration = st.iteration := by
  rw [h.pipelines] at hf
  obtain ⟨st', hl, rfl⟩ := Option.map_eq_some_iff.mp hf
  exact ⟨st', hl, rfl, rfl⟩

theorem Serial.missing (h : Serial c a s p) {name : String}
    (hl : p.pipelines.lookup name = none) : s.find name = none := by
  rw [h.pipelines, hl]
  rfl

theorem Serial.found (h : Serial c a s p) {name : String} {st : PipelineState β}
    (hl : p.pipelines.lookup name = some st) : s.find name = some (flagsOf st) := by
  rw [h.pipelines, hl]
  rfl

/-- A refused handler has its response at once. -/
theorem Serial.refused (h : Serial c a s p) (hg : a.handlers k ≠ .leave)
    (hk : s.pc k = .arrived (a.handlers k)) (hstep : step c s (.acquire k) = some (s.goto k .done))
    {r : RequestResult Int32} (hr : refusal c s (a.handlers k) = some r) :
    Advances c a env s p (.acquire k) := by
  have hp : process (env k) p (request a k) = respond p r :=
    process_refused (env k) (a.args k) h.token h.groupHash h.pipelines hr
  have hcommit : commit c a s (.acquire k) = some ⟨k, some r⟩ := by
    rw [commit_arrived a hg hk hstep, hr]
    rfl
  refine advances_commit (o := p) hstep hcommit (hp ▸ ⟨rfl, rfl⟩) (fun hl => (hg hl).elim) ?_
  refine h.goto (.ended _ (Or.inr (Or.inr rfl))) ?_ (fun _ => Pc.noConfusion) Bool.noConfusion
  rw [hk]
  rfl

/-- The first segment of a handler that goes on. -/
theorem Serial.begins (h : Serial c a s p) (hfree : Free a s k) (hg : a.handlers k ≠ .leave)
    (hk : s.pc k = .arrived (a.handlers k)) (hstep : step c s (.acquire k) = some (s.goto k q))
    (hr : refusal c s (a.handlers k) = none) (hq : FitsAt c a s.find k q)
    (hcount : counted q = false) (hdestroy : ∀ name, q ≠ .inBackend name .destroy) :
    Advances c a env s p (.acquire k) := by
  refine advances_silent hstep ?_ (h.goto hq ?_ hdestroy fun _ => Or.inr hfree)
  · rw [commit_arrived a hg hk hstep, hr]
    rfl
  · rw [hcount, hk]
    rfl

theorem Serial.opens (h : Serial c a s p) (hfree : Free a s k) {name : String} {i : UInt64}
    {call : Call} (ho : (a.handlers k).opens = some (name, i, call))
    (hf : s.find name = some ⟨true, i⟩) (hk : s.pc k = .arrived (a.handlers k))
    (hstep : step c s (.acquire k) = some (s.goto k (.inBackend name call))) :
    Advances c a env s p (.acquire k) := by
  refine h.begins hfree ?_ hk hstep (refusal_opened ho hf) (.opened ho hf) ?_ ?_
  · intro hg
    rw [hg] at ho
    cases ho
  · generalize a.handlers k = g at ho
    cases g <;> cases ho <;> rfl
  · intro other he
    cases he
    generalize a.handlers k = g at ho
    cases g <;> cases ho

theorem Serial.destroy_begins (h : Serial c a s p) (hfree : Free a s k) {token name : String}
    {st : PipelineFlags} (hh : a.handlers k = .destroyPipeline token name)
    (ht : ¬ c.Refuses token) (hlock : s.lock = none) (hf : s.find name = some st)
    (ha : st.active = false) (hk : s.pc k = .arrived (.destroyPipeline token name))
    (hstep : step c s (.acquire k) = some { s.goto k (.inBackend name .destroy) with
      lock := some k, destroyed := insert name s.destroyed }) :
    Advances c a env s p (.acquire k) := by
  have hgo : Serial c a { s with lock := some k, destroyed := insert name s.destroyed } p := by
    refine ⟨h.token, h.groupHash, h.counter, h.leaves, h.pipelines, h.fits, h.alone, ?_,
      h.balanced, h.room⟩
    intro j other hj
    have hheld := h.locked j other hj
    rw [hlock] at hheld
    cases hheld
  refine advances_silent hstep ?_ (hgo.advance (k := k) (q := .inBackend name .destroy)
    (o := p) rfl (fun _ => Or.inr hfree) rfl rfl ?_ h.leaves h.pipelines
    (fun j _ => h.fits j) ?_ ?_ h.balanced le_rfl)
  · rw [commit_arrived a Handler.noConfusion hk hstep, refusal_destroying ht hf ha]
    rfl
  · change s.numActivePipelines = _ + UInt64.ofNat (startsCounted (s.goto k _))
    rw [startsCounted_goto_same (by rw [hk]; rfl)]
    exact h.counter
  · exact .of hh (.inDestroy ht hf ha)
  · intro j other hj
    by_cases hjk : j = k
    · rw [hjk]
    · change (s.goto k _).pc j = _ at hj
      rw [goto_pc_of_ne s _ hjk] at hj
      have hheld := h.locked j other hj
      rw [hlock] at hheld
      cases hheld

/-- While nothing is counted, no pipeline is active and no counted start is running. -/
theorem Serial.none_counted (h : Serial c a s p) (h0 : s.numActivePipelines = 0) :
    p.numActivePipelines = 0 ∧ startsCounted s = 0 ∧ ProviderRuns.NoneActive p := by
  have hstarts : startsCounted s ≤ n := by
    rw [LeaveWakeups.startsCounted_eq]
    exact (Finset.card_filter_le _ _).trans (by simp)
  have hactive : ProviderRuns.activeCount p ≤ p.pipelines.keys.card := Finset.card_filter_le _ _
  have hroom := h.room
  have hbalanced : p.numActivePipelines.toNat = ProviderRuns.activeCount p := h.balanced
  have hsum : (p.numActivePipelines.toNat + startsCounted s) % 2 ^ 64 = 0 := by
    have hcounter := congrArg UInt64.toNat (h.counter.symm.trans h0)
    rw [UInt64.toNat_add, UInt64.toNat_ofNat'] at hcounter
    simpa using hcounter
  rw [Nat.mod_eq_of_lt (by omega)] at hsum
  have hzero : p.numActivePipelines.toNat = 0 := by omega
  refine ⟨UInt64.toNat_inj.mp hzero, by omega, ?_⟩
  rw [← ProviderRuns.activeCount_eq_zero]
  omega

/-- Where nothing is active, no handler relies on a pipeline that leave removes. -/
theorem Serial.fits_after_leave (h : Serial c a s p) (h0 : s.numActivePipelines = 0)
    (hlock : s.lock = none) (hstarting : ∀ j, isStarting (s.pc j) = false)
    (find : String → Option PipelineFlags) (j : Fin n) : FitsAt c a find j (s.pc j) := by
  obtain ⟨-, hcount, hnone⟩ := h.none_counted h0
  have hinactive {name : String} {i : UInt64} (hf : s.find name = some ⟨true, i⟩) : False := by
    obtain ⟨st, hl, ha, -⟩ := h.lookup hf
    rw [hnone name st hl] at ha
    cases ha
  have huncounted : counted (s.pc j) = false := by
    rw [startsCounted, tally_eq_zero] at hcount
    simpa using hcount j (Finset.mem_univ j)
  have hunlocked (name : String) : s.pc j ≠ .inBackend name .destroy := by
    intro hj
    have hheld := h.locked j name hj
    rw [hlock] at hheld
    cases hheld
  have hs := hstarting j
  have hf := h.fits j
  unfold FitsAt at hf ⊢
  generalize a.handlers j = g at hf ⊢
  generalize s.pc j = q at hf huncounted hunlocked hs ⊢
  cases hf with
  | arrived => exact .arrived g
  | starting _ _ _ => cases hs
  | inStart _ _ _ => cases huncounted
  | opened _ hf => exact (hinactive hf).elim
  | autoCleanup _ hf => exact (hinactive hf).elim
  | cleaned _ _ hf => exact (hinactive hf).elim
  | aborted hf => exact (hinactive hf).elim
  | inDestroy _ _ _ => exact (hunlocked _ rfl).elim
  | waiting => exact .waiting
  | woken => exact .woken
  | ended _ hq => exact .ended g hq

theorem Serial.leave (h : Serial c a s p) (hg : Apart a s (.acquire k))
    (hh : a.handlers k = .leave) (hk : Leaving s k) (hlock : s.lock = none) :
    Advances c a env s p (.acquire k) := by
  have hstep : step c s (.acquire k) = some (s.leave k) := by
    rcases hk with hk | hk <;> simp [step, State.acquire, State.enter, hk, hlock]
  have hcommit : commit c a s (.acquire k) =
      if s.numActivePipelines = 0 then some ⟨k, none⟩ else none := by
    rcases hk with hk | hk <;> simp only [commit, hstep, hk]
  have hpc : counted (s.pc k) = false := by
    rcases hk with hk | hk <;> rw [hk] <;> rfl
  unfold State.leave at hstep
  by_cases h0 : s.numActivePipelines = 0
  · obtain ⟨hp0, -, hnone⟩ := h.none_counted h0
    rw [if_pos h0] at hcommit
    rw [if_neg (not_not.mpr h0)] at hstep
    refine advances_commit hstep hcommit (o := { p with
      groupLeaves := p.groupLeaves + 1, pipelines := ∅ }) ?_ (fun _ => hp0) ?_
    · simp only [request, hh, requestOf, process]
      exact leave_yields hp0
    · refine h.advance (k := k) (q := .done) rfl Bool.noConfusion rfl rfl ?_
        (congrArg (· + 1) h.leaves) (fun name => by simp [State.find])
        (fun j _ => h.fits_after_leave h0 hlock (hg.2 hk h0) _ j)
        (.ended _ (Or.inr (Or.inr rfl))) ?_ ?_ (Nat.zero_le _)
      · change s.numActivePipelines = _ + UInt64.ofNat (startsCounted (s.goto k .done))
        rw [startsCounted_goto_same (q := .done) hpc.symm]
        exact h.counter
      · exact fun j name hj => h.locked_goto (fun _ => Pc.noConfusion) hj
      · change p.numActivePipelines.toNat = countEntries _ ∅
        rw [countEntries_empty, hp0]
        rfl
  · rw [if_neg h0] at hcommit
    rw [if_pos h0] at hstep
    refine advances_silent hstep hcommit (h.goto ?_ hpc.symm (fun _ => Pc.noConfusion) fun _ => ?_)
    · exact .of hh .waiting
    · rcases hk with hk | hk
      · exact Or.inr (hg.1 (by rw [hk, hh]))
      · exact Or.inl (by rw [hk]; rfl)

theorem Serial.arrived (h : Serial c a s p) (hg : Apart a s (.acquire k)) {g : Handler}
    (hk : s.pc k = .arrived g) (hstep : step c s (.acquire k) = some t) :
    Advances c a env s p (.acquire k) := by
  obtain rfl : a.handlers k = g := by
    have hf := h.fits_of hk
    generalize a.handlers k = g' at hf ⊢
    cases hf with
    | arrived => rfl
    | ended _ hq => rcases hq with hq | hq | hq <;> cases hq
  have hfree := hg.1 hk
  have henter : s.enter c k (a.handlers k) = some t := by
    simpa only [step, State.acquire, hk] using hstep
  by_cases hleave : a.handlers k = .leave
  · rw [hleave] at henter hk
    exact h.leave hg hleave (Or.inl hk) (unlocked henter).1
  generalize hh : a.handlers k = g at henter
  cases enter_entered (hh ▸ hleave) henter with
  | refused hr =>
    exact h.refused hleave hk hstep (hh ▸ hr)
  | starting hf ha hi =>
    refine h.begins hfree hleave hk hstep (hh ▸ refusal_start hf ha hi) ?_ rfl
      fun _ => Pc.noConfusion
    exact .of hh (.starting hf ha hi)
  | opened ho hf => exact h.opens hfree (hh ▸ ho) hf hk hstep
  | destroying ht hlock hf ha =>
    exact h.destroy_begins hfree hh ht hlock hf ha (hh ▸ hk) hstep

/-- Handler `k` moves on without taking effect. -/
theorem Serial.moves (h : Serial c a s p) {e : Event n} (hstep : step c s e = some (s.goto k q))
    (hc : commit c a s e = none) (hq : FitsAt c a s.find k q)
    (hcount : counted q = counted (s.pc k)) (hdestroy : ∀ name, q ≠ .inBackend name .destroy)
    (hrun : running (s.pc k) = true) : Advances c a env s p e :=
  advances_silent hstep hc (h.goto hq hcount hdestroy fun _ => Or.inl hrun)

/-- Handler `k` responds, and the flags of its pipeline stay as they are. -/
theorem Serial.answers (h : Serial c a s p) {e : Event n} {name : String} {st : PipelineState β}
    {r : Option (RequestResult Int32)} (hname : pipelineOf (a.handlers k) = some name)
    (hl : p.pipelines.lookup name = some st) (hstep : step c s e = some (s.goto k q))
    (hc : commit c a s e = some ⟨k, r⟩)
    (hy : ∃ b, Yields (process (env k) p (request a k)) (p.setState name (st.setBackend b)) r)
    (hq : q = .startFailed ∨ q = .notifying ∨ q = .done) (hcount : counted q = counted (s.pc k))
    (hrun : running (s.pc k) = true) : Advances c a env s p e := by
  obtain ⟨b, hy⟩ := hy
  refine advances_commit hstep hc hy (fun hleave => ?_)
    ((h.setBackend hl b).goto (.ended _ hq) hcount ?_ fun _ => Or.inl hrun)
  · rw [hleave] at hname
    cases hname
  · intro other
    rcases hq with rfl | rfl | rfl <;> exact Pc.noConfusion

theorem Serial.agrees (h : Serial c a s p) (h0 : startsCounted s = 0) : Agrees c s p where
  token := h.token
  groupHash := h.groupHash
  counter := by
    rw [h.counter, h0]
    exact UInt64.add_zero _
  leaves := h.leaves
  pipelines := h.pipelines

end Steps

end SerialHandlers
