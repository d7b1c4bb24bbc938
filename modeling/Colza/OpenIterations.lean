import Colza.ProviderHandlers

/-!
# One pipeline through an iteration

What the handlers do with a pipeline that is ready, or active at an iteration, when the
calls on its backend object succeed.
-/
namespace OpenIterations

open Interfaces ProviderHandlers

variable {β : Type}

/-- The pipeline is inactive and can start the iteration. -/
def ReadyFor (env : Environment β) (s : Provider β) (name : String) (i : UInt64) : Prop :=
  ∃ st, s.pipelines.lookup name = some st ∧ st.active = false ∧
    (st.iteration = 0 ∨ st.iteration < i) ∧
    (env.backend.start st.pipeline.state i).1.success = true

/-- The pipeline is active at this iteration. -/
def ActiveAt (s : Provider β) (name : String) (i : UInt64) : Prop :=
  ∃ st, s.pipelines.lookup name = some st ∧ st.active = true ∧ st.iteration = i

/-- The pipeline is inactive, and this is its stored iteration. -/
def InactiveAt (s : Provider β) (name : String) (i : UInt64) : Prop :=
  ∃ st, s.pipelines.lookup name = some st ∧ st.active = false ∧ st.iteration = i

/-- Every call on a backend object succeeds. -/
structure Succeeds (backend : Backend β) : Prop where
  start : ∀ b i, (backend.start b i).1.success = true
  stage : ∀ b i args, (backend.stage b i args).1.success = true
  execute : ∀ b i, (backend.execute b i).1.success = true
  cleanup : ∀ b i, (backend.cleanup b i).1.success = true

variable {env : Environment β} {s : Provider β} {name : String} {i : UInt64}

theorem ReadyFor.start_accepted (h : ReadyFor env s name i) :
    StartAccepted env s s.groupHash name i := ⟨rfl, h⟩

theorem InactiveAt.ready (hb : Succeeds env.backend) {j : UInt64} (h : InactiveAt s name j)
    (hj : j = 0 ∨ j < i) : ReadyFor env s name i := by
  obtain ⟨st, hl, ha, rfl⟩ := h
  exact ⟨st, hl, ha, hj, hb.start _ _⟩

theorem not_activeAt_of_inactiveAt {j : UInt64} (h : InactiveAt s name j) :
    ¬ ActiveAt s name i := by
  rintro ⟨st, hl, ha, -⟩
  obtain ⟨st', hl', ha', -⟩ := h
  rw [hl] at hl'
  cases hl'
  rw [ha] at ha'
  cases ha'

theorem lookup_setState (s : Provider β) (name : String) (st : PipelineState β) :
    (s.setState name st).pipelines.lookup name = some st := Finmap.lookup_insert _

theorem activeAt_start {groupHash : UInt64} (h : StartAccepted env s groupHash name i) :
    (start env s groupHash name i).succeeded ∧
      ActiveAt (start env s groupHash name i).provider name i := by
  obtain ⟨st, r, b, -, -, -, hr, he⟩ := ProviderHandlers.start_accepted h
  rw [he]
  exact ⟨⟨r, rfl, hr⟩, _, lookup_setState .., rfl, rfl⟩

/-- The checks of the handlers pass where the pipeline is active at the iteration. -/
theorem onActive_active {st : PipelineState β} (hl : s.pipelines.lookup name = some st)
    (ha : st.active = true) (hi : st.iteration = i) (body : PipelineState β → Outcome β) :
    onActive s name i body = body st := by
  simp [ProviderHandlers.onActive, hl, ha, hi]

theorem activeAt_stage (hb : Succeeds env.backend) (h : ActiveAt s name i) (args : StageArgs) :
    (stage env s name i args).succeeded ∧ ActiveAt (stage env s name i args).provider name i := by
  obtain ⟨st, hl, ha, hi⟩ := h
  unfold stage
  rw [onActive_active hl ha hi]
  exact ⟨⟨_, rfl, hb.stage _ _ _⟩, _, lookup_setState .., ha, hi⟩

theorem activeAt_execute (hb : Succeeds env.backend) (h : ActiveAt s name i) :
    (execute env s name i false).succeeded ∧
      ActiveAt (execute env s name i false).provider name i := by
  obtain ⟨st, hl, ha, hi⟩ := h
  unfold execute
  rw [onActive_active hl ha hi]
  simp only [Bool.and_false, Bool.false_eq_true, if_false]
  exact ⟨⟨_, rfl, hb.execute _ _⟩, _, lookup_setState .., ha, hi⟩

theorem inactiveAt_cleanup (hb : Succeeds env.backend) (h : ActiveAt s name i) :
    (cleanup env s name i).succeeded ∧ InactiveAt (cleanup env s name i).provider name i := by
  obtain ⟨st, hl, ha, hi⟩ := h
  have hr := hb.cleanup st.pipeline.state i
  unfold cleanup
  rw [onActive_active hl ha hi]
  simp only [hr, if_true]
  exact ⟨⟨_, rfl, hr⟩, _, lookup_setState .., rfl, hi⟩

/-- No request changes the hash of the provider. -/
theorem process_groupHash (env : Environment β) (s : Provider β) (r : Request) :
    (process env s r).provider.groupHash = s.groupHash := by
  have he := process_effect env s r
  generalize (process env s r).provider = t at he
  generalize (process env s r).calls = cs at he
  cases he with
  | quiet hq => cases hq <;> rfl
  | registered _ _ => rfl
  | started _ _ _ _ _ => rfl

/-! ## What a request leaves as it is -/

theorem ActiveAt.congr {t : Provider β} (hp : t.pipelines = s.pipelines) (h : ActiveAt s name i) :
    ActiveAt t name i := by
  obtain ⟨st, hl, ha, hi⟩ := h
  exact ⟨st, hp ▸ hl, ha, hi⟩

theorem ActiveAt.of_insert {t : Provider β} {other : String} {st : PipelineState β}
    (hp : t.pipelines = s.pipelines.insert other st) (hne : name ≠ other)
    (h : ActiveAt s name i) : ActiveAt t name i := by
  obtain ⟨st', hl, ha, hi⟩ := h
  refine ⟨st', ?_, ha, hi⟩
  rw [hp, Finmap.lookup_insert_of_ne _ hne, hl]

/-- A start writes to an inactive pipeline only. -/
theorem start_pipelines (env : Environment β) (s : Provider β) (groupHash : UInt64)
    (name : String) (i : UInt64) :
    (start env s groupHash name i).provider.pipelines = s.pipelines ∨
    ∃ st st', s.pipelines.lookup name = some st ∧ st.active = false ∧
      (start env s groupHash name i).provider.pipelines = s.pipelines.insert name st' := by
  unfold start
  split
  · exact Or.inl rfl
  · split
    · exact Or.inl rfl
    · next st hl =>
      split
      · exact Or.inl rfl
      · next ha =>
        have ha : st.active = false := by simpa using ha
        split
        · exact Or.inl rfl
        · dsimp only
          split
          · exact Or.inr ⟨st, _, hl, ha, rfl⟩
          · exact Or.inr ⟨st, _, hl, ha, rfl⟩

/-- An iteration stays open, whatever pipeline a start is for. -/
theorem ActiveAt.start (h : ActiveAt s name i) (groupHash : UInt64) (other : String) (j : UInt64) :
    ActiveAt (ProviderHandlers.start env s groupHash other j).provider name i := by
  rcases start_pipelines env s groupHash other j with hp | ⟨st, st', hl, ha, hp⟩
  · exact h.congr hp
  · apply h.of_insert hp
    rintro rfl
    exact not_activeAt_of_inactiveAt ⟨st, hl, ha, rfl⟩ h

/-- `stage`, `execute`, `cleanup` and `abort` write to their own pipeline only. -/
theorem ActiveAt.onActive_other {body : PipelineState β → Outcome β} {other : String} {j : UInt64}
    (hbody : ∀ st, ∃ st', (body st).provider.pipelines = s.pipelines.insert other st')
    (h : ActiveAt s name i) (hne : name ≠ other) :
    ActiveAt (ProviderHandlers.onActive s other j body).provider name i := by
  rcases onActive_cases s other j body with ⟨r, hr, -⟩ | ⟨st, -, -, -, hb⟩
  · rw [hr]
    exact h
  · rw [hb]
    obtain ⟨st', hp⟩ := hbody st
    exact h.of_insert hp hne

theorem ActiveAt.abort_other (h : ActiveAt s name i) {other : String} (hne : name ≠ other)
    (j : UInt64) : ActiveAt (abort env s other j).provider name i := by
  apply h.onActive_other _ hne
  intro st
  exact ⟨_, rfl⟩

theorem ActiveAt.cleanup_other (h : ActiveAt s name i) {other : String} (hne : name ≠ other)
    (j : UInt64) : ActiveAt (cleanup env s other j).provider name i := by
  apply h.onActive_other _ hne
  intro st
  dsimp only
  split
  · exact ⟨_, rfl⟩
  · exact ⟨_, rfl⟩

theorem abort_succeeded (h : ActiveAt s name i) : (abort env s name i).reply = some {} := by
  obtain ⟨st, hl, ha, hi⟩ := h
  unfold abort
  rw [onActive_active hl ha hi]

/-- A cleanup that does not succeed leaves the iteration open. -/
theorem cleanup_failed {r : RequestResult Int32} (h : ActiveAt s name i)
    (hr : (cleanup env s name i).reply = some r) (hf : r.success = false) :
    ActiveAt (cleanup env s name i).provider name i := by
  obtain ⟨st, hl, ha, hi⟩ := h
  unfold cleanup at hr ⊢
  rw [onActive_active hl ha hi] at hr ⊢
  cases hs : (env.backend.cleanup st.pipeline.state i).1.success with
  | true =>
    simp only [hs, if_true, Option.some.injEq] at hr
    rw [← hr, hs] at hf
    cases hf
  | false =>
    simp only [hs, Bool.false_eq_true, if_false]
    exact ⟨_, lookup_setState .., ha, hi⟩

end OpenIterations
