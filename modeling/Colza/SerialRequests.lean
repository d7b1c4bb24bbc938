import Colza.RequestEffects
import Colza.OpenIterations
import Colza.SoloRuns

/-!
# The same requests with nothing in between

What each request does to the provider, and answers, where the calls on the backend object
return what they return to a suspended handler. A request that is refused is refused whatever the
backend.
-/
namespace SerialRequests

open Interfaces ProviderInterleaving RequestEffects SoloRuns
open ProviderHandlers (Provider PipelineState Environment Request process respond onActive badToken)

variable {β : Type} {n : ℕ}

/-- A backend class whose calls have these results, whatever the object and its state. -/
structure Returns (env : Environment β) (executed result : RequestResult Int32) : Prop where
  start : ∀ b i, (env.backend.start b i).1 = result
  stage : ∀ b i args, (env.backend.stage b i args).1 = result
  execute : ∀ b i, (env.backend.execute b i).1 = executed
  cleanup : ∀ b i, (env.backend.cleanup b i).1 = result
  destroy : ∀ b, (env.backend.destroy b).1 = result

def request (a : Arrivals n) (k : Fin n) : Request := requestOf (a.args k) (a.handlers k)

/-- A request that is handled with nothing in between. -/
def perform (a : Arrivals n) (env : Fin n → Environment β) (p : Provider β) (x : Effect n) :
    Provider β :=
  (process (env x.handler) p (request a x.handler)).provider

/-- It has this response, and a leave does not wait. -/
def Answers (a : Arrivals n) (env : Fin n → Environment β) (p : Provider β) (x : Effect n) :
    Prop :=
  (process (env x.handler) p (request a x.handler)).reply = x.reply ∧
    (a.handlers x.handler = .leave → p.numActivePipelines = 0)

/-- The handler leaves this provider, and responds this. -/
structure Yields (o : ProviderHandlers.Outcome β) (p : Provider β)
    (reply : Option (RequestResult Int32)) : Prop where
  provider : o.provider = p
  reply : o.reply = reply

/-! ## Requests that are refused -/

section Refusals

variable {c : Config} {s : State n} {p : Provider β} {g : Handler} {r : RequestResult Int32}

theorem process_opens {name : String} {i : UInt64} {call : Call}
    (ho : g.opens = some (name, i, call)) (env : Environment β) (args : StageArgs) :
    ∃ body, process env p (requestOf args g) = onActive p name i body := by
  cases g <;> cases ho <;> exact ⟨_, rfl⟩

theorem onActive_refused {name : String} {i : UInt64}
    (hr : refusalInside name i ((p.pipelines.lookup name).map flagsOf) = some r)
    (body : PipelineState β → ProviderHandlers.Outcome β) :
    onActive p name i body = respond p r := by
  unfold onActive
  cases hl : p.pipelines.lookup name with
  | none =>
    rw [hl] at hr
    rw [← Option.some.inj hr]
  | some st =>
    rw [hl] at hr
    simp only [refusalInside, Option.map_some, Option.elim_some, flagsOf] at hr
    by_cases ha : st.active = true
    · by_cases hi : st.iteration = i
      · simp [ha, hi] at hr
      · simp only [ha, hi, Bool.not_true, Bool.false_eq_true, ne_eq, not_false_eq_true, if_false,
          if_true] at hr ⊢
        rw [Option.some.inj hr]
    · simp only [ha, Bool.not_false, if_true] at hr ⊢
      rw [Option.some.inj hr]

theorem start_refused {groupHash i : UInt64} {name : String} (env : Environment β)
    (hhash : c.groupHash = p.groupHash)
    (hfind : s.find name = (p.pipelines.lookup name).map flagsOf)
    (hr : refusal c s (.start groupHash name i) = some r) :
    ProviderHandlers.start env p groupHash name i = respond p r := by
  unfold ProviderHandlers.start
  simp only [refusal] at hr
  rw [hhash, hfind] at hr
  by_cases hg : groupHash ≠ p.groupHash
  · rw [if_pos hg] at hr ⊢
    rw [Option.some.inj hr]
  rw [if_neg hg] at hr ⊢
  cases hl : p.pipelines.lookup name with
  | none =>
    rw [hl] at hr
    rw [← Option.some.inj hr]
  | some st =>
    rw [hl, Option.map_some, Option.elim_some] at hr
    by_cases ha : st.active = true
    · rw [if_pos (show (flagsOf st).active = true from ha)] at hr
      simp only [if_pos ha, Option.some.inj hr]
    rw [if_neg (show ¬ (flagsOf st).active = true from ha)] at hr
    by_cases hi : st.iteration ≠ 0 ∧ st.iteration ≥ i
    · rw [if_pos (show (flagsOf st).iteration ≠ 0 ∧ (flagsOf st).iteration ≥ i from hi)] at hr
      simp only [if_neg ha, if_pos hi, Option.some.inj hr]
    · rw [if_neg (show ¬ ((flagsOf st).iteration ≠ 0 ∧ (flagsOf st).iteration ≥ i) from hi)] at hr
      cases hr

theorem destroyPipeline_refused {token name : String} (env : Environment β)
    (htoken : c.token = p.token)
    (hfind : s.find name = (p.pipelines.lookup name).map flagsOf)
    (hr : refusal c s (.destroyPipeline token name) = some r) :
    ProviderHandlers.destroyPipeline env p token name = respond p r := by
  have hrefuses : c.Refuses token ↔ badToken p token := by
    unfold Config.Refuses badToken
    rw [htoken]
  unfold ProviderHandlers.destroyPipeline
  simp only [refusal] at hr
  rw [hfind] at hr
  by_cases ht : c.Refuses token
  · rw [if_pos ht] at hr
    rw [if_pos (hrefuses.mp ht), Option.some.inj hr]
  rw [if_neg ht] at hr
  rw [if_neg (mt hrefuses.mpr ht)]
  cases hl : p.pipelines.lookup name with
  | none =>
    rw [hl] at hr
    rw [← Option.some.inj hr]
  | some st =>
    rw [hl, Option.map_some, Option.elim_some] at hr
    by_cases ha : st.active = true
    · rw [if_pos (show (flagsOf st).active = true from ha)] at hr
      simp only [if_pos ha, Option.some.inj hr]
    · rw [if_neg (show ¬ (flagsOf st).active = true from ha)] at hr
      cases hr

/-- A provider with the same flags refuses the request with the same response, whatever its
backend would do. -/
theorem process_refused (env : Environment β) (args : StageArgs) (htoken : c.token = p.token)
    (hhash : c.groupHash = p.groupHash)
    (hfind : ∀ name, s.find name = (p.pipelines.lookup name).map flagsOf)
    (hr : refusal c s g = some r) : process env p (requestOf args g) = respond p r := by
  have inside {name : String} {i : UInt64} {call : Call} (ho : g.opens = some (name, i, call)) :
      process env p (requestOf args g) = respond p r := by
    obtain ⟨body, hbody⟩ := process_opens (p := p) ho env args
    rw [refusal_opens ho, hfind] at hr
    rw [hbody, onActive_refused hr]
  cases g with
  | start groupHash name i => exact start_refused env hhash (hfind name) hr
  | stage name i => exact inside rfl
  | execute name i auto => exact inside rfl
  | cleanup name i => exact inside rfl
  | abort name i => exact inside rfl
  | destroyPipeline token name => exact destroyPipeline_refused env htoken (hfind name) hr
  | leave => cases hr

end Refusals

/-! ## Requests that reach the backend -/

section Requests

variable {p : Provider β} {env : Environment β} {name : String} {st : PipelineState β}
  {i : UInt64} {executed result : RequestResult Int32}

theorem start_succeeds (henv : Returns env executed result) (hr : result.success = true)
    (hl : p.pipelines.lookup name = some st) (ha : st.active = false)
    (hi : st.iteration = 0 ∨ st.iteration < i) :
    ∃ b, Yields (ProviderHandlers.start env p p.groupHash name i)
      (p.activate name (st.setBackend b) i) (some result) := by
  have hn : ¬ (st.iteration ≠ 0 ∧ st.iteration ≥ i) := by
    rintro ⟨h0, hle⟩
    exact UInt64.not_le.mpr (hi.resolve_left h0) hle
  refine ⟨(env.backend.start st.pipeline.state i).2, ?_⟩
  unfold ProviderHandlers.start
  simp only [hl, ha, hn, henv.start, hr, ne_eq, not_true_eq_false, if_false, Bool.false_eq_true,
    if_true]
  exact ⟨rfl, rfl⟩

theorem start_fails (henv : Returns env executed result) (hr : result.success = false)
    (hl : p.pipelines.lookup name = some st) (ha : st.active = false)
    (hi : st.iteration = 0 ∨ st.iteration < i) :
    ∃ b, Yields (ProviderHandlers.start env p p.groupHash name i)
      (p.setState name (st.setBackend b)) (some result) := by
  have hn : ¬ (st.iteration ≠ 0 ∧ st.iteration ≥ i) := by
    rintro ⟨h0, hle⟩
    exact UInt64.not_le.mpr (hi.resolve_left h0) hle
  have hcounter : p.numActivePipelines + 1 - 1 = p.numActivePipelines := by simp
  refine ⟨(env.backend.start st.pipeline.state i).2, ?_⟩
  unfold ProviderHandlers.start
  simp only [hl, ha, hn, henv.start, hr, hcounter, ne_eq, not_true_eq_false, if_false,
    Bool.false_eq_true]
  exact ⟨rfl, rfl⟩

theorem stage_yields (henv : Returns env executed result)
    (hl : p.pipelines.lookup name = some st) (ha : st.active = true) (hi : st.iteration = i)
    (args : StageArgs) :
    ∃ b, Yields (ProviderHandlers.stage env p name i args) (p.setState name (st.setBackend b))
      (some result) := by
  refine ⟨(env.backend.stage st.pipeline.state i args).2, ?_⟩
  unfold ProviderHandlers.stage
  rw [OpenIterations.onActive_active hl ha hi]
  exact ⟨rfl, congrArg some (henv.stage _ i args)⟩

theorem execute_yields (henv : Returns env executed result)
    (hl : p.pipelines.lookup name = some st) (ha : st.active = true) (hi : st.iteration = i)
    {auto : Bool} (hb : (executed.success && auto) = false) :
    ∃ b, Yields (ProviderHandlers.execute env p name i auto) (p.setState name (st.setBackend b))
      (some executed) := by
  refine ⟨(env.backend.execute st.pipeline.state i).2, ?_⟩
  unfold ProviderHandlers.execute
  rw [OpenIterations.onActive_active hl ha hi]
  simp only [henv.execute, hb, Bool.false_eq_true, if_false]
  exact ⟨rfl, rfl⟩

theorem execute_cleans (henv : Returns env executed result)
    (hl : p.pipelines.lookup name = some st) (ha : st.active = true) (hi : st.iteration = i)
    (hx : executed.success = true) (hr : result.success = true) :
    ∃ b, Yields (ProviderHandlers.execute env p name i true) (p.deactivate name (st.setBackend b))
      (some result) := by
  refine ⟨(env.backend.cleanup (env.backend.execute st.pipeline.state i).2 i).2, ?_⟩
  unfold ProviderHandlers.execute
  rw [OpenIterations.onActive_active hl ha hi]
  simp only [henv.execute, henv.cleanup, hx, hr, Bool.and_self, if_true]
  exact ⟨rfl, rfl⟩

theorem execute_not_cleaned (henv : Returns env executed result)
    (hl : p.pipelines.lookup name = some st) (ha : st.active = true) (hi : st.iteration = i)
    (hx : executed.success = true) (hr : result.success = false) :
    ∃ b, Yields (ProviderHandlers.execute env p name i true) (p.setState name (st.setBackend b))
      (some result) := by
  refine ⟨(env.backend.cleanup (env.backend.execute st.pipeline.state i).2 i).2, ?_⟩
  unfold ProviderHandlers.execute
  rw [OpenIterations.onActive_active hl ha hi]
  simp only [henv.execute, henv.cleanup, hx, hr, Bool.and_self, if_true, Bool.false_eq_true,
    if_false]
  exact ⟨rfl, rfl⟩

theorem cleanup_fails (henv : Returns env executed result)
    (hl : p.pipelines.lookup name = some st) (ha : st.active = true) (hi : st.iteration = i)
    (hr : result.success = false) :
    ∃ b, Yields (ProviderHandlers.cleanup env p name i) (p.setState name (st.setBackend b))
      (some result) := by
  refine ⟨(env.backend.cleanup st.pipeline.state i).2, ?_⟩
  unfold ProviderHandlers.cleanup
  rw [OpenIterations.onActive_active hl ha hi]
  simp only [henv.cleanup, hr, Bool.false_eq_true, if_false]
  exact ⟨rfl, rfl⟩

theorem cleanup_succeeds (henv : Returns env executed result)
    (hl : p.pipelines.lookup name = some st) (ha : st.active = true) (hi : st.iteration = i)
    (hr : result.success = true) :
    ∃ b, Yields (ProviderHandlers.cleanup env p name i) (p.deactivate name (st.setBackend b))
      (some result) := by
  refine ⟨(env.backend.cleanup st.pipeline.state i).2, ?_⟩
  unfold ProviderHandlers.cleanup
  rw [OpenIterations.onActive_active hl ha hi]
  simp only [henv.cleanup, hr, if_true]
  exact ⟨rfl, rfl⟩

theorem abort_yields (env : Environment β) (hl : p.pipelines.lookup name = some st)
    (ha : st.active = true) (hi : st.iteration = i) :
    ∃ b, Yields (ProviderHandlers.abort env p name i)
      (p.deactivate name { st.setBackend b with iteration := st.iteration - 1 }) (some {}) := by
  refine ⟨env.backend.abort st.pipeline.state i, ?_⟩
  unfold ProviderHandlers.abort
  rw [OpenIterations.onActive_active hl ha hi]
  exact ⟨rfl, rfl⟩

theorem destroyPipeline_yields (henv : Returns env executed result) {token : String}
    (ht : ¬ badToken p token) (hl : p.pipelines.lookup name = some st) (ha : st.active = false) :
    Yields (ProviderHandlers.destroyPipeline env p token name)
      { p with pipelines := p.pipelines.erase name } (some result) := by
  unfold ProviderHandlers.destroyPipeline
  simp only [ht, hl, ha, henv.destroy, if_false, Bool.false_eq_true]
  exact ⟨rfl, rfl⟩

theorem leave_yields (h0 : p.numActivePipelines = 0) :
    Yields (ProviderHandlers.leave p)
      { p with groupLeaves := p.groupLeaves + 1, pipelines := ∅ } none := by
  unfold ProviderHandlers.leave
  rw [if_neg (not_not.mpr h0)]
  exact ⟨rfl, rfl⟩

end Requests

end SerialRequests
