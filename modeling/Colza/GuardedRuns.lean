import Mathlib.Data.List.Induction
import Mathlib.Logic.Relation

/-!
# Runs whose steps meet a guard

A run lists the events it takes and the states it reaches, in order. An invariant
that one guarded step preserves holds in every state of a run all of whose steps
meet the guard. When a step from a good state is good exactly when it meets the
guard, the two conditions on the run are the same.
-/
namespace GuardedRuns

variable {σ ε : Type*} {step : σ → ε → σ → Prop}

inductive Run (step : σ → ε → σ → Prop) : σ → List (ε × σ) → Prop where
  | nil (s) : Run step s []
  | cons {s e t p} : step s e t → Run step t p → Run step s ((e, t) :: p)

/-- `P` holds in the first state of the run and in every state the run reaches. -/
def Always (P : σ → Prop) (s : σ) (p : List (ε × σ)) : Prop := P s ∧ ∀ x ∈ p, P x.2

/-- Every event of the run is taken from a state where `G` allows it. -/
def Guarded (G : σ → ε → Prop) : σ → List (ε × σ) → Prop
  | _, [] => True
  | s, (e, t) :: p => G s e ∧ Guarded G t p

instance Guarded.decidable {G : σ → ε → Prop} [∀ s e, Decidable (G s e)] :
    (s : σ) → (p : List (ε × σ)) → Decidable (Guarded G s p)
  | _, [] => inferInstanceAs (Decidable True)
  | s, (e, t) :: p =>
    have : Decidable (Guarded G t p) := Guarded.decidable t p
    inferInstanceAs (Decidable (G s e ∧ Guarded G t p))

def final (s : σ) : List (ε × σ) → σ
  | [] => s
  | (_, t) :: p => final t p

def Reaches (step : σ → ε → σ → Prop) : σ → σ → Prop :=
  Relation.ReflTransGen fun s t => ∃ e, step s e t

@[simp] theorem always_nil {P : σ → Prop} {s : σ} :
    Always P s ([] : List (ε × σ)) ↔ P s := by simp [Always]

@[simp] theorem always_cons {P : σ → Prop} {s t : σ} {e : ε} {p : List (ε × σ)} :
    Always P s ((e, t) :: p) ↔ P s ∧ Always P t p := by simp [Always]

theorem Always.first {P : σ → Prop} {s : σ} {p : List (ε × σ)} (h : Always P s p) : P s := h.1

theorem Always.last {P : σ → Prop} {s : σ} {p : List (ε × σ)} (h : Always P s p) :
    P (final s p) := by
  induction p generalizing s with
  | nil => exact h.first
  | cons x p ih => exact ih (always_cons.mp h).2

theorem guarded_always {P : σ → Prop} {G : σ → ε → Prop}
    (hstep : ∀ s e t, P s → G s e → step s e t → P t) {s : σ} {p : List (ε × σ)}
    (h : Run step s p) (hs : P s) (hg : Guarded G s p) : Always P s p := by
  induction h with
  | nil => exact always_nil.mpr hs
  | cons h _ ih => exact always_cons.mpr ⟨hs, ih (hstep _ _ _ hs hg.1 h) hg.2⟩

theorem always_guarded {P : σ → Prop} {G : σ → ε → Prop}
    (hstep : ∀ s e t, P s → step s e t → P t → G s e) {s : σ} {p : List (ε × σ)}
    (h : Run step s p) (ha : Always P s p) : Guarded G s p := by
  induction h with
  | nil => trivial
  | cons h _ ih =>
    obtain ⟨hs, ha⟩ := always_cons.mp ha
    exact ⟨hstep _ _ _ hs h ha.first, ih ha⟩

/-- A guard that is exact for one step is exact for whole runs. -/
theorem always_iff_guarded {P : σ → Prop} {G : σ → ε → Prop}
    (hstep : ∀ s e t, P s → step s e t → (P t ↔ G s e)) {s : σ} {p : List (ε × σ)}
    (h : Run step s p) (hs : P s) : Always P s p ↔ Guarded G s p :=
  ⟨always_guarded (fun s e t hp ht => (hstep s e t hp ht).mp) h,
    guarded_always (fun s e t hp hg ht => (hstep s e t hp ht).mpr hg) h hs⟩

/-- A step keeps an invariant when the guard allows it, and only then the property. -/
theorem always_iff_guarded_of {I P : σ → Prop} {G : σ → ε → Prop}
    (hstep : ∀ s e t, I s → step s e t → (P t ↔ G s e) ∧ (G s e → I t)) {s : σ}
    {p : List (ε × σ)} (h : Run step s p) (hi : I s) (hs : P s) :
    Always P s p ↔ Guarded G s p := by
  induction h with
  | nil => exact iff_of_true (always_nil.mpr hs) trivial
  | @cons s e t p h _ ih =>
    obtain ⟨hexact, hkeep⟩ := hstep s e t hi h
    constructor
    · intro ha
      have ha' := (always_cons.mp ha).2
      have hg := hexact.mp ha'.first
      exact ⟨hg, (ih (hkeep hg) ha'.first).mp ha'⟩
    · rintro ⟨hg, hg'⟩
      have ht := hexact.mpr hg
      exact always_cons.mpr ⟨hs, (ih (hkeep hg) ht).mpr hg'⟩

/-- The same with an invariant of all steps, and for a property of the states and steps. -/
theorem safe_iff_guarded {I P : σ → Prop} {Q G : σ → ε → Prop}
    (hinv : ∀ s e t, I s → step s e t → I t)
    (hstep : ∀ s e t, I s → P s → step s e t → (P t ∧ Q s e ↔ G s e)) {s : σ}
    {p : List (ε × σ)} (h : Run step s p) (hi : I s) (hs : P s) :
    Always P s p ∧ Guarded Q s p ↔ Guarded G s p := by
  induction h with
  | nil => exact iff_of_true ⟨always_nil.mpr hs, trivial⟩ trivial
  | @cons s e t p h _ ih =>
    have hs1 := hstep s e t hi hs h
    constructor
    · rintro ⟨ha, hq, hq'⟩
      have ha' := (always_cons.mp ha).2
      exact ⟨hs1.mp ⟨ha'.first, hq⟩, (ih (hinv _ _ _ hi h) ha'.first).mp ⟨ha', hq'⟩⟩
    · rintro ⟨hg, hg'⟩
      obtain ⟨ht, hq⟩ := hs1.mpr hg
      obtain ⟨ha', hq'⟩ := (ih (hinv _ _ _ hi h) ht).mpr hg'
      exact ⟨always_cons.mpr ⟨hs, ha'⟩, hq, hq'⟩

/-- What a step cannot bring back held all along if it holds at the end. -/
theorem always_of_final {I P : σ → Prop} (hinv : ∀ s e t, I s → step s e t → I t)
    (hback : ∀ s e t, I s → step s e t → P t → P s) {s : σ} {p : List (ε × σ)}
    (h : Run step s p) (hi : I s) (hf : P (final s p)) : Always P s p := by
  induction h with
  | nil => exact always_nil.mpr hf
  | @cons s e t p h _ ih =>
    have ha := ih (hinv _ _ _ hi h) hf
    exact always_cons.mpr ⟨hback _ _ _ hi h ha.first, ha⟩

/-- An invariant of the steps that reach good states. -/
theorem always_along {I P : σ → Prop} (hstep : ∀ s e t, I s → step s e t → P t → I t) {s : σ}
    {p : List (ε × σ)} (h : Run step s p) (hi : I s) (ha : Always P s p) : Always I s p := by
  induction h with
  | nil => exact always_nil.mpr hi
  | cons h _ ih =>
    have ha' := (always_cons.mp ha).2
    exact always_cons.mpr ⟨hi, ih (hstep _ _ _ hi h ha'.first) ha'⟩

/-- A guard may imply a property of the steps next to preserving an invariant. -/
theorem guarded_guarded {P : σ → Prop} {G Q : σ → ε → Prop}
    (hstep : ∀ s e t, P s → G s e → step s e t → P t ∧ Q s e) {s : σ} {p : List (ε × σ)}
    (h : Run step s p) (hs : P s) (hg : Guarded G s p) : Guarded Q s p := by
  induction h with
  | nil => trivial
  | cons h _ ih =>
    obtain ⟨ht, hq⟩ := hstep _ _ _ hs hg.1 h
    exact ⟨hq, ih ht hg.2⟩

theorem Run.reaches {s : σ} {p : List (ε × σ)} (h : Run step s p) :
    Reaches step s (final s p) := by
  induction h with
  | nil => exact .refl
  | cons h _ ih => exact .head ⟨_, h⟩ ih

theorem Reaches.run {s t : σ} (h : Reaches step s t) : ∃ p, Run step s p ∧ final s p = t := by
  induction h using Relation.ReflTransGen.head_induction_on with
  | refl => exact ⟨[], .nil t, rfl⟩
  | @head s u hs _ ih =>
    obtain ⟨e, he⟩ := hs
    obtain ⟨p, hp, hfinal⟩ := ih
    exact ⟨(e, u) :: p, .cons he hp, hfinal⟩

theorem Reaches.snoc {s t u : σ} {e : ε} (h : Reaches step s t) (k : step t e u) :
    Reaches step s u := .tail h ⟨e, k⟩

theorem Reaches.invariant {P : σ → Prop} (hstep : ∀ s e t, P s → step s e t → P t)
    {s t : σ} (h : Reaches step s t) (hs : P s) : P t := by
  induction h with
  | refl => exact hs
  | tail _ h ih =>
    obtain ⟨e, he⟩ := h
    exact hstep _ _ _ ih he

/-- Every step takes something off a measure, so runs are not longer than it is at first. -/
theorem Run.length_le {m : σ → ℕ} (hstep : ∀ s e t, step s e t → m t < m s) {s : σ}
    {p : List (ε × σ)} (h : Run step s p) : p.length ≤ m s := by
  induction h with
  | nil => exact Nat.zero_le _
  | cons h _ ih =>
    have hlt := hstep _ _ _ h
    rw [List.length_cons]
    omega

/-- A system with such a measure that is not stuck before its end comes to its end. -/
theorem reaches_end {m : σ → ℕ} (hstep : ∀ s e t, step s e t → m t < m s) {E : σ → Prop} {s : σ}
    (hgo : ∀ t, Reaches step s t → E t ∨ ∃ e u, step t e u) : ∃ t, Reaches step s t ∧ E t := by
  induction hm : m s using Nat.strongRecOn generalizing s with
  | ind k ih =>
    rcases hgo s .refl with hs | ⟨e, t, ht⟩
    · exact ⟨s, .refl, hs⟩
    · obtain ⟨u, hu, he⟩ := ih (m t) (hm ▸ hstep s e t ht)
        (fun u hu => hgo u (.head ⟨e, ht⟩ hu)) rfl
      exact ⟨u, .head ⟨e, ht⟩ hu, he⟩

section Functional

variable (f : σ → ε → σ)

/-- The run of a deterministic system on the given events. -/
def path (s : σ) : List ε → List (ε × σ)
  | [] => []
  | e :: es => (e, f s e) :: path (f s e) es

theorem path_run (s : σ) (es : List ε) : Run (fun s e t => t = f s e) s (path f s es) := by
  induction es generalizing s with
  | nil => exact .nil s
  | cons e es ih => exact .cons rfl (ih (f s e))

/-- The same for a system that takes an event only where `G` allows it. -/
theorem path_run_of {G : σ → ε → Prop} (hstep : ∀ s e, G s e → step s e (f s e)) (s : σ)
    (es : List ε) (h : Guarded G s (path f s es)) : Run step s (path f s es) := by
  induction es generalizing s with
  | nil => exact .nil s
  | cons e es ih => exact .cons (hstep s e h.1) (ih (f s e) h.2)

theorem final_path (s : σ) (es : List ε) : final s (path f s es) = es.foldl f s := by
  induction es generalizing s with
  | nil => rfl
  | cons e es ih => exact ih (f s e)

@[simp] theorem path_length (s : σ) (es : List ε) : (path f s es).length = es.length := by
  induction es generalizing s with
  | nil => rfl
  | cons e es ih => exact congrArg Nat.succ (ih (f s e))

theorem guarded_path_append {G : σ → ε → Prop} (s : σ) (es fs : List ε) :
    Guarded G s (path f s (es ++ fs)) ↔
      Guarded G s (path f s es) ∧ Guarded G (es.foldl f s) (path f (es.foldl f s) fs) := by
  induction es generalizing s with
  | nil => exact (and_iff_right trivial).symm
  | cons e es ih =>
    exact (and_congr_right' (ih (f s e))).trans and_assoc.symm

/-- An invariant that also speaks of the events taken so far. -/
theorem history_invariant {P : List ε → σ → Prop} {G : σ → ε → Prop} {s : σ} (hs : P [] s)
    (hstep : ∀ es e, P es (es.foldl f s) → G (es.foldl f s) e →
      P (es ++ [e]) (f (es.foldl f s) e)) (es : List ε) (hg : Guarded G s (path f s es)) :
    P es (es.foldl f s) := by
  induction es using List.reverseRecOn with
  | nil => exact hs
  | append_singleton es e ih =>
    obtain ⟨hg, he⟩ := (guarded_path_append f s es [e]).mp hg
    rw [List.foldl_append]
    exact hstep es e (ih hg) he.1

theorem foldl_invariant {P : σ → Prop} (hstep : ∀ s e, P s → P (f s e)) {s : σ} (hs : P s)
    (es : List ε) : P (es.foldl f s) := by
  induction es generalizing s with
  | nil => exact hs
  | cons e es ih => exact ih (hstep s e hs)

end Functional

end GuardedRuns
