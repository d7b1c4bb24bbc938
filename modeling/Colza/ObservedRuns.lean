import Mathlib.Data.List.Basic
import Colza.GuardedRuns

/-!
# Systems whose operations answer

A system `serve` that may not answer an operation, beside one that always does. Where each
operation is answered alike and keeps the relation between the two, so is a run of them.
-/
namespace ObservedRuns

open GuardedRuns

variable {σ α ε ρ : Type*}

/-- The answers to a list of operations, and the state after them. -/
def calls (serve : σ → ε → Option (σ × ρ)) : σ → List ε → Option (σ × List ρ)
  | s, [] => some (s, [])
  | s, e :: es => do
    let (t, r) ← serve s e
    let (u, rs) ← calls serve t es
    return (u, r :: rs)

variable (perform : α → ε → α × ρ)

def next (a : α) (e : ε) : α := (perform a e).1

def answers (a : α) : List ε → List ρ
  | [] => []
  | e :: es => (perform a e).2 :: answers (next perform a e) es

variable {perform}

theorem answers_append (a : α) (es fs : List ε) :
    answers perform a (es ++ fs) =
      answers perform a es ++ answers perform (es.foldl (next perform) a) fs := by
  induction es generalizing a with
  | nil => rfl
  | cons e es ih => exact congrArg (List.cons _) (ih (next perform a e))

theorem calls_invariant {serve : σ → ε → Option (σ × ρ)} {P : σ → Prop}
    (hstep : ∀ {s e t r}, serve s e = some (t, r) → P s → P t) {s t : σ} {es : List ε}
    {rs : List ρ} (h : calls serve s es = some (t, rs)) (hs : P s) : P t := by
  induction es generalizing s rs with
  | nil =>
    obtain rfl : s = t := congrArg Prod.fst (Option.some.inj h)
    exact hs
  | cons e es ih =>
    obtain ⟨⟨u, r⟩, hu, h⟩ := Option.bind_eq_some_iff.mp h
    obtain ⟨⟨v, rs'⟩, hv, h⟩ := Option.bind_eq_some_iff.mp h
    obtain rfl : v = t := congrArg Prod.fst (Option.some.inj h)
    exact ih hv (hstep hu hs)

theorem calls_refine {serve : σ → ε → Option (σ × ρ)} {R : σ → α → Prop} {G : α → ε → Prop}
    (hstep : ∀ s a e, R s a → G a e →
      ∃ t, serve s e = some (t, (perform a e).2) ∧ R t (next perform a e))
    {s : σ} {a : α} (h : R s a) {es : List ε} (hg : Guarded G a (path (next perform) a es)) :
    ∃ t, calls serve s es = some (t, answers perform a es) ∧ R t (es.foldl (next perform) a) := by
  induction es generalizing s a with
  | nil => exact ⟨s, rfl, h⟩
  | cons e es ih =>
    obtain ⟨t, ht, hr⟩ := hstep s a e h hg.1
    obtain ⟨u, hu, hru⟩ := ih hr hg.2
    refine ⟨u, ?_, hru⟩
    rw [calls, ht]
    simp only [Option.bind_eq_bind, Option.bind_some, hu]
    rfl

end ObservedRuns
