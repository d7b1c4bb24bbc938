import Mathlib.Algebra.BigOperators.Group.List.Basic
import Mathlib.Algebra.Group.Hom.Defs
import Colza.GuardedRuns

/-!
# What a run gains and loses

The states of a system hold an amount, and its steps gain and lose some. Where every step keeps
the balance, so does a run.
-/
namespace ConservedRuns

open GuardedRuns

variable {σ ε M N : Type*} {step : σ → ε → σ → Prop}

section Totals

variable [AddCommMonoid M] [AddCommMonoid N] (f : σ → ε → M)

/-- What the steps of a run amount to. -/
def total : σ → List (ε × σ) → M
  | _, [] => 0
  | s, (e, t) :: p => f s e + total t p

theorem map_total (φ : M →+ N) (s : σ) (p : List (ε × σ)) :
    φ (total f s p) = total (fun s e => φ (f s e)) s p := by
  induction p generalizing s with
  | nil => exact map_zero φ
  | cons x p ih => rw [total, total, map_add, ih x.2]

variable {f}

theorem conserved {holds : σ → M} {gained lost : σ → ε → M}
    (hstep : ∀ s e t, step s e t → holds t + lost s e = holds s + gained s e) {s : σ}
    {p : List (ε × σ)} (h : Run step s p) :
    holds (final s p) + total lost s p = holds s + total gained s p := by
  induction h with
  | nil => rfl
  | @cons s e t p hs _ ih =>
    calc holds (final t p) + (lost s e + total lost t p)
        = holds (final t p) + total lost t p + lost s e := by
          rw [add_comm (lost s e), add_assoc]
      _ = holds t + lost s e + total gained t p := by rw [ih, add_right_comm]
      _ = holds s + (gained s e + total gained t p) := by rw [hstep s e t hs, add_assoc]

end Totals

/-- One element of a list is replaced by another one. -/
theorem sum_map_set [AddCommMonoid M] {α : Type*} (f : α → M) {l : List α} {k : ℕ} {x : α}
    (hk : l[k]? = some x) (y : α) :
    ((l.set k y).map f).sum + f x = (l.map f).sum + f y := by
  induction l generalizing k with
  | nil => cases hk
  | cons z l ih =>
    cases k with
    | zero =>
      obtain rfl : z = x := Option.some.inj hk
      simp only [List.set_cons_zero, List.map_cons, List.sum_cons]
      rw [add_right_comm, add_comm (f y), add_right_comm]
    | succ k =>
      simp only [List.set_cons_succ, List.map_cons, List.sum_cons, add_assoc, ih hk]

end ConservedRuns
