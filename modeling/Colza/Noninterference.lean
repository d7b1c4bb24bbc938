import Colza.GuardedRuns

/-!
# Events that an observer does not see

A deterministic system with outputs, and an observer who sees some of its events and what they
put out. Where unseen events change nothing that the observer could tell, and seen ones behave
alike in states that are alike, the observer cannot tell which of the unseen events there were.
-/
namespace Noninterference

open GuardedRuns

variable {σ ε ο : Type} (next : σ → ε → σ) (output : σ → ε → ο) (sees : ε → Prop)
  [DecidablePred sees]

/-- What the observer sees of a run. -/
def observed : σ → List ε → List ο
  | _, [] => []
  | s, e :: events =>
    if sees e then output s e :: observed (next s e) events else observed (next s e) events

/-- `Alike` relates the states that the observer takes for one another, in runs of which every
event is allowed. -/
structure Unwinding (Allowed : σ → ε → Prop) (Alike : σ → σ → Prop) : Prop where
  unseen : ∀ {s t e}, Alike s t → Allowed s e → ¬ sees e → Alike (next s e) t
  seen : ∀ {s t e}, Alike s t → sees e →
    output s e = output t e ∧ Alike (next s e) (next t e)

variable {next output sees} {Allowed : σ → ε → Prop} {Alike : σ → σ → Prop} {s t : σ}

/-- A run looks like the run of its seen events alone. -/
theorem observed_purged (hu : Unwinding next output sees Allowed Alike) {events : List ε}
    (h : Alike s t) (hg : Guarded Allowed s (path next s events)) :
    observed next output sees s events =
        observed next output sees t (events.filter fun e => sees e) ∧
      Alike (events.foldl next s) ((events.filter fun e => sees e).foldl next t) := by
  induction events generalizing s t with
  | nil => exact ⟨rfl, h⟩
  | cons e events ih =>
    obtain ⟨hallowed, hg⟩ := hg
    by_cases he : sees e
    · obtain ⟨hout, halike⟩ := hu.seen h he
      obtain ⟨hobserved, hlast⟩ := ih halike hg
      simp only [observed, he, decide_true, List.filter_cons_of_pos, if_true, hout, hobserved,
        List.foldl_cons]
      exact ⟨trivial, hlast⟩
    · obtain ⟨hobserved, hlast⟩ := ih (hu.unseen h hallowed he) hg
      simp only [observed, he, decide_false, Bool.false_eq_true, not_false_eq_true,
        List.filter_cons_of_neg, if_false, List.foldl_cons]
      exact ⟨hobserved, hlast⟩

end Noninterference
