import Mathlib.Computability.Language
import Mathlib.Algebra.Order.Kleene
import Mathlib.Order.CompletePartialOrder

/-!
# Languages of indexed sessions

A word of the language is a sequence of blocks and a last letter. A block is either
one isolated letter, or a session with one index: an opening letter, inner letters
and a closing letter. `Follows` says where a word that is still being extended
stands, and each of its rules appends one letter.
-/
namespace SessionLanguages

open Computability

variable {ι α : Type*}

structure Alphabet (ι α : Type*) where
  single : ι → Set α
  opening : ι → Set α
  inner : ι → Set α
  closing : ι → Set α
  last : Set α

def letters (A : Set α) : Language α := {w | ∃ a ∈ A, w = [a]}

def block (S : Alphabet ι α) (i : ι) : Language α :=
  letters (S.single i) + letters (S.opening i) * (letters (S.inner i))∗ * letters (S.closing i)

def sessions (S : Alphabet ι α) : Language α := (⨆ i, block S i)∗

def language (S : Alphabet ι α) : Language α := sessions S * letters S.last

inductive Phase (ι : Type*) where
  | between
  | inside (i : ι)
  | ended
  deriving DecidableEq, Repr

def Follows (S : Alphabet ι α) : Phase ι → List α → Prop
  | .between, w => w ∈ sessions S
  | .inside i, w => w ∈ sessions S * (letters (S.opening i) * (letters (S.inner i))∗)
  | .ended, w => w ∈ language S

theorem mem_letters {A : Set α} {a : α} (h : a ∈ A) : [a] ∈ letters A := ⟨a, h, rfl⟩

theorem append_mem_kstar {L : Language α} {w v : List α} (hw : w ∈ L∗) (hv : v ∈ L) :
    w ++ v ∈ L∗ := by
  have h : L∗ * L ≤ L∗ := kstar_mul_le_kstar
  exact h (Language.append_mem_mul hw hv)

theorem sessions_append {S : Alphabet ι α} {i : ι} {w v : List α} (hw : w ∈ sessions S)
    (hv : v ∈ block S i) : w ++ v ∈ sessions S :=
  append_mem_kstar hw (Language.mem_iSup.mpr ⟨i, hv⟩)

variable {S : Alphabet ι α} {i : ι} {w : List α} {a : α}

theorem follows_nil : Follows S .between [] := Language.nil_mem_kstar _

theorem Follows.single (h : Follows S .between w) (ha : a ∈ S.single i) :
    Follows S .between (w ++ [a]) :=
  sessions_append h (Or.inl (mem_letters ha))

theorem Follows.opening (h : Follows S .between w) (ha : a ∈ S.opening i) :
    Follows S (.inside i) (w ++ [a]) := by
  have hs : [a] ∈ letters (S.opening i) * (letters (S.inner i))∗ := by
    simpa using Language.append_mem_mul (mem_letters ha) (Language.nil_mem_kstar _)
  exact Language.append_mem_mul h hs

theorem Follows.inner (h : Follows S (.inside i) w) (ha : a ∈ S.inner i) :
    Follows S (.inside i) (w ++ [a]) := by
  obtain ⟨u, hu, v, hv, rfl⟩ := Language.mem_mul.mp h
  obtain ⟨o, ho, x, hx, rfl⟩ := Language.mem_mul.mp hv
  have hx' := append_mem_kstar hx (mem_letters ha)
  have hs := Language.append_mem_mul hu (Language.append_mem_mul ho hx')
  simpa only [Follows, List.append_assoc] using hs

theorem Follows.inners (h : Follows S (.inside i) w) {v : List α} (hv : ∀ a ∈ v, a ∈ S.inner i) :
    Follows S (.inside i) (w ++ v) := by
  induction v generalizing w with
  | nil => simpa using h
  | cons a v ih =>
    obtain ⟨ha, hv⟩ := List.forall_mem_cons.mp hv
    simpa using ih (h.inner ha) hv

theorem Follows.closing (h : Follows S (.inside i) w) (ha : a ∈ S.closing i) :
    Follows S .between (w ++ [a]) := by
  obtain ⟨u, hu, v, hv, rfl⟩ := Language.mem_mul.mp h
  have hb : v ++ [a] ∈ block S i := Or.inr (Language.append_mem_mul hv (mem_letters ha))
  simpa only [Follows, List.append_assoc] using sessions_append hu hb

theorem Follows.last (h : Follows S .between w) (ha : a ∈ S.last) :
    Follows S .ended (w ++ [a]) :=
  Language.append_mem_mul h (mem_letters ha)

/-- When every session can be closed and the last letter exists, a word in any phase
extends to a whole word. -/
theorem Follows.extends {ph : Phase ι} (h : Follows S ph w)
    (hc : ∀ i, (S.closing i).Nonempty) (hl : S.last.Nonempty) : ∃ v, w ++ v ∈ language S := by
  obtain ⟨z, hz⟩ := hl
  cases ph with
  | between => exact ⟨[z], h.last hz⟩
  | inside i =>
    obtain ⟨c, hc⟩ := hc i
    have hw : (w ++ [c]) ++ [z] ∈ language S := (h.closing hc).last hz
    exact ⟨[c, z], by simpa using hw⟩
  | ended =>
    have hw : w ∈ language S := h
    exact ⟨[], by simpa using hw⟩

end SessionLanguages
