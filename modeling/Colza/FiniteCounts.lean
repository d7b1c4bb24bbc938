import Mathlib.Data.Finmap
import Mathlib.Data.Finset.Card
import Mathlib.Data.Fintype.Basic
import Mathlib.Logic.Function.Basic
import Mathlib.Algebra.BigOperators.Group.Finset.Basic

/-!
# Counting the entries that satisfy a predicate

`tally` counts over a finite index set of a family, `countEntries` over the entries
of a finite map. Each update lemma balances the value that goes against the value
that comes, so a caller never subtracts, and so does the lemma on sums over a finite type. The
last lemmas are about a 64-bit counter that is to hold such a count.
-/
namespace FiniteCounts

section Family

variable {ι α : Type*}

def tally (s : Finset ι) (p : α → Prop) [DecidablePred p] (f : ι → α) : ℕ :=
  (s.filter fun i => p (f i)).card

variable (s : Finset ι) (p : α → Prop) [DecidablePred p] (f : ι → α)

theorem tally_update [DecidableEq ι] {i : ι} (hi : i ∈ s) (a : α) :
    tally s p (Function.update f i a) + (if p (f i) then 1 else 0) =
      tally s p f + (if p a then 1 else 0) := by
  have split (g : ι → α) : tally s p g = tally (s.erase i) p g + (if p (g i) then 1 else 0) := by
    unfold tally
    conv_lhs => rw [← Finset.insert_erase hi, Finset.filter_insert]
    split
    · rw [Finset.card_insert_of_notMem (by simp)]
    · rfl
  have rest : tally (s.erase i) p (Function.update f i a) = tally (s.erase i) p f := by
    unfold tally
    congr 1
    apply Finset.filter_congr
    intro j hj
    rw [Function.update_of_ne (Finset.ne_of_mem_erase hj)]
  rw [split (Function.update f i a), split f, rest, Function.update_self]
  omega

theorem tally_congr {g : ι → α} (h : ∀ i ∈ s, p (f i) ↔ p (g i)) : tally s p f = tally s p g := by
  unfold tally
  rw [Finset.filter_congr h]

theorem tally_eq_zero : tally s p f = 0 ↔ ∀ i ∈ s, ¬ p (f i) := by
  unfold tally
  rw [Finset.card_eq_zero, Finset.filter_eq_empty_iff]

end Family

/-- Two sums that differ at one index. -/
theorem sum_eq_add {ι M : Type*} [Fintype ι] [DecidableEq ι] [AddCommMonoid M] {f g : ι → M}
    {k : ι} {a : M} (hk : f k = a + g k) (hne : ∀ j, j ≠ k → f j = g j) :
    ∑ j, f j = a + ∑ j, g j := by
  rw [← Finset.add_sum_erase _ f (Finset.mem_univ k),
    ← Finset.add_sum_erase _ g (Finset.mem_univ k), hk, add_assoc]
  congr 2
  apply Finset.sum_congr rfl
  intro j hj
  exact hne j (Finset.ne_of_mem_erase hj)

section Map

variable {κ ν : Type*} [DecidableEq κ] (p : ν → Prop) [DecidablePred p]
  (m : Finmap fun _ : κ => ν)

def countEntries : ℕ := (m.keys.filter fun k => ∃ v ∈ m.lookup k, p v).card

theorem countEntries_empty : countEntries p (∅ : Finmap fun _ : κ => ν) = 0 := by
  simp [countEntries]

/-- The entries other than the one at `k` are the same in both maps. -/
theorem countEntries_split {m n : Finmap fun _ : κ => ν} {k : κ}
    (h : ∀ j, j ≠ k → m.lookup j = n.lookup j) :
    countEntries p m + (if ∃ v ∈ n.lookup k, p v then 1 else 0) =
      countEntries p n + (if ∃ v ∈ m.lookup k, p v then 1 else 0) := by
  have key (l : Finmap fun _ : κ => ν) : countEntries p l =
      ((l.keys.erase k).filter fun j => ∃ v ∈ l.lookup j, p v).card +
        (if ∃ v ∈ l.lookup k, p v then 1 else 0) := by
    unfold countEntries
    by_cases hk : k ∈ l.keys
    · conv_lhs => rw [← Finset.insert_erase hk, Finset.filter_insert]
      split
      · rw [Finset.card_insert_of_notMem (by simp)]
      · rfl
    · have hn : l.lookup k = none := Finmap.lookup_eq_none.mpr (fun h => hk (Finmap.mem_keys.mpr h))
      simp [Finset.erase_eq_of_notMem hk, hn]
  have rest : ((m.keys.erase k).filter fun j => ∃ v ∈ m.lookup j, p v) =
      (n.keys.erase k).filter fun j => ∃ v ∈ n.lookup j, p v := by
    ext j
    by_cases hj : j = k
    · simp [hj]
    · have hm : j ∈ m.keys ↔ j ∈ n.keys := by
        rw [Finmap.mem_keys, Finmap.mem_keys, ← Finmap.lookup_isSome, ← Finmap.lookup_isSome,
          h j hj]
      simp [hj, hm, h j hj]
  rw [key m, key n, rest]
  omega

theorem countEntries_insert (k : κ) (v : ν) :
    countEntries p (m.insert k v) + (if ∃ w ∈ m.lookup k, p w then 1 else 0) =
      countEntries p m + (if p v then 1 else 0) := by
  have h := countEntries_split p (m := m.insert k v) (n := m) (k := k)
    fun j hj => Finmap.lookup_insert_of_ne m hj
  simpa using h

theorem countEntries_erase (k : κ) :
    countEntries p (m.erase k) + (if ∃ w ∈ m.lookup k, p w then 1 else 0) =
      countEntries p m := by
  have h := countEntries_split p (m := m.erase k) (n := m) (k := k)
    fun j hj => Finmap.lookup_erase_ne hj
  simpa using h

theorem countEntries_eq_zero :
    countEntries p m = 0 ↔ ∀ k v, m.lookup k = some v → ¬ p v := by
  unfold countEntries
  rw [Finset.card_eq_zero, Finset.filter_eq_empty_iff]
  constructor
  · intro h k v hv hp
    exact h (Finmap.mem_keys.mpr (Finmap.mem_of_lookup_eq_some hv)) ⟨v, hv, hp⟩
  · rintro h k _ ⟨v, hv, hp⟩
    exact h k v hv hp

end Map

/-! ## An unsigned 64-bit counter -/

theorem toNat_sub_one {c : UInt64} (h : 0 < c.toNat) : (c - 1).toNat = c.toNat - 1 := by
  have := c.toNat_lt
  rw [UInt64.toNat_sub]
  simp only [UInt64.toNat_one]
  omega

theorem toNat_add_one (c : UInt64) : (c + 1).toNat = (c.toNat + 1) % 2 ^ 64 := by
  rw [UInt64.toNat_add]
  rfl

theorem toNat_pred {i : UInt64} (h : i ≠ 0) : (i - 1).toNat = i.toNat - 1 := by
  apply toNat_sub_one
  apply Nat.pos_of_ne_zero
  intro h0
  exact h (UInt64.toNat_inj.mp h0)

end FiniteCounts
