import Mathlib.Data.Finset.Card
import Mathlib.Data.Finset.Fold
import Mathlib.Data.Finset.SymmDiff
import Mathlib.Data.List.Perm.Basic
import Mathlib.Data.List.Perm.Lattice

/-!
# Digests of finite sets that change one element at a time

An operation in which every value is its own inverse gives a set a digest: the values of
its elements in any order. To insert an element and to erase it are then the same update
of the digest.
-/
namespace ToggleDigests

variable {α G : Type*} (op : G → G → G) [Std.Commutative op] [Std.Associative op] (zero : G)

/-- `zero` is neutral and every value is its own inverse. -/
structure SelfInverse : Prop where
  zero_op : ∀ a, op zero a = a
  self : ∀ a, op a a = zero

/-- The values of a list of elements, repetitions included. -/
def total (f : α → G) (l : List α) : G := Multiset.fold op zero (l.map f : Multiset G)

def digest (f : α → G) (s : Finset α) : G := s.fold op zero f

variable {op zero} {f : α → G}

omit [Std.Associative op] in
theorem SelfInverse.op_zero (h : SelfInverse op zero) (a : G) : op a zero = a :=
  (Std.Commutative.comm a zero).trans (h.zero_op a)

theorem SelfInverse.cancel (h : SelfInverse op zero) (a b : G) : op (op a b) b = a := by
  have hassoc : op (op a b) b = op a (op b b) := Std.Associative.assoc a b b
  rw [hassoc, h.self, h.op_zero]

theorem SelfInverse.eq_of_op_eq (h : SelfInverse op zero) {a b c : G} (hc : op a c = op b c) :
    a = b := by
  rw [← h.cancel a c, hc, h.cancel]

@[simp] theorem total_nil : total op zero f [] = zero := rfl

theorem total_cons (a : α) (l : List α) :
    total op zero f (a :: l) = op (f a) (total op zero f l) := by
  simp [total, ← Multiset.cons_coe]

theorem total_perm {l m : List α} (h : l.Perm m) : total op zero f l = total op zero f m := by
  unfold total
  rw [Multiset.coe_eq_coe.mpr (h.map f)]

theorem foldl_eq_total (h : SelfInverse op zero) (l : List α) (acc : G) :
    l.foldl (fun x a => op x (f a)) acc = op acc (total op zero f l) := by
  induction l generalizing acc with
  | nil => exact (h.op_zero acc).symm
  | cons a l ih =>
    rw [List.foldl_cons, ih, total_cons]
    exact Std.Associative.assoc acc (f a) _

theorem total_append (h : SelfInverse op zero) (l m : List α) :
    total op zero f (l ++ m) = op (total op zero f l) (total op zero f m) := by
  induction l with
  | nil => rw [List.nil_append, total_nil, h.zero_op]
  | cons a l ih =>
    rw [List.cons_append, total_cons, total_cons, ih]
    exact (Std.Associative.assoc (f a) _ _).symm

/-- Taking one element out of a list. -/
theorem total_eraseIdx {l : List α} {k : ℕ} {a : α} (hk : l[k]? = some a) :
    total op zero f l = op (f a) (total op zero f (l.eraseIdx k)) := by
  obtain ⟨hlt, rfl⟩ := List.getElem?_eq_some_iff.mp hk
  exact (total_perm (List.getElem_cons_eraseIdx_perm hlt).symm).trans (total_cons _ _)

section Sets

variable [DecidableEq α] {s : Finset α} {a : α}

theorem digest_insert (ha : a ∉ s) :
    digest op zero f (insert a s) = op (digest op zero f s) (f a) := by
  unfold digest
  rw [Finset.fold_insert ha]
  exact Std.Commutative.comm (f a) _

theorem digest_erase (h : SelfInverse op zero) (ha : a ∈ s) :
    digest op zero f (s.erase a) = op (digest op zero f s) (f a) := by
  have hs : digest op zero f s = op (digest op zero f (s.erase a)) (f a) := by
    have hinsert : digest op zero f (insert a (s.erase a)) = _ :=
      digest_insert (Finset.notMem_erase a s)
    rwa [Finset.insert_erase ha] at hinsert
  rw [hs, h.cancel]

/-- The order in which a set is listed does not matter. -/
theorem total_eq_digest {l : List α} (hl : l.Nodup) :
    total op zero f l = digest op zero f l.toFinset := by
  induction l with
  | nil => rfl
  | cons a l ih =>
    obtain ⟨ha, hl⟩ := List.nodup_cons.mp hl
    rw [total_cons, ih hl, List.toFinset_cons, digest_insert (by simpa using ha)]
    exact Std.Commutative.comm (f a) _

/-- Two sets have the digests of what tells them apart. -/
theorem digest_symmDiff (h : SelfInverse op zero) (s t : Finset α) :
    digest op zero f (symmDiff s t) = op (digest op zero f s) (digest op zero f t) := by
  induction s using Finset.induction_on with
  | empty =>
    rw [← Finset.bot_eq_empty, bot_symmDiff]
    exact (h.zero_op _).symm
  | @insert a s ha ih =>
    have htoggle : op (op (digest op zero f s) (f a)) (digest op zero f t) =
        op (digest op zero f (symmDiff s t)) (f a) := by
      rw [ih, @Std.Associative.assoc _ op _, @Std.Commutative.comm _ op _ (f a),
        ← @Std.Associative.assoc _ op _]
    rw [digest_insert ha, htoggle]
    by_cases hat : a ∈ t
    · have hs : symmDiff (insert a s) t = (symmDiff s t).erase a := by
        ext b
        by_cases hb : b = a <;> simp [Finset.mem_symmDiff, hb, hat]
      rw [hs]
      exact digest_erase h (Finset.mem_symmDiff.mpr (Or.inr ⟨hat, ha⟩))
    · have hs : symmDiff (insert a s) t = insert a (symmDiff s t) := by
        ext b
        by_cases hb : b = a <;> simp [Finset.mem_symmDiff, hb, hat]
      rw [hs]
      exact digest_insert (by simp [Finset.mem_symmDiff, ha, hat])

theorem digest_singleton (a : α) (h : SelfInverse op zero) : digest op zero f {a} = f a := by
  have hinsert : digest op zero f (insert a ∅) = _ := digest_insert (Finset.notMem_empty a)
  exact hinsert.trans (h.zero_op (f a))

/-- Sets with one digest differ in no single element, and in no two elements with different
values. -/
theorem digest_ne (h : SelfInverse op zero) (hf : Function.Injective f) {s t : Finset α}
    (hzero : ∀ a ∈ symmDiff s t, f a ≠ zero)
    (hcard : (symmDiff s t).card = 1 ∨ (symmDiff s t).card = 2) :
    digest op zero f s ≠ digest op zero f t := by
  intro heq
  have hd := digest_symmDiff (f := f) h s t
  rw [heq, h.self] at hd
  rcases hcard with hcard | hcard
  · obtain ⟨a, ha⟩ := Finset.card_eq_one.mp hcard
    rw [ha, digest_singleton a h] at hd
    exact hzero a (by simp [ha]) hd
  · obtain ⟨a, b, hab, hset⟩ := Finset.card_eq_two.mp hcard
    rw [hset, digest_insert (by simpa using hab), digest_singleton b h] at hd
    have hcancel := h.cancel (f b) (f a)
    rw [hd, h.zero_op] at hcancel
    exact hab (hf hcancel)

end Sets

end ToggleDigests
