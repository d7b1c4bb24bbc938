import Colza.GuardedRuns
import Mathlib.Algebra.Order.BigOperators.Group.Finset
import Mathlib.Data.Fintype.Basic
import Mathlib.Logic.Function.Iterate

/-!
# Collectives between a root and any number of other ranks

Every rank is a sequential program that stops at its collective calls. A broadcast of
the root is buffered, and another rank takes the broadcasts in the order they were
sent, as long as it asks for the number of bytes that was sent. A barrier lets all
ranks pass at once. Ranks that call the same collectives in lockstep do so in every
interleaving, and only stop when all have left.
-/
namespace CollectiveNetwork

open GuardedRuns

inductive Call where
  | barrier
  | bcast (bytes : ℕ)
  deriving DecidableEq, Repr

/-- The program of the root: the collective it is at, with what it broadcasts, and where
it goes from there. It has left where there is no call. -/
structure Root (ρ π : Type) where
  call : ρ → Option (Call × Option π)
  next : ρ → ρ

/-- The program of every other rank. A barrier hands over nothing. -/
structure Leaf (μ π : Type) where
  call : μ → Option Call
  next : μ → Option π → μ

/-- `log` are the collectives the root has gone through, `issued` those of another rank. -/
structure State (n : ℕ) (ρ μ π : Type) where
  root : ρ
  log : List (Call × Option π)
  leaf : Fin n → μ
  issued : Fin n → List Call

inductive Event (n : ℕ) where
  | barrier
  | send
  | receive (k : Fin n)
  deriving DecidableEq, Repr

variable {n : ℕ} {ρ μ π : Type} {R : Root ρ π} {L : Leaf μ π} {s t : State n ρ μ π}

def State.send (R : Root ρ π) (s : State n ρ μ π) (e : Call × Option π) : State n ρ μ π :=
  { s with root := R.next s.root, log := s.log ++ [e] }

def State.receive (L : Leaf μ π) (s : State n ρ μ π) (k : Fin n) (e : Call × Option π) :
    State n ρ μ π :=
  { s with leaf := Function.update s.leaf k (L.next (s.leaf k) e.2)
           issued := Function.update s.issued k (s.issued k ++ [e.1]) }

/-- All ranks go through the same collective at once. -/
def State.together (R : Root ρ π) (L : Leaf μ π) (s : State n ρ μ π) (e : Call × Option π) :
    State n ρ μ π :=
  { root := R.next s.root
    log := s.log ++ [e]
    leaf := fun k => L.next (s.leaf k) e.2
    issued := fun k => s.issued k ++ [e.1] }

/-- Rank `k` has taken everything that was sent. -/
def CaughtUp (s : State n ρ μ π) (k : Fin n) : Prop := (s.issued k).length = s.log.length

inductive Step (R : Root ρ π) (L : Leaf μ π) (s : State n ρ μ π) :
    Event n → State n ρ μ π → Prop where
  | barrier {x} : R.call s.root = some (.barrier, x) →
      (∀ k, L.call (s.leaf k) = some .barrier ∧ CaughtUp s k) →
      Step R L s .barrier (s.together R L (.barrier, x))
  | send {bytes x} : R.call s.root = some (.bcast bytes, x) →
      Step R L s .send (s.send R (.bcast bytes, x))
  | receive {k bytes x} : L.call (s.leaf k) = some (.bcast bytes) →
      s.log[(s.issued k).length]? = some (.bcast bytes, x) →
      Step R L s (.receive k) (s.receive L k (.bcast bytes, x))

def initial (r : ρ) (m : Fin n → μ) : State n ρ μ π := ⟨r, [], m, fun _ => []⟩

def Reachable (R : Root ρ π) (L : Leaf μ π) (r : ρ) (m : Fin n → μ) (s : State n ρ μ π) : Prop :=
  Reaches (Step R L) (initial r m) s

/-- No rank can go on. -/
def Stuck (R : Root ρ π) (L : Leaf μ π) (s : State n ρ μ π) : Prop := ∀ e t, ¬ Step R L s e t

/-- Where a rank may go does not matter to whether it can. -/
theorem Stuck.congr {R' : Root ρ π} (hcall : R'.call s.root = R.call s.root) (h : Stuck R L s) :
    Stuck R' L s := by
  intro e t hs
  cases hs with
  | barrier he hk => exact h _ _ (.barrier (hcall ▸ he) hk)
  | send he => exact h _ _ (.send (hcall ▸ he))
  | receive hk he => exact h _ _ (.receive hk he)

/-- The collectives the root has issued, with the one it is at. -/
def rootIssued (R : Root ρ π) (s : State n ρ μ π) : List Call :=
  s.log.map Prod.fst ++ ((R.call s.root).map Prod.fst).toList

def leafIssued (L : Leaf μ π) (s : State n ρ μ π) (k : Fin n) : List Call :=
  s.issued k ++ (L.call (s.leaf k)).toList

/-- What the root keeps from one of its collectives to the next holds in every
interleaving. -/
theorem Reachable.root_invariant {P : ρ → Prop} (hnext : ∀ r, P r → P (R.next r)) {r : ρ}
    {m : Fin n → μ} (h : Reachable R L r m s) (hr : P r) : P s.root := by
  apply Reaches.invariant (P := fun s => P s.root) _ h hr
  intro s e t hs hstep
  cases hstep with
  | barrier _ _ => exact hnext _ hs
  | send _ => exact hnext _ hs
  | receive _ _ => exact hs

/-! ## Lockstep programs -/

/-- A relation of states in which root and leaf are at the same collective, and which they
keep when both go through it. -/
structure Lockstep (R : Root ρ π) (L : Leaf μ π) (Sim : ρ → μ → Prop) : Prop where
  same : ∀ {r m}, Sim r m → L.call m = (R.call r).map Prod.fst
  kept : ∀ {r m e}, Sim r m → R.call r = some e → Sim (R.next r) (L.next m e.2)

/-- A weaker one: it is kept as long as both are at the same collective. -/
def Tracks (R : Root ρ π) (L : Leaf μ π) (Sim : ρ → μ → Prop) : Prop :=
  ∀ r m e, Sim r m → R.call r = some e → L.call m = some e.1 → Sim (R.next r) (L.next m e.2)

theorem Lockstep.tracks {Sim : ρ → μ → Prop} (hl : Lockstep R L Sim) : Tracks R L Sim :=
  fun _ _ _ h he _ => hl.kept h he

/-- What holds in every interleaving of such programs: the root is as far as its log
says, and each other rank is where the root was after as many collectives. -/
structure Synchronized (R : Root ρ π) (Sim : ρ → μ → Prop) (r₀ : ρ) (s : State n ρ μ π) :
    Prop where
  root : s.root = R.next^[s.log.length] r₀
  log : ∀ i, i < s.log.length → s.log[i]? = R.call (R.next^[i] r₀)
  issued : ∀ k, s.issued k <+: s.log.map Prod.fst
  leaf : ∀ k, Sim (R.next^[(s.issued k).length] r₀) (s.leaf k)
  barriers : ∀ i x, s.log[i]? = some (.barrier, x) → ∀ k, i < (s.issued k).length

theorem log_append {log : List (Call × Option π)} {e : Call × Option π}
    {f : ℕ → Option (Call × Option π)}
    (h : ∀ i, i < log.length → log[i]? = f i) (he : f log.length = some e) (i : ℕ)
    (hi : i < (log ++ [e]).length) : (log ++ [e])[i]? = f i := by
  rw [List.length_append, List.length_singleton] at hi
  by_cases hlt : i < log.length
  · rw [List.getElem?_append_left hlt]
    exact h i hlt
  · have hlast : i = log.length := by omega
    rw [hlast, he]
    simp

theorem prefix_snoc {α : Type} {l m : List α} {a : α} (h : l <+: m)
    (ha : m[l.length]? = some a) : l ++ [a] <+: m := by
  obtain ⟨r, rfl⟩ := h
  rw [List.getElem?_append_right (Nat.le_refl _), Nat.sub_self] at ha
  cases r with
  | nil => cases ha
  | cons b r =>
    obtain rfl : b = a := Option.some.inj ha
    exact ⟨r, by simp⟩

theorem Synchronized.initial {Sim : ρ → μ → Prop} {r : ρ} {m : Fin n → μ}
    (h : ∀ k, Sim r (m k)) : Synchronized R Sim r (initial r m) where
  root := rfl
  log _ hi := (Nat.not_lt_zero _ hi).elim
  issued _ := List.prefix_refl _
  leaf := h
  barriers _ _ h := (nomatch h)

section Steps

variable {Sim : ρ → μ → Prop} {r₀ : ρ}

theorem Synchronized.call (h : Synchronized R Sim r₀ s) {e : Call × Option π}
    (he : R.call s.root = some e) : R.call (R.next^[s.log.length] r₀) = some e := by
  rw [← h.root]
  exact he

theorem Synchronized.root_next (h : Synchronized R Sim r₀ s) (e : Call × Option π) :
    R.next s.root = R.next^[(s.log ++ [e]).length] r₀ := by
  rw [List.length_append, List.length_singleton, Function.iterate_succ_apply', ← h.root]

theorem Synchronized.issued_eq (h : Synchronized R Sim r₀ s) {k : Fin n} (hk : CaughtUp s k) :
    s.issued k = s.log.map Prod.fst :=
  (h.issued k).eq_of_length (by rw [List.length_map]; exact hk)

theorem Synchronized.together (hl : Tracks R L Sim) (h : Synchronized R Sim r₀ s)
    {e : Call × Option π} (he : R.call s.root = some e)
    (hk : ∀ k, L.call (s.leaf k) = some e.1 ∧ CaughtUp s k) :
    Synchronized R Sim r₀ (s.together R L e) where
  root := h.root_next e
  log := log_append h.log (h.call he)
  issued k := by
    change s.issued k ++ [e.1] <+: (s.log ++ [e]).map Prod.fst
    rw [h.issued_eq (hk k).2, List.map_append]
    exact List.prefix_refl _
  leaf k := by
    change Sim (R.next^[(s.issued k ++ [e.1]).length] r₀) (L.next (s.leaf k) e.2)
    have hsim := h.leaf k
    rw [(hk k).2, ← h.root] at hsim
    rw [List.length_append, List.length_singleton, (hk k).2, Function.iterate_succ_apply',
      ← h.root]
    exact hl _ _ _ hsim he (hk k).1
  barriers i x hi k := by
    have hlt := (List.getElem?_eq_some_iff.mp hi).1
    have hlen : (s.issued k).length = s.log.length := (hk k).2
    simp only [State.together, List.length_append, List.length_singleton] at hlt ⊢
    omega

theorem Synchronized.send (h : Synchronized R Sim r₀ s) {bytes : ℕ} {x : Option π}
    (he : R.call s.root = some (.bcast bytes, x)) :
    Synchronized R Sim r₀ (s.send R (.bcast bytes, x)) where
  root := h.root_next _
  log := log_append h.log (h.call he)
  issued k := by
    change s.issued k <+: (s.log ++ [_]).map Prod.fst
    rw [List.map_append]
    exact (h.issued k).trans (List.prefix_append _ _)
  leaf := h.leaf
  barriers i y hi := by
    by_cases hlt : i < s.log.length
    · have hi : (s.log ++ [(.bcast bytes, x)])[i]? = some (.barrier, y) := hi
      rw [List.getElem?_append_left hlt] at hi
      exact h.barriers i y hi
    · have hi : (s.log ++ [(.bcast bytes, x)])[i]? = some (.barrier, y) := hi
      rw [List.getElem?_append_right (by omega)] at hi
      have hzero := (List.getElem?_eq_some_iff.mp hi).1
      simp only [List.length_singleton, Nat.lt_one_iff] at hzero
      rw [hzero] at hi
      cases hi

theorem Synchronized.receive (hl : Tracks R L Sim) (h : Synchronized R Sim r₀ s) {k : Fin n}
    {bytes : ℕ} {x : Option π} (hk : L.call (s.leaf k) = some (.bcast bytes))
    (he : s.log[(s.issued k).length]? = some (.bcast bytes, x)) :
    Synchronized R Sim r₀ (s.receive L k (.bcast bytes, x)) where
  root := h.root
  log := h.log
  issued j := by
    by_cases hj : j = k
    · subst hj
      have hmap : (s.log.map Prod.fst)[(s.issued j).length]? = some (.bcast bytes) := by
        rw [List.getElem?_map, he]
        rfl
      simpa [State.receive] using prefix_snoc (h.issued j) hmap
    · simpa [State.receive, hj] using h.issued j
  leaf j := by
    by_cases hj : j = k
    · subst hj
      have hcall := (h.log _ (List.getElem?_eq_some_iff.mp he).1).symm.trans he
      have hnext := hl _ _ _ (h.leaf j) hcall hk
      simpa [State.receive, Function.iterate_succ_apply'] using hnext
    · simpa [State.receive, hj] using h.leaf j
  barriers i y hi j := by
    have hlt := h.barriers i y hi j
    by_cases hj : j = k
    · subst hj
      simp only [State.receive, Function.update_self, List.length_append, List.length_singleton]
      omega
    · simpa [State.receive, hj] using hlt

theorem synchronized_step {e : Event n} (hl : Tracks R L Sim) (h : Synchronized R Sim r₀ s)
    (hs : Step R L s e t) : Synchronized R Sim r₀ t := by
  cases hs with
  | barrier hcall hk => exact h.together hl hcall hk
  | send hcall => exact h.send hcall
  | receive hcall hlog => exact h.receive hl hcall hlog

theorem synchronized_reachable {m : Fin n → μ} (hl : Tracks R L Sim)
    (hm : ∀ k, Sim r₀ (m k)) (hr : Reachable R L r₀ m s) : Synchronized R Sim r₀ s := by
  apply Reaches.invariant _ hr (Synchronized.initial hm)
  intro s e t h hs
  exact synchronized_step hl h hs

theorem Synchronized.leaf_call (hl : Lockstep R L Sim) (h : Synchronized R Sim r₀ s) {k : Fin n}
    (hlt : (s.issued k).length < s.log.length) :
    ∃ e, s.log[(s.issued k).length]? = some e ∧ L.call (s.leaf k) = some e.1 := by
  refine ⟨s.log[(s.issued k).length], List.getElem?_eq_getElem hlt, ?_⟩
  rw [hl.same (h.leaf k), ← h.log _ hlt, List.getElem?_eq_getElem hlt]
  rfl

theorem Synchronized.leaf_call_of_caughtUp (hl : Lockstep R L Sim) (h : Synchronized R Sim r₀ s)
    {k : Fin n} (hk : CaughtUp s k) : L.call (s.leaf k) = (R.call s.root).map Prod.fst := by
  rw [hl.same (h.leaf k), hk, ← h.root]

/-- In lockstep no rank issues a collective that the root does not. -/
theorem Synchronized.agree (hl : Lockstep R L Sim) (h : Synchronized R Sim r₀ s) (k : Fin n) :
    leafIssued L s k <+: rootIssued R s := by
  unfold leafIssued rootIssued
  have hle := (h.issued k).length_le
  rw [List.length_map] at hle
  by_cases hlt : (s.issued k).length < s.log.length
  · obtain ⟨e, he, hcall⟩ := h.leaf_call hl hlt
    have hmap : (s.log.map Prod.fst)[(s.issued k).length]? = some e.1 := by
      rw [List.getElem?_map, he]
      rfl
    rw [hcall]
    exact (prefix_snoc (h.issued k) hmap).trans (List.prefix_append _ _)
  · have hk : CaughtUp s k := by
      unfold CaughtUp
      omega
    rw [h.issued_eq hk, h.leaf_call_of_caughtUp hl hk]

/-- In lockstep the ranks only stop when all have left. -/
theorem Synchronized.left_of_stuck (hl : Lockstep R L Sim) (h : Synchronized R Sim r₀ s)
    (hs : Stuck R L s) : R.call s.root = none ∧ ∀ k, CaughtUp s k ∧ Sim s.root (s.leaf k) := by
  have hk : ∀ k, CaughtUp s k := by
    intro k
    have hle := (h.issued k).length_le
    rw [List.length_map] at hle
    by_contra hne
    have hlt : (s.issued k).length < s.log.length := Nat.lt_of_le_of_ne hle hne
    obtain ⟨⟨call, x⟩, he, hcall⟩ := h.leaf_call hl hlt
    cases call with
    | barrier => exact absurd (h.barriers _ x he k) (Nat.lt_irrefl _)
    | bcast bytes => exact hs _ _ (.receive hcall he)
  refine ⟨?_, fun k => ⟨hk k, ?_⟩⟩
  · cases hcall : R.call s.root with
    | none => rfl
    | some e =>
      obtain ⟨call, x⟩ := e
      cases call with
      | barrier =>
        refine (hs _ _ (.barrier hcall fun k => ⟨?_, hk k⟩)).elim
        rw [h.leaf_call_of_caughtUp hl (hk k), hcall]
        rfl
      | bcast bytes => exact (hs _ _ (.send hcall)).elim
  · have hsim := h.leaf k
    rwa [hk k, ← h.root] at hsim

end Steps

/-! ## The length of a run -/

/-- How many collectives the ranks have gone through. -/
def State.progress (s : State n ρ μ π) : ℕ := s.log.length + ∑ k, (s.issued k).length

theorem progress_step {e : Event n} (h : Step R L s e t) : s.progress < t.progress := by
  unfold State.progress
  cases h with
  | barrier _ _ =>
    apply Nat.add_lt_add_of_lt_of_le
    · simp [State.together]
    · exact Finset.sum_le_sum fun k _ => by simp [State.together]
  | send _ => simp [State.send]
  | @receive k bytes x _ _ =>
    apply Nat.add_lt_add_left
    apply Finset.sum_lt_sum
    · intro j _
      by_cases hj : j = k
      · subst hj
        simp [State.receive]
      · simp [State.receive, hj]
    · exact ⟨k, Finset.mem_univ k, by simp [State.receive]⟩

theorem progress_run {p : List (Event n × State n ρ μ π)} (h : Run (Step R L) s p) :
    s.progress + p.length ≤ (final s p).progress := by
  induction h with
  | nil => exact Nat.le_refl _
  | @cons s e t p h _ ih =>
    have hlt := progress_step h
    rw [List.length_cons]
    change s.progress + (p.length + 1) ≤ (final t p).progress
    omega

/-- A root that leaves after `N` collectives lets no run go on for ever. -/
theorem run_length_le {Sim : ρ → μ → Prop} {r₀ : ρ} {m : Fin n → μ} {N : ℕ}
    {p : List (Event n × State n ρ μ π)} (hl : Tracks R L Sim) (hm : ∀ k, Sim r₀ (m k))
    (hp : Run (Step R L) (initial r₀ m) p) (hN : R.call (R.next^[N] r₀) = none) :
    p.length ≤ N * (n + 1) := by
  have hsync := synchronized_reachable hl hm hp.reaches
  generalize hs : final (initial r₀ m) p = s at hsync
  have hlog : s.log.length ≤ N := by
    by_contra hgt
    have hlt : N < s.log.length := Nat.lt_of_not_le hgt
    have hsome := hsync.log N hlt
    rw [hN, List.getElem?_eq_getElem hlt] at hsome
    cases hsome
  have hissued : ∑ k, (s.issued k).length ≤ n * N := by
    have hle : ∀ k ∈ Finset.univ, (s.issued k).length ≤ N := by
      intro k _
      have hprefix := (hsync.issued k).length_le
      rw [List.length_map] at hprefix
      exact hprefix.trans hlog
    simpa using Finset.sum_le_card_nsmul Finset.univ _ N hle
  have hrun := progress_run hp
  rw [hs] at hrun
  have hprogress : s.progress ≤ N + n * N := Nat.add_le_add hlog hissued
  have hmul : N * (n + 1) = N + n * N := by rw [Nat.mul_succ, Nat.mul_comm, Nat.add_comm]
  omega

/-! ## Going through one collective together -/

/-- The broadcast `e` was sent, and the ranks of `S` have taken it. -/
def State.taken (R : Root ρ π) (L : Leaf μ π) (s : State n ρ μ π) (e : Call × Option π)
    (S : Finset (Fin n)) : State n ρ μ π :=
  { root := R.next s.root
    log := s.log ++ [e]
    leaf := fun k => if k ∈ S then L.next (s.leaf k) e.2 else s.leaf k
    issued := fun k => if k ∈ S then s.issued k ++ [e.1] else s.issued k }

theorem taken_insert {e : Call × Option π} {S : Finset (Fin n)} {k : Fin n} (hk : k ∉ S) :
    (s.taken R L e S).receive L k e = s.taken R L e (insert k S) := by
  have hleaf : Function.update (s.taken R L e S).leaf k (L.next ((s.taken R L e S).leaf k) e.2) =
      (s.taken R L e (insert k S)).leaf := by
    funext j
    by_cases hj : j = k
    · subst hj
      simp [State.taken, hk]
    · simp [State.taken, hj]
  have hissued : Function.update (s.taken R L e S).issued k ((s.taken R L e S).issued k ++ [e.1]) =
      (s.taken R L e (insert k S)).issued := by
    funext j
    by_cases hj : j = k
    · subst hj
      simp [State.taken, hk]
    · simp [State.taken, hj]
  unfold State.receive
  rw [hleaf, hissued]
  rfl

theorem reaches_taken {bytes : ℕ} {x : Option π} (he : R.call s.root = some (.bcast bytes, x))
    (hk : ∀ k, L.call (s.leaf k) = some (.bcast bytes) ∧ CaughtUp s k) (S : Finset (Fin n)) :
    Reaches (Step R L) s (s.taken R L (.bcast bytes, x) S) := by
  induction S using Finset.induction_on with
  | empty =>
    have h : s.taken R L (.bcast bytes, x) ∅ = s.send R (.bcast bytes, x) := by
      simp [State.taken, State.send]
    rw [h]
    exact .single ⟨_, .send he⟩
  | insert k S hS ih =>
    rw [← taken_insert hS]
    refine ih.snoc (.receive ?_ ?_)
    · simpa [State.taken, hS] using (hk k).1
    · have hlen : (s.issued k).length = s.log.length := (hk k).2
      simp [State.taken, hS, hlen]

/-- All ranks are at the same collective: some interleaving takes all of them through it. -/
theorem reaches_together {e : Call × Option π} (he : R.call s.root = some e)
    (hk : ∀ k, L.call (s.leaf k) = some e.1 ∧ CaughtUp s k) :
    Reaches (Step R L) s (s.together R L e) := by
  obtain ⟨call, x⟩ := e
  cases call with
  | barrier => exact .single ⟨_, .barrier he hk⟩
  | bcast bytes =>
    have h := reaches_taken he hk Finset.univ
    have hall : s.taken R L (.bcast bytes, x) Finset.univ = s.together R L (.bcast bytes, x) := by
      simp [State.taken, State.together]
    rwa [hall] at h

theorem together_caughtUp {e : Call × Option π} {k : Fin n} (h : CaughtUp s k) :
    CaughtUp (s.together R L e) k := by
  unfold CaughtUp at h ⊢
  simp [State.together, h]

/-- The root is at `r`, and every other rank is caught up, at a place of `P`. -/
def AllAt (s : State n ρ μ π) (r : ρ) (P : μ → Prop) : Prop :=
  s.root = r ∧ ∀ k, P (s.leaf k) ∧ CaughtUp s k

theorem AllAt.next {r : ρ} {P Q : μ → Prop} {e : Call × Option π} (h : AllAt s r P)
    (he : R.call r = some e) (hP : ∀ m, P m → L.call m = some e.1 ∧ Q (L.next m e.2)) :
    ∃ t, Reaches (Step R L) s t ∧ AllAt t (R.next r) Q := by
  obtain ⟨rfl, hk⟩ := h
  refine ⟨s.together R L e, reaches_together he fun k => ?_, rfl, fun k => ?_⟩
  · exact ⟨(hP _ (hk k).1).1, (hk k).2⟩
  · exact ⟨(hP _ (hk k).1).2, together_caughtUp (hk k).2⟩

/-- No rank goes on when the root has left and the others have taken all it sent. -/
theorem AllAt.stuck {r : ρ} {P : μ → Prop} (h : AllAt s r P) (hr : R.call r = none) :
    Stuck R L s := by
  obtain ⟨rfl, hk⟩ := h
  intro e t hs
  cases hs with
  | barrier hcall _ =>
    rw [hr] at hcall
    cases hcall
  | send hcall =>
    rw [hr] at hcall
    cases hcall
  | @receive k bytes x hcall hlog =>
    have hlen : (s.issued k).length = s.log.length := (hk k).2
    rw [hlen, List.getElem?_eq_none (Nat.le_refl _)] at hlog
    cases hlog

end CollectiveNetwork
