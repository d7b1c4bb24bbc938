import Colza.GuardedRuns

/-!
# Systems whose operations take effect at one event each

A system in which operations overlap is compared with one that performs an operation in one
step. `commit` says which operation takes effect with an event; the operations of a run in
this order are a run of the second system, and the two stay related.
-/
namespace CommitPoints

open GuardedRuns

variable {σ ε α χ ι : Type*} (next : σ → ε → σ) (commit : σ → ε → Option χ)

/-- The operations that take effect in a run, in order. -/
def commits (s : σ) : List ε → List χ
  | [] => []
  | e :: es => (commit s e).toList ++ commits (next s e) es

/-- What an event does to the second system. -/
def performed (perform : α → χ → α) (a : α) (x : Option χ) : α := x.elim a (perform a)

variable {next commit}

/-- What has taken effect in the first part of a run comes before the rest. -/
theorem commits_append (s : σ) (es fs : List ε) :
    commits next commit s (es ++ fs) =
      commits next commit s es ++ commits next commit (es.foldl next s) fs := by
  induction es generalizing s with
  | nil => rfl
  | cons e es ih =>
    rw [List.cons_append, commits, ih, commits, List.append_assoc]
    rfl

theorem commits_concat (s : σ) (es : List ε) (e : ε) :
    commits next commit s (es ++ [e]) =
      commits next commit s es ++ (commit (es.foldl next s) e).toList := by
  rw [commits_append, commits, commits, List.append_nil]

/-- An event that keeps the relation, with `Ok` where its operation is performed, gives a run
that keeps it. -/
theorem simulation {R : σ → α → Prop} {G : σ → ε → Prop} {Ok : α → χ → Prop}
    {perform : α → χ → α}
    (hstep : ∀ s a e, R s a → G s e → R (next s e) (performed perform a (commit s e)) ∧
      ∀ x, commit s e = some x → Ok a x)
    {s : σ} {a : α} (h : R s a) {es : List ε} (hg : Guarded G s (path next s es)) :
    R (es.foldl next s) ((commits next commit s es).foldl perform a) ∧
      Guarded Ok a (path perform a (commits next commit s es)) := by
  induction es generalizing s a with
  | nil => exact ⟨h, trivial⟩
  | cons e es ih =>
    obtain ⟨hr, hok⟩ := hstep s a e h hg.1
    obtain ⟨hrun, hrest⟩ := ih hr hg.2
    cases hc : commit s e with
    | none =>
      rw [hc] at hrun hrest
      rw [commits, hc]
      exact ⟨hrun, hrest⟩
    | some x =>
      rw [hc] at hrun hrest
      rw [commits, hc]
      exact ⟨hrun, hok x hc, hrest⟩

/-- The operations that are over are the ones listed, each once. -/
structure Listed (ended : σ → ι → Prop) (t : σ) (names : List ι) : Prop where
  nodup : names.Nodup
  ended_iff : ∀ i, ended t i ↔ i ∈ names

theorem Listed.snoc {ended : σ → ι → Prop} {s t : σ} {names : List ι} (h : Listed ended s names)
    {i : ι} (hi : ¬ ended s i) (ht : ∀ j, ended t j ↔ ended s j ∨ i = j) :
    Listed ended t (names ++ [i]) := by
  rw [h.ended_iff] at hi
  refine ⟨List.nodup_append.mpr ⟨h.nodup, by simp, ?_⟩, fun j => ?_⟩
  · intro j hj k hk he
    rw [List.mem_singleton] at hk
    exact hi (hk ▸ he ▸ hj)
  · rw [ht, h.ended_iff, List.mem_append, List.mem_singleton, eq_comm]

/-- Operations with a name, which are over once they have taken effect and not before. -/
theorem commits_once {name : χ → ι} {ended : σ → ι → Prop}
    (hended : ∀ s e i, ended (next s e) i ↔
      ended s i ∨ ∃ x, commit s e = some x ∧ name x = i)
    (hnew : ∀ s e x, commit s e = some x → ¬ ended s (name x))
    {s : σ} (hnone : ∀ i, ¬ ended s i) (es : List ε) :
    Listed ended (es.foldl next s) ((commits next commit s es).map name) := by
  induction es using List.reverseRecOn with
  | nil => exact ⟨List.nodup_nil, fun i => by simp [commits, hnone i]⟩
  | append_singleton es e ih =>
    rw [List.foldl_append, commits_concat, List.map_append]
    change Listed ended (next (es.foldl next s) e) _
    cases hc : commit (es.foldl next s) e with
    | none =>
      refine ⟨by simpa using ih.nodup, fun i => ?_⟩
      rw [hended, ih.ended_iff, hc]
      simp
    | some x =>
      refine ih.snoc (hnew _ e x hc) fun i => ?_
      rw [hended, hc]
      simp

end CommitPoints
