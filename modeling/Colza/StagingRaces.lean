import Colza.StagedBlocks
import Mathlib.Data.Fin.VecNotation

/-!
# Calls of `DummyPipeline::stage` that run at once

A call looks for its block in one critical section and stores it in another, with the
transfer from the sender between them. The mutex is free whenever a call is suspended, so a
critical section is one event.
-/
namespace StagingRaces

open Interfaces StagedBlocks GuardedRuns

/-- What a call of `stage` is given, as far as the datasets depend on it. -/
structure StageCall where
  iteration : UInt64
  args : StageArgs
  deriving DecidableEq, Repr

/-- The place of the block in the datasets. -/
def StageCall.key (c : StageCall) : UInt64 × String × UInt64 :=
  (c.iteration, c.args.datasetName, c.args.blockId)

/-- Where a call is suspended, or how it has ended. -/
inductive Pc where
  | arrived
  | transferring
  | storing (block : DataBlock)
  | failed (result : RequestResult Int32)
  | succeeded (block : DataBlock)
  deriving DecidableEq, Repr

structure State (n : ℕ) where
  datasets : Datasets
  pc : Fin n → Pc

variable {n : ℕ}

def initial (m : Datasets) : State n := ⟨m, fun _ => .arrived⟩

def State.goto (s : State n) (k : Fin n) (q : Pc) : State n :=
  { s with pc := Function.update s.pc k q }

/-- The block with this key. -/
def State.find (s : State n) (key : UInt64 × String × UInt64) : Option DataBlock :=
  s.datasets.find key.1 key.2.1 key.2.2

inductive Event (n : ℕ) where
  | check (k : Fin n)
  | transfer (k : Fin n) (outcome : Except String (List UInt8))
  | store (k : Fin n)

def Event.call : Event n → Fin n
  | .check k | .transfer k _ | .store k => k

/-- An event that is not possible changes nothing. -/
def next (calls : Fin n → StageCall) (s : State n) : Event n → State n
  | .check k =>
    match s.pc k with
    | .arrived =>
      if alreadyExists s.datasets (calls k).iteration (calls k).args then
        s.goto k (.failed blockAlreadyExists)
      else s.goto k .transferring
    | _ => s
  | .transfer k outcome =>
    match s.pc k with
    | .transferring =>
      match outcome with
      | .error what => s.goto k (.failed (transferFailed what))
      | .ok data => s.goto k (.storing (newBlock (calls k).args data))
    | _ => s
  | .store k =>
    match s.pc k with
    | .storing block =>
      { s.goto k (.succeeded block) with
        datasets := s.datasets.assign (calls k).iteration (calls k).args.datasetName
          (calls k).args.blockId block }
    | _ => s

/-- A call that nothing interrupts is the call of the backend class. -/
theorem solo_stage (calls : Fin n → StageCall) (s : State n) (k : Fin n)
    (outcome : Except String (List UInt8)) (hk : s.pc k = .arrived) :
    let t := [Event.check k, .transfer k outcome, .store k].foldl (next calls) s
    let r := DummyPipeline.stage (fun _ => outcome) s.datasets (calls k).iteration (calls k).args
    t.datasets = r.2 ∧ ((∃ b, t.pc k = .succeeded b) ↔ r.1.success = true) := by
  unfold DummyPipeline.stage
  cases hx : alreadyExists s.datasets (calls k).iteration (calls k).args with
  | true => simp [next, hk, hx, State.goto, blockAlreadyExists]
  | false =>
    cases outcome with
    | error what => simp [next, hk, hx, State.goto, transferFailed]
    | ok data => simp [next, hk, hx, State.goto]

/-- At most one call stores a block under a key, and the block that is there is its own. -/
structure StoredOnce (calls : Fin n → StageCall) (s : State n) : Prop where
  once : ∀ j k b b', (calls j).key = (calls k).key → s.pc j = .succeeded b →
    s.pc k = .succeeded b' → j = k
  stored : ∀ k b, s.pc k = .succeeded b → s.find (calls k).key = some b

/-- Only a call that has then succeeded changes the datasets. -/
def FailuresKeep (calls : Fin n → StageCall) (s : State n) (e : Event n) : Prop :=
  (next calls s e).datasets = s.datasets ∨ ∃ b, (next calls s e).pc e.call = .succeeded b

/-- A call that has its block stores it where there is none. -/
def StoresNew (calls : Fin n → StageCall) (s : State n) : Event n → Prop
  | .store k => ∀ b, s.pc k = .storing b → s.find (calls k).key = none
  | _ => True

/-! ## One event -/

/-- Everything one event can do. -/
inductive Move (calls : Fin n → StageCall) (s : State n) : Event n → State n → Prop where
  | idle {e} : StoresNew calls s e → Move calls s e s
  | refused {k} : s.pc k = .arrived → Move calls s (.check k) (s.goto k (.failed blockAlreadyExists))
  | passed {k} : s.pc k = .arrived → s.find (calls k).key = none →
      Move calls s (.check k) (s.goto k .transferring)
  | lost {k what} : s.pc k = .transferring →
      Move calls s (.transfer k (.error what)) (s.goto k (.failed (transferFailed what)))
  | pulled {k data} : s.pc k = .transferring →
      Move calls s (.transfer k (.ok data)) (s.goto k (.storing (newBlock (calls k).args data)))
  | stored {k b} : s.pc k = .storing b →
      Move calls s (.store k) { s.goto k (.succeeded b) with
        datasets := s.datasets.assign (calls k).iteration (calls k).args.datasetName
          (calls k).args.blockId b }

section Moves

variable {calls : Fin n → StageCall} {s t : State n} {e : Event n} {k : Fin n} {q : Pc}

theorem next_move (calls : Fin n → StageCall) (s : State n) (e : Event n) :
    Move calls s e (next calls s e) := by
  cases e with
  | check k =>
    cases hk : s.pc k with
    | arrived =>
      cases hx : alreadyExists s.datasets (calls k).iteration (calls k).args with
      | true =>
        simp only [next, hk, hx, if_true]
        exact .refused hk
      | false =>
        simp only [next, hk, hx, Bool.false_eq_true, if_false]
        exact .passed hk (Option.isSome_eq_false_iff.mp hx |> Option.isNone_iff_eq_none.mp)
    | _ =>
      simp only [next, hk]
      exact .idle trivial
  | transfer k outcome =>
    cases hk : s.pc k with
    | transferring =>
      cases outcome with
      | error what =>
        simp only [next, hk]
        exact .lost hk
      | ok data =>
        simp only [next, hk]
        exact .pulled hk
    | _ =>
      simp only [next, hk]
      exact .idle trivial
  | store k =>
    cases hk : s.pc k with
    | storing b =>
      simp only [next, hk]
      exact .stored hk
    | _ =>
      simp only [next, hk]
      exact .idle fun b hb => by cases hk.symm.trans hb

@[simp] theorem goto_pc_self (s : State n) (k : Fin n) (q : Pc) : (s.goto k q).pc k = q := by
  simp [State.goto]

theorem goto_pc_of_ne (s : State n) {j k : Fin n} (q : Pc) (h : j ≠ k) :
    (s.goto k q).pc j = s.pc j := by
  simp [State.goto, h]

/-! ## What holds between the two critical sections -/

/-- A call that has found no block finds none, or another call has stored it since. -/
def Overtaken (calls : Fin n → StageCall) (s : State n) : Prop :=
  ∀ k, s.pc k = .transferring ∨ (∃ b, s.pc k = .storing b) → s.find (calls k).key = none ∨
    ∃ j b, j ≠ k ∧ (calls j).key = (calls k).key ∧ s.pc j = .succeeded b

/-- The move of a call that stores nothing. -/
theorem succeeded_goto (hk : ∀ b, s.pc k ≠ .succeeded b) (hq : ∀ b, q ≠ .succeeded b) {j : Fin n}
    {b : DataBlock} : (s.goto k q).pc j = .succeeded b ↔ s.pc j = .succeeded b := by
  by_cases hj : j = k
  · subst hj
    rw [goto_pc_self]
    exact iff_of_false (hq b) (hk b)
  · rw [goto_pc_of_ne s q hj]

theorem storedOnce_goto_iff (hk : ∀ b, s.pc k ≠ .succeeded b) (hq : ∀ b, q ≠ .succeeded b) :
    StoredOnce calls (s.goto k q) ↔ StoredOnce calls s := by
  have hpc {j : Fin n} {b : DataBlock} := succeeded_goto (j := j) (b := b) hk hq
  constructor
  · intro h
    exact ⟨fun i j b b' hkey hi hj => h.once i j b b' hkey (hpc.mpr hi) (hpc.mpr hj),
      fun j b hj => h.stored j b (hpc.mpr hj)⟩
  · intro h
    exact ⟨fun i j b b' hkey hi hj => h.once i j b b' hkey (hpc.mp hi) (hpc.mp hj),
      fun j b hj => h.stored j b (hpc.mp hj)⟩

theorem overtaken_goto (h : Overtaken calls s) (hk : ∀ b, s.pc k ≠ .succeeded b)
    (hq : ∀ b, q ≠ .succeeded b)
    (hnew : q = .transferring ∨ (∃ b, q = .storing b) →
      s.pc k = .transferring ∨ s.find (calls k).key = none) : Overtaken calls (s.goto k q) := by
  intro j hj
  have hcases : s.find (calls j).key = none ∨
      ∃ i b, i ≠ j ∧ (calls i).key = (calls j).key ∧ s.pc i = .succeeded b := by
    by_cases hjk : j = k
    · subst hjk
      rw [goto_pc_self] at hj
      rcases hnew hj with ht | hnone
      · exact h j (Or.inl ht)
      · exact Or.inl hnone
    · rw [goto_pc_of_ne s q hjk] at hj
      exact h j hj
  rcases hcases with hnone | ⟨i, b, hij, hkey, hi⟩
  · exact Or.inl hnone
  · exact Or.inr ⟨i, b, hij, hkey, (succeeded_goto hk hq).mpr hi⟩

theorem find_stored_self (s : State n) (k : Fin n) (b : DataBlock) :
    State.find ⟨s.datasets.assign (calls k).iteration (calls k).args.datasetName
      (calls k).args.blockId b, (s.goto k (.succeeded b)).pc⟩ (calls k).key = some b :=
  find_assign_self ..

theorem find_stored_of_ne (s : State n) (k : Fin n) (b : DataBlock)
    {key : UInt64 × String × UInt64} (h : key ≠ (calls k).key) :
    State.find ⟨s.datasets.assign (calls k).iteration (calls k).args.datasetName
      (calls k).args.blockId b, (s.goto k (.succeeded b)).pc⟩ key = s.find key :=
  find_assign_of_ne _ _ _ _ _ h

theorem overtaken_move (h : Overtaken calls s) (m : Move calls s e t) : Overtaken calls t := by
  cases m with
  | idle _ => exact h
  | refused hk | lost hk =>
    exact overtaken_goto h (by simp [hk]) (fun b => Pc.noConfusion) (by simp)
  | passed hk hnone =>
    exact overtaken_goto h (by simp [hk]) (fun b => Pc.noConfusion) fun _ => Or.inr hnone
  | pulled hk =>
    exact overtaken_goto h (by simp [hk]) (fun b => Pc.noConfusion) fun _ => Or.inl hk
  | @stored k b hk =>
    intro j hj
    have hjk : j ≠ k := by
      rintro rfl
      rw [goto_pc_self] at hj
      rcases hj with hj | ⟨b, hj⟩ <;> cases hj
    by_cases hkey : (calls j).key = (calls k).key
    · exact Or.inr ⟨k, b, hjk.symm, hkey.symm, goto_pc_self s k _⟩
    · rw [goto_pc_of_ne s _ hjk] at hj
      rcases h j hj with hnone | ⟨i, b', hij, hi, hs⟩
      · exact Or.inl ((find_stored_of_ne s k b hkey).trans hnone)
      · refine Or.inr ⟨i, b', hij, hi, ?_⟩
        have hik : i ≠ k := by
          rintro rfl
          cases hk.symm.trans hs
        exact (goto_pc_of_ne s _ hik).trans hs

/-- The second critical section keeps the blocks of the other calls exactly when it stores
under a new key. -/
theorem storedOnce_store_iff (ho : Overtaken calls s) (h : StoredOnce calls s) {b : DataBlock}
    (hk : s.pc k = .storing b) :
    StoredOnce calls ⟨s.datasets.assign (calls k).iteration (calls k).args.datasetName
        (calls k).args.blockId b, (s.goto k (.succeeded b)).pc⟩ ↔
      s.find (calls k).key = none := by
  have keep {j : Fin n} (hj : j ≠ k) : (s.goto k (.succeeded b)).pc j = s.pc j :=
    goto_pc_of_ne s _ hj
  constructor
  · intro ht
    rcases ho k (Or.inr ⟨b, hk⟩) with hnone | ⟨j, b', hjk, hkey, hj⟩
    · exact hnone
    · exact (hjk (ht.once j k b' b hkey ((keep hjk).trans hj) (goto_pc_self s k _))).elim
  · intro hnone
    -- no other call has stored a block under the key
    have hkeys {j : Fin n} {b' : DataBlock} (hj : s.pc j = .succeeded b') :
        (calls j).key ≠ (calls k).key := by
      intro hkey
      have hs := h.stored j b' hj
      rw [hkey, hnone] at hs
      cases hs
    have hold {j : Fin n} {b' : DataBlock} (hj : (s.goto k (.succeeded b)).pc j = .succeeded b') :
        j = k ∧ b' = b ∨ j ≠ k ∧ s.pc j = .succeeded b' := by
      by_cases hjk : j = k
      · subst hjk
        rw [goto_pc_self] at hj
        exact Or.inl ⟨rfl, (Pc.succeeded.inj hj).symm⟩
      · exact Or.inr ⟨hjk, (keep hjk).symm.trans hj⟩
    refine ⟨fun i j b₁ b₂ hkey hi hj => ?_, fun j b' hj => ?_⟩
    · rcases hold hi with ⟨rfl, -⟩ | ⟨-, hi'⟩
      · rcases hold hj with ⟨rfl, -⟩ | ⟨-, hj'⟩
        · rfl
        · exact (hkeys hj' hkey.symm).elim
      · rcases hold hj with ⟨rfl, -⟩ | ⟨-, hj'⟩
        · exact (hkeys hi' hkey).elim
        · exact h.once i j b₁ b₂ hkey hi' hj'
    · rcases hold hj with ⟨rfl, rfl⟩ | ⟨-, hj⟩
      · exact find_stored_self s j b'
      · exact (find_stored_of_ne s k b (hkeys hj)).trans (h.stored j b' hj)

theorem move_safe_iff (ho : Overtaken calls s) (h : StoredOnce calls s)
    (m : Move calls s e t) : StoredOnce calls t ↔ StoresNew calls s e := by
  cases m with
  | idle hg => exact iff_of_true h hg
  | refused hk | passed hk _ | lost hk | pulled hk =>
    exact iff_of_true ((storedOnce_goto_iff (by simp [hk]) (fun b => Pc.noConfusion)).mpr h) trivial
  | @stored k b hk =>
    refine (storedOnce_store_iff ho h hk).trans ?_
    constructor
    · intro hnone _ _
      exact hnone
    · exact fun hg => hg b hk

theorem move_failuresKeep (m : Move calls s e t) :
    t.datasets = s.datasets ∨ ∃ b, t.pc e.call = .succeeded b := by
  cases m with
  | @stored k b hk => exact Or.inr ⟨b, goto_pc_self s k _⟩
  | _ => exact Or.inl rfl

end Moves

/-- Any calls of `stage`, suspended anywhere, on any datasets: one success a key and its block
kept, exactly when no call comes to store a block under a key that is there. -/
theorem stored_once_iff_stores_new (calls : Fin n → StageCall) (m : Datasets)
    (events : List (Event n)) :
    let run := path (next calls) (initial m) events
    Always (StoredOnce calls) (initial m) run ∧ Guarded (FailuresKeep calls) (initial m) run ↔
      Guarded (StoresNew calls) (initial m) run := by
  intro run
  refine safe_iff_guarded (I := Overtaken calls) ?_ ?_ (path_run (next calls) (initial m) events)
    (fun k hk => ?_) ⟨fun j k b b' _ hj => Pc.noConfusion hj, fun k b hk => Pc.noConfusion hk⟩
  · rintro s e t hs rfl
    exact overtaken_move hs (next_move calls s e)
  · rintro s e t ho hs rfl
    have hm := next_move calls s e
    exact (and_iff_left (move_failuresKeep hm)).trans (move_safe_iff ho hs hm)
  · rcases hk with hk | ⟨b, hk⟩ <;> cases hk

/-- Two calls for one block both find it missing, and both report success. -/
theorem block_stored_twice :
    ¬ ∀ (calls : Fin 2 → StageCall) (m : Datasets) (events : List (Event 2)),
      Always (StoredOnce calls) (initial m) (path (next calls) (initial m) events) ∧
        Guarded (FailuresKeep calls) (initial m) (path (next calls) (initial m) events) := by
  intro h
  have hl := (h (fun _ => ⟨1, blockArgs 0⟩) ∅ [.check 0, .check 1, .transfer 0 (.ok [1]),
    .transfer 1 (.ok [2]), .store 0, .store 1]).1.last
  have hs := hl.once 0 1 (newBlock (blockArgs 0) [1]) (newBlock (blockArgs 0) [2]) rfl (by decide)
    (by decide)
  revert hs
  decide

end StagingRaces
