import Colza.ElasticStaging
import Colza.ViewRefreshes
import Mathlib.Data.Int.CardIntervalMod

/-!
# Where the blocks of an iteration are kept

The default hash function sends a block to the server in place `blockId` modulo the number of
servers. Consecutive block ids spread evenly over the servers of the iteration, in whatever
order they are staged and however many servers the group has by then.
-/
namespace BlockPlacement

open Interfaces ProviderHandlers ClientHandles DistributedStart ServedStart StagedBlocks
open StagingServers ElasticStaging GuardedRuns ObservedRuns ViewRefreshes

/-! ## Consecutive numbers -/

theorem countP_range (p : ℕ → Prop) [DecidablePred p] (m : ℕ) :
    (List.range m).countP (fun j => decide (p j)) = m.count p := by
  induction m with
  | zero => rfl
  | succ m ih =>
    rw [List.range_succ, List.countP_append, ih, Nat.count_succ, List.countP_singleton]
    simp only [decide_eq_true_eq]

/-- Of `m` consecutive numbers `m / n` have this remainder, or one more. -/
theorem countP_range'_mod {n k : ℕ} (hk : k < n) (first m : ℕ) :
    ∃ extra ≤ 1, (List.range' first m).countP (fun b => decide (b % n = k)) = m / n + extra := by
  have hn : 0 < n := Nat.zero_lt_of_lt hk
  -- the first of them with this remainder comes after `v` others
  obtain ⟨v, hv⟩ : ∃ v, (first + v) % n = k := by
    refine ⟨n - first % n + k, ?_⟩
    have hle := (Nat.mod_lt first hn).le
    have hsplit := Nat.div_add_mod first n
    have hsum : first + (n - first % n + k) = k + n * (first / n + 1) := by
      rw [Nat.mul_add, Nat.mul_one]
      omega
    rw [hsum, Nat.add_mul_mod_self_left, Nat.mod_eq_of_lt hk]
  have hcount : (List.range' first m).countP (fun b => decide (b % n = k)) =
      (List.range m).countP fun j => decide (j ≡ v [MOD n]) := by
    rw [List.range'_eq_map_range, List.countP_map]
    refine List.countP_congr fun j _ => ?_
    rw [Function.comp_apply, decide_eq_true_iff, decide_eq_true_iff, ← hv]
    exact Nat.ModEq.add_iff_left rfl
  rw [hcount, countP_range, Nat.count_modEq_card m hn v]
  by_cases hlt : v % n < m % n
  · exact ⟨1, Nat.le_refl 1, by rw [if_pos hlt]⟩
  · exact ⟨0, Nat.zero_le 1, by rw [if_neg hlt]⟩

/-! ## Blocks that are staged in one iteration -/

/-- A block: what is told about it, and its bytes. -/
abbrev Sent := StageArgs × List UInt8

def keyOf (x : Sent) : String × UInt64 := (x.1.datasetName, x.1.blockId)

/-- The calls that stage these blocks. -/
def stages (i : UInt64) (sent : List Sent) : List Event :=
  sent.map fun x => .stage i x.1 (.ok x.2)

section Stages

variable {a : Store} {i : UInt64} {sent : List Sent}

/-- The store is open and has these blocks. -/
structure Has (a : Store) (i : UInt64) (sent : List Sent) : Prop where
  isOpen : a.isOpen i
  blocks : ∀ x ∈ sent, a.blocks (keyOf x) = some (newBlock x.1 x.2)

/-- Blocks with keys of their own are all accepted. -/
theorem stages_perform (hopen : a.isOpen i) (hnodup : (sent.map keyOf).Nodup)
    (hnone : ∀ x ∈ sent, a.blocks (keyOf x) = none) :
    answers Store.perform a (stages i sent) = List.replicate sent.length true ∧
      Has ((stages i sent).foldl (next Store.perform) a) i sent ∧
      ∀ k, k ∉ sent.map keyOf →
        ((stages i sent).foldl (next Store.perform) a).blocks k = a.blocks k := by
  induction sent generalizing a with
  | nil => exact ⟨rfl, ⟨hopen, fun x hx => by cases hx⟩, fun _ _ => rfl⟩
  | cons x sent ih =>
    obtain ⟨hx, hnodup⟩ := List.nodup_cons.mp hnodup
    have hadd : a.perform (.stage i x.1 (.ok x.2)) = (a.add (keyOf x) (newBlock x.1 x.2), true) :=
      if_pos ⟨hopen, hnone x (List.mem_cons_self ..)⟩
    have hnext : next Store.perform a (.stage i x.1 (.ok x.2)) =
        a.add (keyOf x) (newBlock x.1 x.2) := congrArg Prod.fst hadd
    have hother : ∀ k, k ≠ keyOf x →
        (a.add (keyOf x) (newBlock x.1 x.2)).blocks k = a.blocks k :=
      fun k hk => Function.update_of_ne hk _ _
    have hself : (a.add (keyOf x) (newBlock x.1 x.2)).blocks (keyOf x) =
        some (newBlock x.1 x.2) := Function.update_self ..
    have hfresh : ∀ y ∈ sent, (a.add (keyOf x) (newBlock x.1 x.2)).blocks (keyOf y) = none := by
      intro y hy
      rw [hother _ fun he => hx (he ▸ List.mem_map_of_mem hy)]
      exact hnone y (List.mem_cons_of_mem _ hy)
    obtain ⟨hanswers, hhas, hrest⟩ := ih (a := a.add (keyOf x) (newBlock x.1 x.2)) hopen hnodup
      hfresh
    have hlast : (stages i (x :: sent)).foldl (next Store.perform) a =
        (stages i sent).foldl (next Store.perform) (a.add (keyOf x) (newBlock x.1 x.2)) := by
      rw [← hnext]
      rfl
    rw [hlast]
    refine ⟨?_, ⟨hhas.isOpen, fun y hy => ?_⟩, fun k hk => ?_⟩
    · change (a.perform (.stage i x.1 (.ok x.2))).2 :: answers Store.perform
        (next Store.perform a (.stage i x.1 (.ok x.2))) (stages i sent) = _
      rw [hnext, hanswers, hadd]
      rfl
    · rcases List.mem_cons.mp hy with rfl | hy
      · rw [hrest _ hx, hself]
      · exact hhas.blocks y hy
    · rw [List.map_cons, List.mem_cons, not_or] at hk
      rw [hrest k hk.2, hother k hk.1]

theorem stages_allowed (i : UInt64) (sent : List Sent) (a : Store) :
    Guarded Allowed a (path (next Store.perform) a (stages i sent)) := by
  induction sent generalizing a with
  | nil => trivial
  | cons x sent ih => exact ⟨trivial, ih _⟩

end Stages

/-! ## The handle keeps the default hash function -/

theorem serve_hash {fuel : ℕ} {s t : Service} {e : Event} {r : Bool}
    (h : s.serve fuel e = some (t, r)) (hs : s.handle.hash = defaultHash) :
    t.handle.hash = defaultHash := by
  cases e with
  | start i =>
    change s.start fuel i = some (t, r) at h
    induction fuel generalizing s with
    | zero => cases h
    | succ fuel ih =>
      unfold Service.start at h
      dsimp only at h
      split at h
      · split at h
        · next hr =>
          refine ih ?_ h
          exact refresh_hash hr
        · obtain rfl := congrArg Prod.fst (Option.some.inj h)
          exact hs
      · obtain rfl := congrArg Prod.fst (Option.some.inj h)
        exact hs
      · obtain rfl := congrArg Prod.fst (Option.some.inj h)
        exact hs
  | stage i args pulled =>
    obtain rfl : (s.stage i args pulled).1 = t := congrArg Prod.fst (Option.some.inj h)
    unfold Service.stage
    split
    · exact hs
    · exact hs
  | execute i autoCleanup =>
    obtain rfl : (s.execute i autoCleanup).1 = t := congrArg Prod.fst (Option.some.inj h)
    exact hs
  | cleanup i =>
    obtain rfl : (s.cleanup i).1 = t := congrArg Prod.fst (Option.some.inj h)
    exact hs
  | grow view newcomers =>
    obtain rfl : s.grow view newcomers = t := congrArg Prod.fst (Option.some.inj h)
    exact hs

/-! ## The blocks on the servers -/

/-- The block of this key on a server. -/
def kept (s : Service) (i : UInt64) (p : PipelineHandle) (x : Sent) : Option DataBlock :=
  ((s.server (endpoint p)).pipelines.lookup s.handle.name).bind fun st =>
    st.pipeline.state.find i x.1.datasetName x.1.blockId

section Placed

variable {s : Service} {a : Store} {i : UInt64} {sent : List Sent}

/-- A server keeps the blocks that the hash function sends to it. -/
theorem kept_iff (h : Represents s a) (hhas : Has a i sent) {p : PipelineHandle}
    (hp : p ∈ s.handle.pipelines) {x : Sent} (hx : x ∈ sent) :
    (stageTarget s.handle x.1.datasetName i x.1.blockId = .ok p →
        kept s i p x = some (newBlock x.1 x.2)) ∧
      (stageTarget s.handle x.1.datasetName i x.1.blockId ≠ .ok p → kept s i p x = none) := by
  obtain ⟨⟨ha, rfl⟩, hblocks⟩ := hhas
  obtain ⟨st, hl, -, -, hfind⟩ := h.listed ha p hp
  have hkept : kept s a.iteration p x = share s.handle a p (keyOf x) := by
    unfold kept
    rw [hl, Option.bind_some, hfind, if_pos rfl]
    rfl
  obtain ⟨q, -, htarget⟩ := h.stage_target x.1 a.iteration
  have hshare : share s.handle a p (keyOf x) = if q = p then a.blocks (keyOf x) else none := by
    unfold share keyOf
    rw [htarget]
  rw [hkept, hshare, htarget]
  constructor
  · intro hq
    rw [if_pos (Except.ok.inj hq), hblocks x hx]
  · intro hq
    rw [if_neg fun he => hq (congrArg Except.ok he)]

/-- The place of the server of a block among the servers of the handle. -/
theorem target_iff (h : Represents s a) (hhash : s.handle.hash = defaultHash)
    {k : ℕ} (hk : k < s.handle.pipelines.length) (x : Sent) :
    stageTarget s.handle x.1.datasetName i x.1.blockId = .ok s.handle.pipelines[k] ↔
      x.1.blockId.toNat % s.handle.pipelines.length = k := by
  have hsize : s.handle.pipelines.length ≠ 0 := Nat.ne_zero_of_lt hk
  have hid : s.handle.hash x.1.datasetName i x.1.blockId = x.1.blockId := by
    rw [hhash]
    rfl
  unfold stageTarget
  rw [dif_neg hsize, Except.ok.injEq, List.get_eq_getElem,
    List.Nodup.getElem_inj_iff h.onView.nodup]
  change (s.handle.hash x.1.datasetName i x.1.blockId).toNat % s.handle.pipelines.length = k ↔ _
  rw [hid]

/-- Consecutive blocks, in any order. -/
structure Consecutive (sent : List Sent) (datasetName : String) (first : ℕ) : Prop where
  names : ∀ x ∈ sent, x.1.datasetName = datasetName
  ids : (sent.map fun x => x.1.blockId.toNat).Perm (List.range' first sent.length)

theorem Consecutive.nodup {datasetName : String} {first : ℕ}
    (h : Consecutive sent datasetName first) : (sent.map keyOf).Nodup := by
  have hids : (sent.map fun x => x.1.blockId.toNat).Nodup := h.ids.nodup_iff.mpr List.nodup_range'
  have hmap : (sent.map keyOf).map (fun k => k.2.toNat) = sent.map fun x => x.1.blockId.toNat := by
    rw [List.map_map]
    rfl
  rw [← hmap] at hids
  exact hids.of_map

theorem Consecutive.spread {datasetName : String} {first : ℕ}
    (hc : Consecutive sent datasetName first) (h : Represents s a) (hhas : Has a i sent)
    (hhash : s.handle.hash = defaultHash) {p : PipelineHandle} (hp : p ∈ s.handle.pipelines) :
    ∃ extra ≤ 1, (sent.countP fun x => (kept s i p x).isSome) =
      sent.length / s.handle.pipelines.length + extra := by
  obtain ⟨k, hk, rfl⟩ := List.mem_iff_getElem.mp hp
  have hcount : (sent.countP fun x => (kept s i s.handle.pipelines[k] x).isSome) =
      (sent.map fun x => x.1.blockId.toNat).countP
        fun b => decide (b % s.handle.pipelines.length = k) := by
    rw [List.countP_map]
    refine List.countP_congr fun x hx => ?_
    obtain ⟨hyes, hno⟩ := kept_iff h hhas hp hx
    rw [Function.comp_apply, decide_eq_true_iff, ← target_iff h hhash hk x (i := i)]
    by_cases ht : stageTarget s.handle x.1.datasetName i x.1.blockId = .ok s.handle.pipelines[k]
    · exact iff_of_true (by rw [hyes ht]; rfl) ht
    · exact iff_of_false (by rw [hno ht]; exact Bool.false_ne_true) ht
  rw [hcount, hc.ids.countP_eq]
  exact countP_range'_mod hk first sent.length

end Placed

/-- In every iteration that is opened after allowed events, however the calls that stage
consecutive blocks are ordered: all return, each server of the iteration keeps exactly the blocks
that the hash function sends to it, as they were sent, and no two servers differ by more than one
block. -/
theorem blocks_are_spread_evenly {s : Service} (h : Fresh s) (hhash : s.handle.hash = defaultHash)
    (earlier : List Event)
    (hg : Guarded Allowed s.store (path (next Store.perform) s.store earlier)) {i : UInt64}
    (hstart : (earlier.foldl (next Store.perform) s.store).accepts i)
    {sent : List Sent} {datasetName : String} {first : ℕ}
    (hc : Consecutive sent datasetName first) (fuel : ℕ) :
    ∃ t, calls (Service.serve (fuel + 2)) s (earlier ++ .start i :: stages i sent) =
        some (t, answers Store.perform s.store earlier ++ List.replicate (sent.length + 1) true) ∧
      ∀ p ∈ t.handle.pipelines,
        (∀ x ∈ sent,
          (stageTarget t.handle x.1.datasetName i x.1.blockId = .ok p →
            kept t i p x = some (newBlock x.1 x.2)) ∧
          (stageTarget t.handle x.1.datasetName i x.1.blockId ≠ .ok p → kept t i p x = none)) ∧
        ∃ extra ≤ 1, (sent.countP fun x => (kept t i p x).isSome) =
          sent.length / t.handle.pipelines.length + extra := by
  obtain ⟨u, -, hu⟩ := servers_refine_store h earlier hg 0
  generalize hb : earlier.foldl (next Store.perform) s.store = b at hstart hu
  have hopened : next Store.perform b (.start i) = { b with active := true, iteration := i } :=
    if_pos hstart
  -- an iteration 0 that is accepted is not started after another one
  have hallowed : Allowed b (.start i) := by
    rcases hstart.2 with h0 | hlt
    · exact Or.inr h0
    · refine Or.inl ?_
      rintro rfl
      exact UInt64.not_lt_zero hlt
  obtain ⟨hanswers, hhas, -⟩ := stages_perform (a := { b with active := true, iteration := i })
    ⟨rfl, rfl⟩ hc.nodup fun x _ => congrFun (hu.empty hstart.1) (keyOf x)
  have hall : Guarded Allowed s.store
      (path (next Store.perform) s.store (earlier ++ .start i :: stages i sent)) := by
    rw [guarded_path_append, hb]
    exact ⟨hg, hallowed, stages_allowed i sent _⟩
  obtain ⟨t, ht, hrep⟩ := servers_refine_store h _ hall fuel
  rw [answers_append, hb] at ht
  rw [List.foldl_append, hb, List.foldl_cons, hopened] at hrep
  have hanswers' : answers Store.perform b (.start i :: stages i sent) =
      List.replicate (sent.length + 1) true := by
    change (b.perform (.start i)).2 :: answers Store.perform (next Store.perform b (.start i)) _ = _
    rw [hopened, hanswers]
    rfl
  rw [hanswers'] at ht
  have hdefault : t.handle.hash = defaultHash :=
    calls_invariant (P := fun s => s.handle.hash = defaultHash) serve_hash ht hhash
  exact ⟨t, ht, fun p hp => ⟨fun x hx => kept_iff hrep hhas hp hx,
    hc.spread hrep hhas hdefault hp⟩⟩

/-- Three blocks in some order, when the group has become two members. -/
def threeBlocks : List Sent := [(blockArgs 2, []), (blockArgs 0, [7]), (blockArgs 1, [])]

def grown : List Event :=
  [.start 1, .cleanup 1, .grow twoMembers fun _ => newServer twoMembers]

theorem three_blocks_on_two_members :
    ∃ t, calls (Service.serve 2) oneMember (grown ++ .start 2 :: stages 2 threeBlocks) =
        some (t, [true, true, true, true, true, true, true]) ∧
      ∀ p ∈ t.handle.pipelines, ∃ extra ≤ 1,
        (threeBlocks.countP fun x => (kept t 2 p x).isSome) =
          3 / t.handle.pipelines.length + extra := by
  have hg : Guarded Allowed oneMember.store
      (path (next Store.perform) oneMember.store grown) := by
    refine ⟨Or.inl (by decide), trivial, ⟨rfl, ⟨by decide, by decide⟩, ?_, ?_⟩, trivial⟩
    · decide
    · exact fun m _ _ => newServer_keeps _
  have hconsecutive : Consecutive threeBlocks "d" 0 := by
    refine ⟨?_, by decide⟩
    simp [threeBlocks, blockArgs]
  obtain ⟨t, ht, hplaced⟩ := blocks_are_spread_evenly (i := 2) oneMember_fresh rfl grown hg
    ⟨rfl, Or.inr (by decide)⟩ hconsecutive 0
  exact ⟨t, ht, fun p hp => (hplaced p hp).2⟩

end BlockPlacement
