import Colza.ClientHandles
import Colza.FiniteCounts
import Colza.GuardedRuns
import Colza.ProviderHandlers
import Mathlib.Data.Fin.VecNotation

/-!
# Operations of Admin on all members of a group

`createDistributedPipeline` and `destroyDistributedPipeline` start one thread for every member
and join the threads in order. An exception that leaves a thread's function does not come to
the thread that joins it: it is lost, or it ends the program.
-/
namespace AdminThreads

open Interfaces ClientHandles ProviderHandlers GuardedRuns FiniteCounts

/-- `adminRpc` is what comes of a creation or destruction request at an address. -/
structure AdminEnv extends ClientEnv where
  adminRpc : Address → UInt16 → Request → Rpc

/-- The body that `createPipeline` and `destroyPipeline` share. -/
def AdminEnv.request (env : AdminEnv) (address : Address) (providerId : UInt16) (r : Request) :
    Except Exception Unit :=
  match env.lookup address with
  | some what => .error (Exception.foreign what)
  | none =>
    match env.adminRpc address providerId r with
    | .sendThrows what | .waitThrows what => .error (Exception.foreign what)
    | .reply result => if result.success then .ok () else .error ⟨result.value, result.error⟩

def AdminEnv.createPipeline (env : AdminEnv) (address : Address) (providerId : UInt16)
    (pipelineName pipelineType pipelineConfig library token : String) : Except Exception Unit :=
  env.request address providerId
    (.createPipeline token pipelineName pipelineType pipelineConfig library)

def AdminEnv.destroyPipeline (env : AdminEnv) (address : Address) (providerId : UInt16)
    (pipelineName token : String) : Except Exception Unit :=
  env.request address providerId (.destroyPipeline token pipelineName)

/-- The text of the endpoint in thread `i`. The results of the two SSG calls are not looked at:
a failing one leaves `SSG_MEMBER_ID_INVALID` or `HG_ADDR_NULL`, whose text is empty. -/
def AdminEnv.memberAddress (env : AdminEnv) (gid : GroupId) (i : ℕ) : Address :=
  let memberId := (env.memberIdFromRank gid i).toOption.getD 0
  (env.memberAddr gid memberId).toOption.getD []

/-- A group that is observed, and the function of each of the threads. -/
structure Threads where
  gid : GroupId
  size : ℕ
  body : Fin size → Except Exception Unit

/-- Up to the loop that creates the threads. Only the creation checks `ssg_get_group_size`, and
the size is 0 where it fails. -/
def AdminEnv.openGroup (env : AdminEnv) (ssgFile : String) (checkSize : Bool) :
    Except Exception (GroupId × ℕ) :=
  match env.groupIdLoad ssgFile with
  | none => .error (.of .ssgError ("Could not open SSG file " ++ ssgFile))
  | some gid =>
    if !env.groupObserve gid then
      .error (.of .ssgError ("Could not observe SSG group from " ++ ssgFile))
    else match env.groupSize gid with
    | none =>
      if checkSize then .error (.of .ssgError "Could not get SSG group size") else .ok (gid, 0)
    | some size => .ok (gid, size)

def AdminEnv.createDistributedPipeline (env : AdminEnv) (ssgFile : String) (providerId : UInt16)
    (name type config library token : String) : Except Exception Threads :=
  (env.openGroup ssgFile true).map fun g =>
    ⟨g.1, g.2, fun i => env.createPipeline (env.memberAddress g.1 i) providerId name type config
      library token⟩

def AdminEnv.destroyDistributedPipeline (env : AdminEnv) (ssgFile : String) (providerId : UInt16)
    (name token : String) : Except Exception Threads :=
  (env.openGroup ssgFile false).map fun g =>
    ⟨g.1, g.2, fun i => env.destroyPipeline (env.memberAddress g.1 i) providerId name token⟩

/-! ## The caller and its threads -/

/-- What comes of an exception that leaves the function of a thread. -/
inductive Escape where
  | lost
  | terminates
  deriving DecidableEq, Repr

/-- Where the caller is: in the loop that creates the threads, in the loop that joins them, or
at the end of its call. -/
inductive Caller where
  | creating (i : ℕ)
  | joining (i : ℕ)
  | ended (result : Except Exception Unit)

inductive Thread where
  | absent
  | ready
  | done
  deriving DecidableEq, Repr

structure State (n : ℕ) where
  caller : Caller
  thread : Fin n → Thread
  terminated : Bool

def initial (n : ℕ) : State n := ⟨.creating 0, fun _ => .absent, false⟩

inductive Event (n : ℕ) where
  | caller
  | run (k : Fin n)
  deriving DecidableEq, Repr

def State.setThread {n : ℕ} (s : State n) (k : Fin n) (q : Thread) : State n :=
  { s with thread := Function.update s.thread k q }

/-- The next step of the caller; `none` while it is blocked in `join`. -/
def State.call {n : ℕ} (s : State n) : Option (State n) :=
  match s.caller with
  | .creating i =>
    if h : i < n then some { s.setThread ⟨i, h⟩ .ready with caller := .creating (i + 1) }
    else some { s with caller := .joining 0 }
  | .joining i =>
    if h : i < n then
      if s.thread ⟨i, h⟩ = .done then some { s with caller := .joining (i + 1) } else none
    else some { s with caller := .ended (.ok ()) }
  | .ended _ => none

/-- `none` where the event is not possible. -/
def step (escape : Escape) (ts : Threads) (s : State ts.size) :
    Event ts.size → Option (State ts.size)
  | .caller => if s.terminated then none else s.call
  | .run k =>
    if s.terminated then none
    else if s.thread k = .ready then
      match ts.body k with
      | .ok () => some (s.setThread k .done)
      | .error _ => some { s.setThread k .done with terminated := escape = .terminates }
    else none

def Step (escape : Escape) (ts : Threads) (s : State ts.size) (e : Event ts.size)
    (t : State ts.size) : Prop := step escape ts s e = some t

/-- The call has come to an end, in one way or another. -/
def Ended {n : ℕ} (s : State n) : Prop := s.terminated = true ∨ ∃ r, s.caller = .ended r

/-- How a call is to end: normally if every member has done its part, and with the code of one
of the failures, after all have tried, if not. -/
structure Reports (ts : Threads) (s : State ts.size) : Prop where
  returns : s.caller = .ended (.ok ()) ↔ ∀ k, ts.body k = .ok ()
  throws : (¬ ∀ k, ts.body k = .ok ()) → (∀ k, s.thread k = .done) ∧
    ∃ k e e', ts.body k = .error e ∧ s.caller = .ended (.error e') ∧ e'.code = e.code

/-- In every order of the steps the call comes to an end and reports what the members did. -/
structure AlwaysReports (escape : Escape) (ts : Threads) : Prop where
  bounded : ∀ p, Run (Step escape ts) (initial ts.size) p → p.length ≤ 3 * ts.size + 2
  goesOn : ∀ s, Reaches (Step escape ts) (initial ts.size) s →
    Ended s ∨ ∃ e t, Step escape ts s e t
  reports : ∀ s, Reaches (Step escape ts) (initial ts.size) s → Ended s → Reports ts s

/-! ## One step -/

section Steps

variable {escape : Escape} {ts : Threads} {s t : State ts.size} {e : Event ts.size}

/-- Everything one event can do. -/
inductive Move (ts : Threads) (s : State ts.size) : Event ts.size → State ts.size → Prop where
  | created {i} (h : i < ts.size) : s.caller = .creating i →
      Move ts s .caller { s.setThread ⟨i, h⟩ .ready with caller := .creating (i + 1) }
  | allCreated {i} : ts.size ≤ i → s.caller = .creating i →
      Move ts s .caller { s with caller := .joining 0 }
  | joined {i} (h : i < ts.size) : s.caller = .joining i → s.thread ⟨i, h⟩ = .done →
      Move ts s .caller { s with caller := .joining (i + 1) }
  | returned {i} : ts.size ≤ i → s.caller = .joining i →
      Move ts s .caller { s with caller := .ended (.ok ()) }
  | ran {k} (terminated : Bool) : s.thread k = .ready →
      (terminated = true → ∃ e, ts.body k = .error e) →
      Move ts s (.run k) { s.setThread k .done with terminated := terminated }

theorem call_move (h : s.call = some t) : Move ts s .caller t := by
  unfold State.call at h
  split at h
  · next i hc =>
    split at h
    · next hi =>
      cases h
      exact .created hi hc
    · next hi =>
      cases h
      exact .allCreated (Nat.le_of_not_lt hi) hc
  · next i hc =>
    split at h
    · next hi =>
      split at h
      · next hd =>
        cases h
        exact .joined hi hc hd
      · cases h
    · next hi =>
      cases h
      exact .returned (Nat.le_of_not_lt hi) hc
  · cases h

theorem step_move (h : Step escape ts s e t) : s.terminated = false ∧ Move ts s e t := by
  unfold Step step at h
  split at h
  · split at h
    · cases h
    · next ht => exact ⟨by simpa using ht, call_move h⟩
  · split at h
    · cases h
    · next ht =>
      split at h
      · next hk =>
        have ht : s.terminated = false := by simpa using ht
        refine ⟨ht, ?_⟩
        split at h
        · cases h
          have hm := @Move.ran ts s _ false hk (fun h => by cases h)
          rwa [← ht] at hm
        · next e he =>
          cases h
          exact .ran _ hk fun _ => ⟨e, he⟩
      · cases h

/-! ## Every run ends -/

def Caller.remaining (n : ℕ) : Caller → ℕ
  | .creating i => 2 * (n - i) + n + 2
  | .joining i => n - i + 1
  | .ended _ => 0

def remaining {n : ℕ} (s : State n) : ℕ :=
  s.caller.remaining n + tally Finset.univ (fun q => q = Thread.ready) s.thread

theorem step_remaining (h : Step escape ts s e t) : remaining t < remaining s := by
  cases (step_move h).2 with
  | @created i hi hc =>
    have ht := tally_update Finset.univ (fun q => q = Thread.ready) s.thread
      (Finset.mem_univ ⟨i, hi⟩) .ready
    simp only [if_true] at ht
    unfold remaining
    simp only [State.setThread, hc, Caller.remaining]
    split at ht <;> omega
  | allCreated hi hc =>
    unfold remaining
    simp only [hc, Caller.remaining]
    omega
  | joined hi hc hd =>
    unfold remaining
    simp only [hc, Caller.remaining]
    omega
  | returned hi hc =>
    unfold remaining
    simp only [hc, Caller.remaining]
    omega
  | @ran k terminated hk hb =>
    have ht := tally_update Finset.univ (fun q => q = Thread.ready) s.thread
      (Finset.mem_univ k) .done
    simp only [hk, if_true, reduceCtorEq, if_false] at ht
    unfold remaining
    simp only [State.setThread]
    omega

theorem initial_remaining (n : ℕ) : remaining (initial n) = 3 * n + 2 := by
  have ht : tally Finset.univ (fun q => q = Thread.ready) (initial n).thread = 0 :=
    (tally_eq_zero _ _ _).mpr fun _ _ => Thread.noConfusion
  unfold remaining
  rw [ht]
  simp only [initial, Caller.remaining]
  omega

/-! ## What a run preserves -/

/-- The number of threads that have been created, and of those that have been joined. -/
def Caller.created (n : ℕ) : Caller → ℕ
  | .creating i => i
  | .joining _ | .ended _ => n

def Caller.joined (n : ℕ) : Caller → ℕ
  | .creating _ => 0
  | .joining i => i
  | .ended _ => n

structure Invariant (ts : Threads) (s : State ts.size) : Prop where
  created : ∀ k : Fin ts.size, k.val < s.caller.created ts.size → s.thread k ≠ .absent
  joined : ∀ k : Fin ts.size, k.val < s.caller.joined ts.size → s.thread k = .done
  result : ∀ r, s.caller = .ended r → r = .ok ()
  terminated : s.terminated = true → ∃ k e, ts.body k = .error e

theorem invariant_initial (ts : Threads) : Invariant ts (initial ts.size) := by
  constructor
  · intro k hk
    cases hk
  · intro k hk
    cases hk
  · intro r hr
    cases hr
  · exact Bool.noConfusion

theorem setThread_self (s : State ts.size) (k : Fin ts.size) (q : Thread) :
    (s.setThread k q).thread k = q := by
  simp [State.setThread]

theorem setThread_of_ne (s : State ts.size) {j k : Fin ts.size} (q : Thread) (h : j ≠ k) :
    (s.setThread k q).thread j = s.thread j := by
  simp [State.setThread, h]

theorem invariant_step (h : Invariant ts s) (hstep : Step escape ts s e t) : Invariant ts t := by
  cases (step_move hstep).2 with
  | @created i hi hc =>
    refine ⟨fun k hk => ?_, fun k hk => (by cases hk), fun r hr => (by cases hr), h.terminated⟩
    by_cases hki : k = ⟨i, hi⟩
    · rw [hki]
      change (s.setThread _ _).thread _ ≠ _
      rw [setThread_self]
      exact Thread.noConfusion
    · change (s.setThread _ _).thread _ ≠ _
      rw [setThread_of_ne s _ hki]
      refine h.created k ?_
      have hne : k.val ≠ i := fun hv => hki (Fin.ext hv)
      have hlt : k.val < i + 1 := hk
      rw [hc]
      exact Nat.lt_of_le_of_ne (Nat.le_of_lt_succ hlt) hne
  | @allCreated i hi hc =>
    refine ⟨fun k _ => h.created k ?_, fun k hk => (by cases hk), fun r hr => (by cases hr),
      h.terminated⟩
    rw [hc]
    exact k.isLt.trans_le hi
  | @joined i hi hc hd =>
    refine ⟨fun k _ => h.created k (by rw [hc]; exact k.isLt), fun k hk => ?_,
      fun r hr => (by cases hr), h.terminated⟩
    have hlt : k.val < i + 1 := hk
    by_cases hki : k.val = i
    · have hk' : k = ⟨i, hi⟩ := Fin.ext hki
      rw [hk']
      exact hd
    · refine h.joined k ?_
      rw [hc]
      exact Nat.lt_of_le_of_ne (Nat.le_of_lt_succ hlt) hki
  | @returned i hi hc =>
    refine ⟨fun k _ => h.created k (by rw [hc]; exact k.isLt), fun k _ => h.joined k ?_,
      fun r hr => (Caller.ended.inj hr).symm, h.terminated⟩
    rw [hc]
    exact k.isLt.trans_le hi
  | @ran k terminated hk hb =>
    refine ⟨fun j hj => ?_, fun j hj => ?_, h.result, fun ht => ⟨k, hb ht⟩⟩
    · change (s.setThread k .done).thread j ≠ _
      by_cases hjk : j = k
      · rw [hjk, setThread_self]
        exact Thread.noConfusion
      · rw [setThread_of_ne s _ hjk]
        exact h.created j hj
    · change (s.setThread k .done).thread j = _
      by_cases hjk : j = k
      · rw [hjk, setThread_self]
      · rw [setThread_of_ne s _ hjk]
        exact h.joined j hj

theorem invariant_reaches (h : Reaches (Step escape ts) (initial ts.size) s) : Invariant ts s :=
  Reaches.invariant (P := Invariant ts) (fun _ _ _ hs hstep => invariant_step hs hstep) h
    (invariant_initial ts)

theorem call_possible (h : ∃ t, s.call = some t) (ht : s.terminated = false) :
    ∃ e t, Step escape ts s e t := by
  obtain ⟨t, hc⟩ := h
  exact ⟨.caller, t, by simp [Step, step, ht, hc]⟩

theorem run_possible {k : Fin ts.size} (hk : s.thread k = .ready) (ht : s.terminated = false) :
    ∃ e t, Step escape ts s e t := by
  cases hb : ts.body k with
  | ok u => exact ⟨.run k, s.setThread k .done, by simp [Step, step, ht, hk, hb]⟩
  | error e =>
    exact ⟨.run k, { s.setThread k .done with terminated := escape = .terminates },
      by simp [Step, step, ht, hk, hb]⟩

/-- The caller is blocked in a join only while the thread it joins can run. -/
theorem Invariant.goesOn (h : Invariant ts s) : Ended s ∨ ∃ e t, Step escape ts s e t := by
  by_cases hterm : s.terminated = true
  · exact Or.inl (Or.inl hterm)
  have ht : s.terminated = false := by simpa using hterm
  cases hc : s.caller with
  | creating i =>
    refine Or.inr (call_possible ?_ ht)
    by_cases hi : i < ts.size
    · exact ⟨_, by simp only [State.call, hc, dif_pos hi]; rfl⟩
    · exact ⟨_, by simp only [State.call, hc, dif_neg hi]; rfl⟩
  | joining i =>
    by_cases hi : i < ts.size
    · cases hk : s.thread ⟨i, hi⟩ with
      | absent => exact (h.created ⟨i, hi⟩ (by rw [hc]; exact hi) hk).elim
      | ready => exact Or.inr (run_possible hk ht)
      | done =>
        exact Or.inr (call_possible
          ⟨_, by simp only [State.call, hc, dif_pos hi, if_pos hk]; rfl⟩ ht)
    · exact Or.inr (call_possible ⟨_, by simp only [State.call, hc, dif_neg hi]; rfl⟩ ht)
  | ended r => exact Or.inl (Or.inr ⟨r, hc⟩)

theorem reports_of_ended (h : Invariant ts s) (he : Ended s) (hok : ∀ k, ts.body k = .ok ()) :
    Reports ts s := by
  refine ⟨iff_of_true ?_ hok, fun hn => (hn hok).elim⟩
  rcases he with ht | ⟨r, hr⟩
  · obtain ⟨k, e, hk⟩ := h.terminated ht
    cases (hok k).symm.trans hk
  · rw [hr, h.result r hr]

end Steps

/-- A caller that joins its threads learns nothing from them: it reports what the members did
exactly when there is no failure to report. -/
theorem alwaysReports_iff (escape : Escape) (ts : Threads) :
    AlwaysReports escape ts ↔ ∀ k, ts.body k = .ok () := by
  have hless : ∀ s e t, Step escape ts s e t → remaining t < remaining s :=
    fun _ _ _ h => step_remaining h
  constructor
  · intro h
    obtain ⟨s, hs, he⟩ := reaches_end hless h.goesOn
    by_contra hn
    obtain ⟨-, k, e, e', -, hr, -⟩ := (h.reports s hs he).throws hn
    cases (invariant_reaches hs).result _ hr
  · intro hok
    refine ⟨fun p hp => ?_, fun s hs => (invariant_reaches hs).goesOn,
      fun s hs he => reports_of_ended (invariant_reaches hs) he hok⟩
    rw [← initial_remaining]
    exact hp.length_le hless

/-! ## The two operations -/

inductive Operation where
  | create (name type config library token : String)
  | destroy (name token : String)

/-- The operation on the whole group, up to the threads. -/
def AdminEnv.distributed (env : AdminEnv) (ssgFile : String) (providerId : UInt16) :
    Operation → Except Exception Threads
  | .create name type config library token =>
    env.createDistributedPipeline ssgFile providerId name type config library token
  | .destroy name token => env.destroyDistributedPipeline ssgFile providerId name token

/-- The operation on one member. -/
def AdminEnv.onMember (env : AdminEnv) (address : Address) (providerId : UInt16) :
    Operation → Except Exception Unit
  | .create name type config library token =>
    env.createPipeline address providerId name type config library token
  | .destroy name token => env.destroyPipeline address providerId name token

def Operation.checksSize : Operation → Bool
  | .create .. => true
  | .destroy .. => false

def AdminEnv.threads (env : AdminEnv) (providerId : UInt16) (op : Operation)
    (g : GroupId × ℕ) : Threads :=
  ⟨g.1, g.2, fun i => env.onMember (env.memberAddress g.1 i) providerId op⟩

theorem distributed_eq (env : AdminEnv) (ssgFile : String) (providerId : UInt16)
    (op : Operation) :
    env.distributed ssgFile providerId op =
      (env.openGroup ssgFile op.checksSize).map (env.threads providerId op) := by
  cases op with
  | create => rfl
  | destroy => rfl

/-- The operation has its threads once the group is open. -/
theorem distributed_ok {env : AdminEnv} {ssgFile : String} {providerId : UInt16}
    {op : Operation} {ts : Threads} (h : env.distributed ssgFile providerId op = .ok ts) :
    ∃ g, env.openGroup ssgFile op.checksSize = .ok g ∧ ts = env.threads providerId op g := by
  rw [distributed_eq] at h
  cases hg : env.openGroup ssgFile op.checksSize with
  | error e =>
    rw [hg] at h
    cases h
  | ok g =>
    rw [hg] at h
    exact ⟨g, rfl, (Except.ok.inj h).symm⟩

theorem distributed_error {env : AdminEnv} {ssgFile : String} {providerId : UInt16}
    {op : Operation} {e : Exception} (h : env.distributed ssgFile providerId op = .error e) :
    env.openGroup ssgFile op.checksSize = .error e := by
  rw [distributed_eq] at h
  cases hg : env.openGroup ssgFile op.checksSize with
  | error e' =>
    rw [hg] at h
    rw [Except.error.inj h]
  | ok g =>
    rw [hg] at h
    cases h

theorem distributed_body {env : AdminEnv} {ssgFile : String} {providerId : UInt16}
    {op : Operation} {ts : Threads} (h : env.distributed ssgFile providerId op = .ok ts)
    (k : Fin ts.size) :
    ts.body k = env.onMember (env.memberAddress ts.gid k) providerId op := by
  obtain ⟨g, -, rfl⟩ := distributed_ok h
  rfl

/-- On a group that SSG knows, whatever comes of an exception in a thread. -/
theorem distributed_reports_iff (env : AdminEnv) (escape : Escape) {ssgFile : String}
    {providerId : UInt16} {op : Operation} {ts : Threads}
    (h : env.distributed ssgFile providerId op = .ok ts) :
    AlwaysReports escape ts ↔
      ∀ k : Fin ts.size, env.onMember (env.memberAddress ts.gid k) providerId op = .ok () := by
  rw [alwaysReports_iff]
  exact forall_congr' fun k => by rw [distributed_body h k]

/-- The members of the view answer with the same result. -/
def answering (view : View) (result : RequestResult Int32) : AdminEnv :=
  { ClientEnv.ofView view with adminRpc := fun _ _ _ => .reply result }

theorem creation_reported_on_two_members :
    AlwaysReports .lost ⟨0, 2, fun i => (answering [(1, [97]), (2, [98])] {}).onMember
      ((answering [(1, [97]), (2, [98])] {}).memberAddress 0 i) 1 (.create "p" "dummy" "" "" "")⟩ :=
  (distributed_reports_iff (answering [(1, [97]), (2, [98])] {}) .lost
    (rfl : AdminEnv.distributed _ "group.ssg" 1 (.create "p" "dummy" "" "" "") = _)).mpr
    fun _ => rfl

def refusing : AdminEnv :=
  answering [(1, [97])] (.failure .invalidSecurityToken "Invalid security token")

/-- The only member refuses, and the caller returns as after a success. -/
theorem refused_creation_returns :
    ¬ ∀ (env : AdminEnv) (escape : Escape) (ssgFile : String) (providerId : UInt16)
      (op : Operation) (ts : Threads),
      env.distributed ssgFile providerId op = .ok ts → AlwaysReports escape ts := by
  intro h
  let op : Operation := .create "p" "dummy" "" "" ""
  let ts : Threads := ⟨0, 1, fun i => refusing.onMember (refusing.memberAddress 0 i) 1 op⟩
  have ha : AlwaysReports .lost ts := h refusing .lost "group.ssg" 1 op ts rfl
  let after (s : State 1) (e : Event 1) : State 1 := (step .lost ts s e).getD s
  let created := after (initial 1) .caller
  let ran := after created (.run 0)
  let joining := after ran .caller
  let joined := after joining .caller
  have hcreated : Step .lost ts (initial 1) .caller created := rfl
  have hran : Step .lost ts created (.run 0) ran := rfl
  have hjoining : Step .lost ts ran .caller joining := rfl
  have hjoined : Step .lost ts joining .caller joined := rfl
  have hreturned : Step .lost ts joined .caller (after joined .caller) := rfl
  have hs := ha.reports _ (((((Reaches.snoc .refl hcreated).snoc hran).snoc hjoining).snoc
    hjoined).snoc hreturned) (Or.inr ⟨_, rfl⟩)
  cases hs.returns.mp rfl 0

end AdminThreads
