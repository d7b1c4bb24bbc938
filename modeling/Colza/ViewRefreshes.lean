import Colza.StartCollectives

/-!
# The hash function of a distributed handle

`setHashFunction`, `start` and `stage` on one handle, on rank 0 or on another rank. A refresh
in `start` replaces the whole object behind the handle, and the new one has the default hash
function.
-/
namespace ViewRefreshes

open GuardedRuns Interfaces ClientHandles DistributedStart
open StartCollectives (LeafAt leafCall leafNext)

def defaultHash : HashFunction := fun _ _ blockId => blockId

def getHashFunction (h : DistributedPipelineHandle) : HashFunction := h.hash

def setHashFunction (h : DistributedPipelineHandle) (hash : HashFunction) :
    DistributedPipelineHandle :=
  { h with hash := hash }

/-! ## The handle after a call of start -/

section Root

variable (env : ℕ → AttemptEnv) (h₀ : DistributedPipelineHandle) (iteration : UInt64)

/-- Rank 0 leaves the call with the handle of its last attempt. -/
inductive LeavesWith : DistributedPipelineHandle → Prop where
  | last {k h} : Begins env h₀ iteration k h → (attempt (env k) h iteration).exit ≠ .retry →
      LeavesWith h
  | refreshThrows {k h e} : Begins env h₀ iteration k h →
      (attempt (env k) h iteration).exit = .retry → (refresh env h (k + 1)).result = .error e →
      LeavesWith h

end Root

/-- The handle of a place on another rank; an exception of the refresh leaves the old one. -/
def held : LeafAt → Option DistributedPipelineHandle
  | .entering h | .waitingOk _ h | .waitingSize _ h | .waitingAddresses _ h _ | .returned _ h =>
    some h
  | .threw _ _ => none

structure Elsewhere where
  self : DistributedPipelineHandle
  place : LeafAt

def receive (clients : ℕ → ClientEnv) (x : Elsewhere) (broadcast : Payload) : Elsewhere :=
  let place := leafNext clients x.place (some broadcast)
  ⟨(held place).getD x.self, place⟩

/-- Another rank after it has received the broadcasts, in the order in which they come. -/
def startElsewhere (clients : ℕ → ClientEnv) (h : DistributedPipelineHandle)
    (received : List Payload) : Elsewhere :=
  received.foldl (receive clients) ⟨h, .waitingOk 0 h⟩

/-- Every start is answered, a server refuses it because of the group hash, and the aborts that
are sent are answered. -/
def StaleView (env : AttemptEnv) (h : DistributedPipelineHandle) (iteration : UInt64) : Prop :=
  let start := fun p => env.start h.groupHash p iteration
  let abort := fun p => env.abort p iteration
  (∀ p ∈ servers h, throws (start p) = false) ∧ (∃ p ∈ servers h, hashRefused (start p) = true) ∧
    waitAborts abort (sendAborts abort ((servers h).filter fun p => accepted (start p))) = none

/-- What one call of `start` meets, on rank 0 or on another rank. -/
inductive Start where
  | onRoot (env : ℕ → AttemptEnv)
  | elsewhere (clients : ℕ → ClientEnv) (received : List Payload)

section Broadcasts

variable (clients : ℕ → ClientEnv) (h : DistributedPipelineHandle)

/-- The pipelines of the next addresses can be made. -/
def AddressesBuild (size : ℕ) : List Payload → Prop
  | [] => False
  | .addresses packed :: _ =>
    ∃ h', makeFromAddresses (clients 1) h.ssgGroupFile h.providerId h.name size packed = .ok h'
  | _ :: received => AddressesBuild size received

/-- The next size is the size of a group, and then come its addresses. -/
def SizeComes : List Payload → Prop
  | [] => False
  | .groupSize size :: received => size ≠ -1 ∧ AddressesBuild clients h size.toNat received
  | _ :: received => SizeComes received

/-- The next `ok` is false, and then comes the group. -/
def RefusalComes : List Payload → Prop
  | [] => False
  | .ok ok :: received => ok = false ∧ SizeComes clients h received
  | _ :: received => RefusalComes received

end Broadcasts

/-- The view is refreshed at least once. Rank 0 finds the group again, and another rank receives
it. -/
def Refreshes (h : DistributedPipelineHandle) (iteration : UInt64) : Start → Prop
  | .onRoot env => StaleView (env 0) h iteration ∧ ∃ h', (refresh env h 1).result = .ok h'
  | .elsewhere clients received => RefusalComes clients h received

/-- What has to come for a new handle from where the rank is. -/
def NewView (clients : ℕ → ClientEnv) (h : DistributedPipelineHandle) :
    LeafAt → List Payload → Prop
  | .waitingOk _ _ => RefusalComes clients h
  | .waitingSize _ _ => SizeComes clients h
  | .waitingAddresses _ _ size => AddressesBuild clients h size
  | _ => fun _ => False

/-- Where another rank is before it has a new handle. -/
inductive Early (h : DistributedPipelineHandle) : Elsewhere → Prop where
  | waitingOk : Early h ⟨h, .waitingOk 0 h⟩
  | waitingSize : Early h ⟨h, .waitingSize 1 h⟩
  | waitingAddresses (size : ℕ) : Early h ⟨h, .waitingAddresses 1 h size⟩
  | returned : Early h ⟨h, .returned 0 h⟩
  | threw (e : Exception) : Early h ⟨h, .threw 1 e⟩

/-- Where it is once it has one. -/
inductive Late : Elsewhere → Prop where
  | waitingOk {h} (k : ℕ) : h.hash = defaultHash → Late ⟨h, .waitingOk k h⟩
  | waitingSize {h} (k : ℕ) : h.hash = defaultHash → Late ⟨h, .waitingSize k h⟩
  | waitingAddresses {h} (k size : ℕ) : h.hash = defaultHash → Late ⟨h, .waitingAddresses k h size⟩
  | returned {h} (k : ℕ) : h.hash = defaultHash → Late ⟨h, .returned k h⟩
  | threw {h} (k : ℕ) (e : Exception) : h.hash = defaultHash → Late ⟨h, .threw k e⟩

section Refreshed

variable {env : ℕ → AttemptEnv} {h₀ h h' : DistributedPipelineHandle} {iteration : UInt64}

theorem newHandle_hash (env : ClientEnv) (name : String) (gid : Option GroupId) (file : String)
    (providerId : UInt16) (pipelines : List PipelineHandle) :
    (newHandle env name gid file providerId pipelines).hash = defaultHash := rfl

theorem refresh_hash {k : ℕ} (hr : (refresh env h k).result = .ok h') : h'.hash = defaultHash := by
  unfold refresh makeOnMaster at hr
  split at hr
  · cases hr
  · split at hr
    · cases hr
    · split at hr
      · cases hr
      · split at hr
        · cases hr
        · cases hr
        · rw [← Except.ok.inj hr, newHandle_hash]

theorem makeFromAddresses_hash {env : ClientEnv} {file name : String} {providerId : UInt16}
    {size : ℕ} {packed : List UInt8}
    (hm : makeFromAddresses env file providerId name size packed = .ok h') :
    h'.hash = defaultHash := by
  unfold makeFromAddresses at hm
  cases hu : unpackPipelines env packed providerId name (List.range size) with
  | error e =>
    rw [hu] at hm
    cases hm
  | ok pipelines =>
    rw [hu] at hm
    rw [← Except.ok.inj hm, newHandle_hash]

theorem exit_retry_iff_staleView {env : AttemptEnv} :
    (attempt env h iteration).exit = .retry ↔ StaleView env h iteration := by
  unfold attempt StaleView
  generalize (fun p => env.start h.groupHash p iteration) = start
  generalize (fun p => env.abort p iteration) = abort
  by_cases hall : ∀ p ∈ servers h, throws (start p) = false
  · have hsent : (sendStarts start (servers h)).2 = none := by
      cases hs : (sendStarts start (servers h)).2 with
      | none => rfl
      | some what =>
        obtain ⟨p, hp, ht⟩ := throws_of_sendStarts hs
        rw [hall p hp] at ht
        cases ht
    simp only [runAttempt, hsent, waitStarts_answered hall, Bool.true_and, Bool.false_or,
      List.nil_append]
    by_cases hany : ∃ p ∈ servers h, hashRefused (start p) = true
    · obtain ⟨p, hp, hr⟩ := hany
      have hok : ((servers h).all fun p => accepted (start p)) = false := by
        rw [List.all_eq_false]
        exact ⟨p, hp, by simp [not_accepted_of_hashRefused hr]⟩
      have hretry : ((servers h).any fun p => hashRefused (start p)) = true :=
        List.any_eq_true.mpr ⟨p, hp, hr⟩
      simp only [hok, hretry, Bool.false_eq_true, if_false, if_true]
      cases hw : waitAborts abort
          (sendAborts abort ((servers h).filter fun p => accepted (start p))) with
      | none => exact iff_of_true rfl ⟨hall, ⟨p, hp, hr⟩, rfl⟩
      | some what => exact iff_of_false (by simp [Attempt.exit]) (by simp)
    · have hretry : ((servers h).any fun p => hashRefused (start p)) = false := by
        rw [List.any_eq_false]
        exact fun p hp hr => hany ⟨p, hp, hr⟩
      refine iff_of_false ?_ fun hs => hany hs.2.1
      simp only [hretry, Bool.false_eq_true, if_false]
      split
      · simp [Attempt.exit]
      · split <;> simp [Attempt.exit]
  · refine iff_of_false ?_ fun hs => hall hs.1
    have ho := runAttempt_outcome start abort (servers h)
    generalize runAttempt start abort (servers h) = a at ho
    cases ho with
    | threw e _ => simp [Attempt.exit]
    | accepted _ => simp [Attempt.exit]
    | refused exit hanswered _ _ => exact (hall hanswered).elim

/-- Every attempt after the first has a new handle. -/
theorem begins_cases {k : ℕ} (hb : Begins env h₀ iteration k h) :
    (k = 0 ∧ h = h₀) ∨ (h.hash = defaultHash ∧ Refreshes h₀ iteration (.onRoot env)) := by
  induction hb with
  | first => exact Or.inl ⟨rfl, rfl⟩
  | again hb hretry hr ih =>
    refine Or.inr ⟨refresh_hash hr, ?_⟩
    rcases ih with ⟨rfl, rfl⟩ | ⟨-, hsecond⟩
    · exact ⟨exit_retry_iff_staleView.mp hretry, _, hr⟩
    · exact hsecond

theorem leavesWith_hash (hl : LeavesWith env h₀ iteration h) :
    (¬ Refreshes h₀ iteration (.onRoot env) ∧ h = h₀) ∨
      (Refreshes h₀ iteration (.onRoot env) ∧ h.hash = defaultHash) := by
  cases hl with
  | last hb hexit =>
    rcases begins_cases hb with ⟨rfl, rfl⟩ | ⟨hhash, hs⟩
    · exact Or.inl ⟨fun hs => hexit (exit_retry_iff_staleView.mpr hs.1), rfl⟩
    · exact Or.inr ⟨hs, hhash⟩
  | refreshThrows hb _ herror =>
    rcases begins_cases hb with ⟨rfl, rfl⟩ | ⟨hhash, hs⟩
    · refine Or.inl ⟨fun hs => ?_, rfl⟩
      obtain ⟨h', hr⟩ := hs.2
      rw [herror] at hr
      cases hr
    · exact Or.inr ⟨hs, hhash⟩

variable (clients : ℕ → ClientEnv) {x : Elsewhere}

theorem Late.hash (hx : Late x) : x.self.hash = defaultHash := by
  cases hx <;> assumption

theorem Early.self (hx : Early h x) : x.self = h := by
  cases hx <;> rfl

theorem Late.receive (hx : Late x) (broadcast : Payload) :
    Late (ViewRefreshes.receive clients x broadcast) := by
  cases hx with
  | waitingOk k hh =>
    cases broadcast with
    | ok ok =>
      cases ok with
      | true => exact .returned k hh
      | false => exact .waitingSize (k + 1) hh
    | _ => exact .waitingOk k hh
  | waitingSize k hh =>
    cases broadcast with
    | groupSize size =>
      unfold ViewRefreshes.receive leafNext
      by_cases hsize : size = -1
      · simp only [if_pos hsize]
        exact .threw k _ hh
      · simp only [if_neg hsize]
        exact .waitingAddresses k size.toNat hh
    | _ => exact .waitingSize k hh
  | @waitingAddresses h k size hh =>
    cases broadcast with
    | addresses packed =>
      unfold ViewRefreshes.receive leafNext
      dsimp only
      cases hm : makeFromAddresses (clients k) h.ssgGroupFile h.providerId h.name size packed with
      | ok h' => exact .waitingOk k (makeFromAddresses_hash hm)
      | error e => exact .threw k e hh
    | _ => exact .waitingAddresses k size hh
  | returned k hh => exact .returned k hh
  | threw k e hh => exact .threw k e hh

/-- The only way on is the new handle. -/
theorem Early.receive (hx : Early h x) (broadcast : Payload) (received : List Payload) :
    (Early h (ViewRefreshes.receive clients x broadcast) ∧
      (NewView clients h x.place (broadcast :: received) ↔
        NewView clients h (ViewRefreshes.receive clients x broadcast).place received)) ∨
    ((∃ h', h'.hash = defaultHash ∧
        ViewRefreshes.receive clients x broadcast = ⟨h', .waitingOk 1 h'⟩) ∧
      NewView clients h x.place (broadcast :: received)) := by
  cases hx with
  | waitingOk =>
    cases broadcast with
    | ok ok =>
      cases ok with
      | true => exact Or.inl ⟨.returned, iff_of_false (fun hn => Bool.noConfusion hn.1) id⟩
      | false => exact Or.inl ⟨.waitingSize, and_iff_right rfl⟩
    | groupSize size | addresses packed => exact Or.inl ⟨.waitingOk, Iff.rfl⟩
  | waitingSize =>
    cases broadcast with
    | groupSize size =>
      left
      unfold ViewRefreshes.receive leafNext
      by_cases hsize : size = -1
      · simp only [if_pos hsize]
        exact ⟨.threw _, iff_of_false (fun hn => hn.1 hsize) id⟩
      · simp only [if_neg hsize]
        exact ⟨.waitingAddresses size.toNat, and_iff_right hsize⟩
    | ok ok | addresses packed => exact Or.inl ⟨.waitingSize, Iff.rfl⟩
  | waitingAddresses size =>
    cases broadcast with
    | addresses packed =>
      unfold ViewRefreshes.receive leafNext
      dsimp only
      cases hm : makeFromAddresses (clients 1) h.ssgGroupFile h.providerId h.name size packed with
      | ok h' => exact Or.inr ⟨⟨h', makeFromAddresses_hash hm, rfl⟩, h', hm⟩
      | error e =>
        refine Or.inl ⟨.threw e, iff_of_false ?_ id⟩
        rintro ⟨h', hh'⟩
        rw [hm] at hh'
        cases hh'
    | ok ok | groupSize size => exact Or.inl ⟨.waitingAddresses _, Iff.rfl⟩
  | returned => exact Or.inl ⟨.returned, Iff.rfl⟩
  | threw e => exact Or.inl ⟨.threw e, Iff.rfl⟩

theorem Late.fold (hx : Late x) (received : List Payload) :
    Late (received.foldl (ViewRefreshes.receive clients) x) := by
  induction received generalizing x with
  | nil => exact hx
  | cons broadcast received ih => exact ih (hx.receive clients broadcast)

/-- Either no new handle ever comes, or one has come and every later one is new too. -/
theorem Early.fold (hx : Early h x) (received : List Payload) :
    (Early h (received.foldl (ViewRefreshes.receive clients) x) ∧
      ¬ NewView clients h x.place received) ∨
    (Late (received.foldl (ViewRefreshes.receive clients) x) ∧
      NewView clients h x.place received) := by
  induction received generalizing x with
  | nil =>
    refine Or.inl ⟨hx, ?_⟩
    cases hx <;> exact id
  | cons broadcast received ih =>
    rcases hx.receive clients broadcast received with ⟨hearly, hiff⟩ | ⟨⟨h', hh', hr⟩, hnew⟩
    · rw [hiff]
      exact ih hearly
    · have hlate : Late (ViewRefreshes.receive clients x broadcast) := by
        rw [hr]
        exact .waitingOk 1 hh'
      exact Or.inr ⟨hlate.fold clients received, hnew⟩

theorem startElsewhere_hash (h : DistributedPipelineHandle)
    (iteration : UInt64) (received : List Payload) :
    (¬ Refreshes h iteration (.elsewhere clients received) ∧
      (startElsewhere clients h received).self = h) ∨
    (Refreshes h iteration (.elsewhere clients received) ∧
      (startElsewhere clients h received).self.hash = defaultHash) := by
  rcases Early.waitingOk.fold clients received with ⟨hend, hno⟩ | ⟨hend, hnew⟩
  · exact Or.inl ⟨hno, hend.self⟩
  · exact Or.inr ⟨hnew, hend.hash⟩

end Refreshed

/-! ## Runs of calls on one handle -/

inductive Call where
  | setHashFunction (hash : HashFunction)
  | start (how : Start) (iteration : UInt64)
  | stage (datasetName : String) (iteration blockId : UInt64)

/-- `latest` is the function most recently given to `setHashFunction`. -/
structure State where
  self : DistributedPipelineHandle
  latest : HashFunction

inductive Step (s : State) : Call → State → Prop where
  | setHashFunction (hash : HashFunction) :
      Step s (.setHashFunction hash) ⟨setHashFunction s.self hash, hash⟩
  | startOnRoot {env iteration h} : LeavesWith env s.self iteration h →
      Step s (.start (.onRoot env) iteration) { s with self := h }
  | startElsewhere {clients received} (iteration : UInt64) :
      leafCall (startElsewhere clients s.self received).place = none →
      Step s (.start (.elsewhere clients received) iteration)
        { s with self := (startElsewhere clients s.self received).self }
  | stage (datasetName : String) (iteration blockId : UInt64) :
      Step s (.stage datasetName iteration blockId) s

def KeepsHash (s : State) : Prop := getHashFunction s.self = s.latest

/-- A stage call goes to the server that the latest function chooses. -/
def ChoosesWithLatest (s : State) : Call → Prop
  | .stage datasetName iteration blockId =>
    stageTarget s.self datasetName iteration blockId =
      stageTarget (setHashFunction s.self s.latest) datasetName iteration blockId
  | _ => True

/-- A start that refreshes the view comes while the default function is the one to use. -/
def RefreshesOnDefault (s : State) : Call → Prop
  | .start how iteration => Refreshes s.self iteration how → s.latest = defaultHash
  | _ => True

theorem KeepsHash.chooses {s : State} (hs : KeepsHash s) (c : Call) : ChoosesWithLatest s c := by
  cases c with
  | stage datasetName iteration blockId =>
    have hhash : s.self.hash = (setHashFunction s.self s.latest).hash := hs
    have hp : s.self.pipelines = (setHashFunction s.self s.latest).pipelines := rfl
    exact stageTarget_congr hp hhash _ _ _
  | _ => trivial

/-- A call of start leaves the old handle, or it refreshes and leaves a new one. -/
theorem keepsHash_start {s : State} {how : Start} {iteration : UInt64}
    {h : DistributedPipelineHandle} (hs : KeepsHash s)
    (hh : (¬ Refreshes s.self iteration how ∧ h = s.self) ∨
      (Refreshes s.self iteration how ∧ h.hash = defaultHash)) :
    KeepsHash { s with self := h } ↔ RefreshesOnDefault s (.start how iteration) := by
  rcases hh with ⟨hno, rfl⟩ | ⟨hr, hdefault⟩
  · exact iff_of_true hs fun hr => (hno hr).elim
  · constructor
    · intro hk _
      exact hk.symm.trans hdefault
    · intro hg
      exact hdefault.trans (hg hr).symm

theorem step_keepsHash_iff {s t : State} {c : Call} (hs : KeepsHash s) (hstep : Step s c t) :
    KeepsHash t ↔ RefreshesOnDefault s c := by
  cases hstep with
  | setHashFunction hash => exact iff_of_true rfl trivial
  | startOnRoot hl => exact keepsHash_start hs (leavesWith_hash hl)
  | startElsewhere iteration _ => exact keepsHash_start hs (startElsewhere_hash _ _ _ _)
  | stage _ _ _ => exact iff_of_true hs trivial

/-- For every run of calls on a handle that is new to begin with. -/
theorem hash_kept_iff_refreshes_on_default {h : DistributedPipelineHandle}
    (hnew : h.hash = defaultHash) {p : List (Call × State)} (hrun : Run Step ⟨h, defaultHash⟩ p) :
    Always KeepsHash ⟨h, defaultHash⟩ p ∧ Guarded ChoosesWithLatest ⟨h, defaultHash⟩ p ↔
      Guarded RefreshesOnDefault ⟨h, defaultHash⟩ p := by
  apply safe_iff_guarded (I := fun _ => True) (fun _ _ _ _ _ => trivial) _ hrun trivial hnew
  intro s c t _ hs hstep
  rw [step_keepsHash_iff hs hstep]
  exact and_iff_left (hs.chooses c)

/-! Two servers, and a hash function that chooses the second of them for every block. -/

def toSecond : HashFunction := fun _ _ _ => 1

def tuned : State := ⟨setHashFunction twoServers toSecond, toSecond⟩

/-- Every server accepts the start. -/
def acceptingStart : ℕ → AttemptEnv :=
  answeredBy (fun _ => .ofView []) (fun _ _ => {}) fun _ _ => {}

theorem hash_kept_by_accepted_start :
    let p : List (Call × State) := [(.setHashFunction toSecond, tuned),
      (.start (.onRoot acceptingStart) 1, tuned), (.stage "mydata" 1 0, tuned)]
    Always KeepsHash ⟨twoServers, defaultHash⟩ p ∧
      Guarded ChoosesWithLatest ⟨twoServers, defaultHash⟩ p := by
  have hexit : (attempt (acceptingStart 0) tuned.self 1).exit = .returned := by
    apply (exit_returned_iff tuned.self 0).mpr
    rintro ⟨j, -, hj⟩
    exact Bool.false_ne_true hj
  have hstart : LeavesWith acceptingStart tuned.self 1 tuned.self :=
    .last .first (by rw [hexit]; simp)
  apply (hash_kept_iff_refreshes_on_default rfl _).mpr
  · refine ⟨trivial, fun hr => ?_, trivial, trivial⟩
    rw [exit_retry_iff_staleView.mpr hr.1] at hexit
    cases hexit
  · exact .cons (.setHashFunction toSecond)
      (.cons (.startOnRoot hstart) (.cons (.stage "mydata" 1 0) (.nil _)))

/-- The first attempt is refused because of the group hash, and the second one is not. -/
def refreshingStart : ℕ → AttemptEnv :=
  answeredBy (fun _ => .ofView [(1, [97]), (2, [98])])
    (fun k _ => if k = 0 then .failure .invalidGroupHash "Inconsistent group view" else {})
    fun _ _ => {}

theorem hash_lost_in_refresh :
    ¬ ∀ (h : DistributedPipelineHandle) (p : List (Call × State)), h.hash = defaultHash →
      Run Step ⟨h, defaultHash⟩ p →
        Always KeepsHash ⟨h, defaultHash⟩ p ∧ Guarded ChoosesWithLatest ⟨h, defaultHash⟩ p := by
  intro hall
  obtain ⟨packed, h, hmade, -⟩ :=
    @makeOnMaster_ofView [(1, [97]), (2, [98])] 0 "p" "colza.ssg"
  have hrefresh : (refresh refreshingStart tuned.self 1).result = .ok h :=
    congrArg Made.result hmade
  have hfirst : (attempt (refreshingStart 0) tuned.self 1).exit = .retry :=
    (exit_retry_iff tuned.self 0).mpr ⟨0, by decide, rfl⟩
  have hsecond : (attempt (refreshingStart 1) h 1).exit = .returned := by
    apply (exit_returned_iff h 1).mpr
    rintro ⟨j, -, hj⟩
    exact Bool.false_ne_true hj
  have hstart : LeavesWith refreshingStart tuned.self 1 h :=
    .last (.again .first hfirst hrefresh) (by rw [hsecond]; simp)
  have hrun : Run Step ⟨twoServers, defaultHash⟩ [(.setHashFunction toSecond, tuned),
      (.start (.onRoot refreshingStart) 1, { tuned with self := h })] :=
    .cons (.setHashFunction toSecond) (.cons (.startOnRoot hstart) (.nil _))
  have hkept : h.hash = toSecond := (hall twoServers _ rfl hrun).1.last
  have hzero := congrFun (congrFun (congrFun (hkept.symm.trans (refresh_hash hrefresh)) "") 0) 0
  exact absurd hzero (by decide)

end ViewRefreshes
