import Colza.MonaAddresses

/-!
# Providers that start together

Each constructor publishes its own MoNA address and asks the other members of the view for
theirs, while these may still be starting. A handler waits on a condition variable until the
address of its provider is there.
-/
namespace MonaResolution

open GuardedRuns Interfaces GroupHash
open MonaAddresses (AddressMap)

/-! ## MoNA and the view -/

/-- The MoNA instance of each provider. An error is the code that the function returns. -/
structure Mona (n : ℕ) where
  addrSelf : Fin n → Except ℤ NaAddr
  addrToString : Fin n → NaAddr → Except ℤ String
  addrLookup : Fin n → String → Except ℤ NaAddr

/-- The members in the order of their ranks. Each provider is named by its rank. -/
structure View (n : ℕ) where
  memberId : Fin n → MemberId
  injective : Function.Injective memberId

section Ranks

variable {n : ℕ}

/-- `(self_rank + i) % group_size` -/
def memberAt (selfRank : Fin n) (i : ℕ) : Fin n := ⟨(selfRank + i) % n, Nat.mod_lt _ selfRank.pos⟩

/-- Beginning with its own rank, a provider comes to every other one. -/
theorem memberAt_covers (p q : Fin n) : ∃ i < n, memberAt p i = q := by
  refine ⟨(q + n - p) % n, Nat.mod_lt _ p.pos, Fin.ext ?_⟩
  change (p.val + (q.val + n - p.val) % n) % n = q.val
  rw [Nat.add_mod_mod, Nat.add_sub_of_le (by omega), Nat.add_mod_right, Nat.mod_eq_of_lt q.isLt]

end Ranks

/-! ## Address maps -/

def lookup (m : AddressMap) (id : MemberId) : Option NaAddr := m.entries.lookup id

/-- `std::map::insert` of a range keeps the entries that are there. -/
def insertRange (m : AddressMap) : List (MemberId × NaAddr) → AddressMap
  | [] => m
  | e :: entries =>
    insertRange (if (lookup m e.1).isSome then m else m.apply (.assign e.1 e.2)) entries

theorem lookup_empty (x : MemberId) : lookup .empty x = none := rfl

theorem lookup_entry (e : MemberId × NaAddr) (rest : List (MemberId × NaAddr)) (x : MemberId) :
    (e :: rest).lookup x = if x = e.1 then some e.2 else rest.lookup x := by
  rw [List.lookup_cons]
  by_cases hx : x = e.1
  · simp [hx]
  · rw [beq_eq_false_iff_ne.mpr hx, if_neg hx]

theorem lookup_assign (m : AddressMap) (id x : MemberId) (addr : NaAddr) :
    lookup (m.apply (.assign id addr)) x = if x = id then some addr else lookup m x := by
  change (MonaAddresses.assignEntry id addr m.entries).lookup x = _
  unfold lookup
  induction m.entries with
  | nil => exact lookup_entry (id, addr) [] x
  | cons e rest ih =>
    unfold MonaAddresses.assignEntry
    split
    · exact lookup_entry (id, addr) (e :: rest) x
    · split
      next heq =>
        rw [lookup_entry, lookup_entry, heq]
        by_cases hx : x = e.1 <;> simp [hx]
      next hne =>
        rw [lookup_entry, lookup_entry, ih]
        by_cases hx : x = e.1
        · have hid : e.1 ≠ id := Ne.symm hne
          simp [hx, hid]
        · simp [hx]

theorem lookup_insertRange (m : AddressMap) (entries : List (MemberId × NaAddr)) (x : MemberId) :
    lookup (insertRange m entries) x = (lookup m x).or (entries.lookup x) := by
  induction entries generalizing m with
  | nil => simp [insertRange]
  | cons e rest ih =>
    rw [insertRange, ih, lookup_entry]
    by_cases hx : x = e.1
    · subst hx
      cases hm : lookup m e.1 with
      | none => simp [lookup_assign]
      | some addr => simp [hm]
    · rw [if_neg hx]
      split
      · rfl
      · rw [lookup_assign, if_neg hx]

theorem lookup_isSome_iff (m : AddressMap) (id : MemberId) :
    (lookup m id).isSome ↔ id ∈ m.keys := by
  unfold lookup AddressMap.keys
  rw [List.lookup_isSome_iff, List.mem_map]
  simp only [beq_iff_eq]
  exact exists_congr fun e => and_congr_right' eq_comm

theorem lookup_eq_none_iff (m : AddressMap) (id : MemberId) :
    lookup m id = none ↔ id ∉ m.keys := by
  rw [← lookup_isSome_iff, Option.not_isSome_iff_eq_none]

/-! ## Constructors and handlers -/

/-- What has become of a request for an address. From `entering` to `answering` it is with a
handler of its target, which has `m_mona_mtx` of the target in `testing` and in `blocking`. -/
inductive Phase where
  | sent
  | refused
  | entering
  | testing
  | blocking
  | waiting
  | woken
  | answering (addr : String)
  | replied (addr : String)
  deriving DecidableEq, Repr

def Phase.locks : Phase → Bool
  | .testing | .blocking => true
  | _ => false

/-- The handler has been called and has not responded. -/
def Phase.handled : Phase → Bool
  | .entering | .testing | .blocking | .waiting | .woken | .answering _ => true
  | _ => false

/-- What a constructor does next. It has its own `m_mona_mtx` in `publishing` and in
`inserting`; `tmp` is `tmp_addresses`. -/
inductive Stage (n : ℕ) where
  | defining
  | defined
  | publishing
  | notifying
  | resolving (i : ℕ) (tmp : AddressMap)
  | requesting (i : ℕ) (tmp : AddressMap) (target : Fin n) (phase : Phase)
  | sleeping (i : ℕ) (tmp : AddressMap) (target : Fin n)
  | resolved (tmp : AddressMap)
  | inserting (tmp : AddressMap)
  | announcing
  | done
  | threw (e : Exception)

structure Provider (n : ℕ) where
  stage : Stage n
  selfAddr : String
  addresses : AddressMap

abbrev State (n : ℕ) := Fin n → Provider n

section Model

variable {n : ℕ} (m : Mona n) (g : View n) (s : State n)

/-- What the constructor makes of `mona_addr_self` and `mona_addr_to_string`. -/
def ownAddress (p : Fin n) : Except Exception String :=
  match m.addrSelf p with
  | .error _ => .error (.of .monaError "Could not get address from MoNA")
  | .ok addr =>
    match m.addrToString p addr with
    | .error _ => .error (.of .monaError "Could not serialize MoNA address")
    | .ok buf => .ok buf

/-- One round of the loop of `_resolveMonaAddresses`. -/
def resolveStep (p : Fin n) (addresses : AddressMap) (i : ℕ) (tmp : AddressMap) : Stage n :=
  let memberId := g.memberId (memberAt p i)
  if (lookup addresses memberId).isSome then .resolving (i + 1) tmp
  else if memberId = g.memberId p then
    -- The return value of `mona_addr_self` is not looked at.
    .resolving (i + 1) (tmp.apply (.assign memberId ((m.addrSelf p).toOption.getD 0)))
  else .requesting i tmp (memberAt p i) .sent

/-- The end of `_requestMonaAddressFromSSGMember`. -/
def lookupStep (p : Fin n) (i : ℕ) (tmp : AddressMap) (target : Fin n) (addr : String) :
    Stage n :=
  match m.addrLookup p addr with
  | .error ret =>
    .threw (.of .monaError ("mona_addr_lookup failed with error code " ++ toString ret))
  | .ok addr => .resolving (i + 1) (tmp.apply (.assign (g.memberId target) addr))

def Stage.locks : Stage n → Bool
  | .publishing | .inserting _ => true
  | _ => false

/-- A handler that serves the request of this constructor has the mutex of `q`. -/
def Stage.locksAt (q : Fin n) : Stage n → Bool
  | .requesting _ _ target phase => target = q && phase.locks
  | _ => false

/-- Somebody has `m_mona_mtx` of `q`. -/
def Locked (q : Fin n) : Prop :=
  (s q).stage.locks = true ∨ ∃ p, (s p).stage.locksAt q = true

instance (q : Fin n) : Decidable (Locked s q) := inferInstanceAs (Decidable (_ ∨ _))

/-- A handler that waits on `m_mona_cv` of `q` has been woken. -/
def Stage.notified (q : Fin n) : Stage n → Stage n
  | .requesting i tmp target .waiting =>
    .requesting i tmp target (if target = q then .woken else .waiting)
  | stage => stage

/-- `m_mona_cv.notify_all()` -/
def notifyAll (q : Fin n) : State n := fun p => { s p with stage := (s p).stage.notified q }

def State.goto (p : Fin n) (stage : Stage n) : State n :=
  Function.update s p { s p with stage := stage }

/-- The section of the constructor that sets `m_mona_self_addr`. -/
def publish (p : Fin n) : State n :=
  match ownAddress m p with
  | .error e => s.goto p (.threw e)
  | .ok addr => Function.update s p { s p with stage := .notifying, selfAddr := addr }

def Stage.defines : Stage n → Bool
  | .defining => true
  | _ => false

inductive Event (n : ℕ) where
  | constructor (p : Fin n)
  | network (p : Fin n)
  | handler (p : Fin n)
  | spurious (p : Fin n)
  deriving DecidableEq, Repr

/-- The thread of a constructor, a message of its request, the handler that serves its request,
or a spurious wake-up of that handler. -/
inductive Step : Event n → State n → Prop where
  | define {p} : (s p).stage = .defining → Step (.constructor p) (s.goto p .defined)
  | lockSelf {p} : (s p).stage = .defined → ¬ Locked s p →
      Step (.constructor p) (s.goto p .publishing)
  | publish {p} : (s p).stage = .publishing → Step (.constructor p) (publish m s p)
  | notify {p} : (s p).stage = .notifying →
      Step (.constructor p) ((notifyAll s p).goto p (.resolving 0 .empty))
  | resolve {p i tmp} : (s p).stage = .resolving i tmp → i < n →
      Step (.constructor p) (s.goto p (resolveStep m g p (s p).addresses i tmp))
  | leave {p i tmp} : (s p).stage = .resolving i tmp → ¬ i < n →
      Step (.constructor p) (s.goto p (.resolved tmp))
  | deliver {p i tmp q} : (s p).stage = .requesting i tmp q .sent →
      Step (.network p) (s.goto p (.requesting i tmp q
        (if (s q).stage.defines then .refused else .entering)))
  | enter {p i tmp q} : (s p).stage = .requesting i tmp q .entering → ¬ Locked s q →
      Step (.handler p) (s.goto p (.requesting i tmp q .testing))
  | test {p i tmp q} : (s p).stage = .requesting i tmp q .testing →
      Step (.handler p) (s.goto p (.requesting i tmp q
        (if (s q).selfAddr = "" then .blocking else .answering (s q).selfAddr)))
  | block {p i tmp q} : (s p).stage = .requesting i tmp q .blocking →
      Step (.handler p) (s.goto p (.requesting i tmp q .waiting))
  | spurious {p i tmp q} : (s p).stage = .requesting i tmp q .waiting →
      Step (.spurious p) (s.goto p (.requesting i tmp q .woken))
  | reenter {p i tmp q} : (s p).stage = .requesting i tmp q .woken → ¬ Locked s q →
      Step (.handler p) (s.goto p (.requesting i tmp q .testing))
  | respond {p i tmp q addr} : (s p).stage = .requesting i tmp q (.answering addr) →
      Step (.handler p) (s.goto p (.requesting i tmp q (.replied addr)))
  | receive {p i tmp q addr} : (s p).stage = .requesting i tmp q (.replied addr) →
      Step (.constructor p) (s.goto p (lookupStep m g p i tmp q addr))
  | fail {p i tmp q} : (s p).stage = .requesting i tmp q .refused →
      Step (.constructor p) (s.goto p (.sleeping i tmp q))
  | retry {p i tmp q} : (s p).stage = .sleeping i tmp q →
      Step (.constructor p) (s.goto p (.requesting i tmp q .sent))
  | lockAddresses {p tmp} : (s p).stage = .resolved tmp → ¬ Locked s p →
      Step (.constructor p) (s.goto p (.inserting tmp))
  | insert {p tmp} : (s p).stage = .inserting tmp →
      Step (.constructor p) (Function.update s p { s p with
        stage := .announcing, addresses := insertRange (s p).addresses tmp.entries })
  | announce {p} : (s p).stage = .announcing →
      Step (.constructor p) ((notifyAll s p).goto p .done)

def initial : State n := fun _ => ⟨.defining, "", .empty⟩

/-- No step is enabled. A spurious wake-up may come at any time, and none has to come. -/
def Stuck : Prop := ∀ e t, Step m g s e t → ∃ p, e = .spurious p

/-- A handler has not answered the request of `p`. -/
def Unanswered (p : Fin n) : Prop :=
  ∃ i tmp q phase, (s p).stage = .requesting i tmp q phase ∧ phase.handled = true

/-- On the instance of `p`, the address is the one of the instance of `q`. -/
def Denotes (p : Fin n) (addr : NaAddr) (q : Fin n) : Prop :=
  ∃ buf, ownAddress m q = .ok buf ∧ m.addrToString p addr = .ok buf

/-- The functions of MoNA succeed, addresses are not empty, and an address that is looked up
from a string reads as that string. -/
structure Mona.Works : Prop where
  own : ∀ p, ∃ buf, ownAddress m p = .ok buf ∧ buf ≠ ""
  lookup : ∀ p q buf, ownAddress m q = .ok buf →
    ∃ addr, m.addrLookup p buf = .ok addr ∧ m.addrToString p addr = .ok buf

/-! ## What a provider knows -/

/-- The first `i` members that `p` comes to are in the map. -/
def Known (p : Fin n) (i : ℕ) (map : AddressMap) : Prop :=
  ∀ k < i, ∃ addr, lookup map (g.memberId (memberAt p k)) = some addr ∧
    Denotes m p addr (memberAt p k)

def Stage.unpublished : Stage n → Bool
  | .defining | .defined | .publishing => true
  | _ => false

/-- The waiting handlers of this provider are still to be woken. -/
def Stage.unnotified : Stage n → Bool
  | .defining | .defined | .publishing | .notifying => true
  | _ => false

/-- The address that a handler or its reply carries. -/
def Phase.carried : Phase → Option String
  | .answering addr | .replied addr => some addr
  | _ => none

/-- What the stage of a constructor says about its addresses. -/
def Mapped (p : Fin n) (addresses : AddressMap) : Stage n → Prop
  | .defining | .defined | .publishing | .notifying => addresses = .empty
  | .resolving i tmp => addresses = .empty ∧ Known m g p i tmp
  | .requesting i tmp q phase => addresses = .empty ∧ Known m g p i tmp ∧ q = memberAt p i ∧
      ∀ addr, phase.carried = some addr → ownAddress m q = .ok addr
  | .sleeping i tmp q => addresses = .empty ∧ Known m g p i tmp ∧ q = memberAt p i
  | .resolved tmp | .inserting tmp => addresses = .empty ∧ Known m g p n tmp
  | .announcing | .done => Known m g p n addresses
  | .threw _ => False

/-- What is known of one provider without the others. -/
structure Sane (p : Fin n) (x : Provider n) : Prop where
  unpublished : x.stage.unpublished = true → x.selfAddr = ""
  published : x.stage.unpublished = false → ownAddress m p = .ok x.selfAddr
  mapped : Mapped m g p x.addresses x.stage

/-- The constructor has notified the handlers and needs no mutex now. -/
def Stage.calm : Stage n → Bool
  | .resolving _ _ | .requesting _ _ _ .sent | .sleeping _ _ _ | .resolved _ => true
  | _ => false

/-- A handler that serves the request of this constructor waits on `m_mona_cv` of `q`. -/
def Stage.waitsAt (q : Fin n) : Stage n → Bool
  | .requesting _ _ target .waiting => target = q
  | _ => false

/-- A handler that is about to wait finds no address, and one that waits is still to be woken. -/
def Pending : Stage n → Prop
  | .requesting _ _ q .blocking => (s q).stage.unpublished = true
  | .requesting _ _ q .waiting => (s q).stage.unnotified = true
  | _ => True

structure Invariant : Prop where
  sane : ∀ p, Sane m g p (s p)
  /-- The constructor and a handler never have the mutex together. -/
  exclusive : ∀ q, (s q).stage.locks = true → ∀ p, (s p).stage.locksAt q = false
  pending : ∀ p, Pending s (s p).stage

end Model

section Knowledge

variable {n : ℕ} {m : Mona n} {g : View n} {p : Fin n} {i : ℕ} {map : AddressMap}

theorem known_zero : Known m g p 0 map := fun k hk => (Nat.not_lt_zero k hk).elim

theorem Known.assign (h : Known m g p i map) {addr : NaAddr}
    (haddr : Denotes m p addr (memberAt p i)) :
    Known m g p (i + 1) (map.apply (.assign (g.memberId (memberAt p i)) addr)) := by
  intro k hk
  rw [lookup_assign]
  by_cases hid : g.memberId (memberAt p k) = g.memberId (memberAt p i)
  · rw [if_pos hid, g.injective hid]
    exact ⟨addr, rfl, haddr⟩
  · have hlt : k < i := by
      refine Nat.lt_of_le_of_ne (Nat.lt_succ_iff.mp hk) ?_
      rintro rfl
      exact hid rfl
    rw [if_neg hid]
    exact h k hlt

theorem Known.inserted (h : Known m g p i map) :
    Known m g p i (insertRange .empty map.entries) := by
  intro k hk
  rw [lookup_insertRange]
  exact h k hk

theorem Known.all (h : Known m g p n map) (q : Fin n) :
    ∃ addr, lookup map (g.memberId q) = some addr ∧ Denotes m p addr q := by
  obtain ⟨i, hi, rfl⟩ := memberAt_covers p q
  exact h i hi

/-- What `mona_addr_self` returns is the provider's own address. -/
theorem own_denotes (hm : m.Works) (p : Fin n) :
    Denotes m p ((m.addrSelf p).toOption.getD 0) p := by
  obtain ⟨buf, hbuf, -⟩ := hm.own p
  refine ⟨buf, hbuf, ?_⟩
  unfold ownAddress at hbuf
  split at hbuf
  · cases hbuf
  next addr hself =>
    rw [hself]
    split at hbuf
    · cases hbuf
    next hstring =>
      cases hbuf
      exact hstring

theorem resolveStep_known (hm : m.Works) {i : ℕ} {tmp : AddressMap} (h : Known m g p i tmp) :
    (resolveStep m g p .empty i tmp).calm = true ∧
      Mapped m g p .empty (resolveStep m g p .empty i tmp) := by
  simp only [resolveStep, lookup_empty, Option.isSome_none, Bool.false_eq_true, if_false]
  by_cases hid : g.memberId (memberAt p i) = g.memberId p
  · rw [if_pos hid]
    refine ⟨rfl, rfl, h.assign ?_⟩
    rw [g.injective hid]
    exact own_denotes hm p
  · rw [if_neg hid]
    exact ⟨rfl, rfl, h, rfl, fun addr haddr => by cases haddr⟩

theorem lookupStep_known (hm : m.Works) {i : ℕ} {tmp : AddressMap} (h : Known m g p i tmp)
    {addr : String} (haddr : ownAddress m (memberAt p i) = .ok addr) :
    (lookupStep m g p i tmp (memberAt p i) addr).calm = true ∧
      Mapped m g p .empty (lookupStep m g p i tmp (memberAt p i) addr) := by
  obtain ⟨a, hlookup, hstring⟩ := hm.lookup p (memberAt p i) addr haddr
  unfold lookupStep
  rw [hlookup]
  exact ⟨rfl, rfl, h.assign ⟨addr, haddr, hstring⟩⟩

end Knowledge

section Steps

variable {n : ℕ} {m : Mona n} {g : View n} {s : State n} {p : Fin n} {x : Provider n}
  {stage : Stage n}

theorem Invariant.mapped (hs : Invariant m g s) (hstage : (s p).stage = stage) :
    Mapped m g p (s p).addresses stage := hstage ▸ (hs.sane p).mapped

/-- What others wait for does not change when one provider goes on. -/
theorem Pending.update {r : Stage n} (h : Pending s r)
    (hpublish : (s p).stage.unpublished = true → x.stage.unpublished = true ∨ r.locksAt p = false)
    (hnotify : (s p).stage.unnotified = true → x.stage.unnotified = true ∨ r.waitsAt p = false) :
    Pending (Function.update s p x) r := by
  cases r with
  | requesting i tmp q phase =>
    by_cases hq : q = p
    · subst hq
      cases phase with
      | blocking =>
        have hx := (hpublish h).resolve_right (by simp [Stage.locksAt, Phase.locks])
        change (Function.update s q x q).stage.unpublished = true
        rw [Function.update_self, hx]
      | waiting =>
        have hx := (hnotify h).resolve_right (by simp [Stage.waitsAt])
        change (Function.update s q x q).stage.unnotified = true
        rw [Function.update_self, hx]
      | sent | refused | entering | testing | woken | answering addr | replied addr => trivial
    · cases phase with
      | blocking =>
        change (Function.update s p x q).stage.unpublished = true
        rw [Function.update_of_ne hq]
        exact h
      | waiting =>
        change (Function.update s p x q).stage.unnotified = true
        rw [Function.update_of_ne hq]
        exact h
      | sent | refused | entering | testing | woken | answering addr | replied addr => trivial
  | defining | defined | publishing | notifying | resolving i tmp | sleeping i tmp q
  | resolved tmp | inserting tmp | announcing | done | threw e => trivial

/-- One provider goes on. It takes a mutex only when nobody has it, and it leaves nobody waiting
for something that has passed. -/
theorem Invariant.update (hs : Invariant m g s) (hsane : Sane m g p x)
    (hlocks : x.stage.locks = true → (s p).stage.locks = true ∨ ¬ Locked s p)
    (hlocksAt : ∀ q, x.stage.locksAt q = true →
      x.stage.locks = false ∧ ((s p).stage.locksAt q = true ∨ ¬ Locked s q))
    (hpublish : (s p).stage.unpublished = true →
      x.stage.unpublished = true ∨ ∀ r, (s r).stage.locksAt p = false)
    (hnotify : (s p).stage.unnotified = true →
      x.stage.unnotified = true ∨ ∀ r, (s r).stage.waitsAt p = false)
    (hpending : Pending (Function.update s p x) x.stage) :
    Invariant m g (Function.update s p x) := by
  constructor
  case sane =>
    intro q
    by_cases hq : q = p
    · subst hq
      rw [Function.update_self]
      exact hsane
    · rw [Function.update_of_ne hq]
      exact hs.sane q
  case exclusive =>
    intro q hq r
    apply Bool.eq_false_iff.mpr
    intro hr
    have hboth {r q : Fin n} (hr : (s r).stage.locksAt q = true) : (s q).stage.locks ≠ true := by
      intro hq
      rw [hs.exclusive q hq r] at hr
      cases hr
    by_cases hqp : q = p
    · subst hqp
      rw [Function.update_self] at hq
      by_cases hrq : r = q
      · subst hrq
        rw [Function.update_self] at hr
        rw [(hlocksAt r hr).1] at hq
        cases hq
      · rw [Function.update_of_ne hrq] at hr
        rcases hlocks hq with hold | hfree
        · exact hboth hr hold
        · exact hfree (Or.inr ⟨r, hr⟩)
    · rw [Function.update_of_ne hqp] at hq
      by_cases hrp : r = p
      · subst hrp
        rw [Function.update_self] at hr
        rcases (hlocksAt q hr).2 with hold | hfree
        · exact hboth hold hq
        · exact hfree (Or.inl hq)
      · rw [Function.update_of_ne hrp] at hr
        exact hboth hr hq
  case pending =>
    intro q
    by_cases hq : q = p
    · subst hq
      rw [Function.update_self]
      exact hpending
    · rw [Function.update_of_ne hq]
      exact (hs.pending q).update (fun h => (hpublish h).imp_right fun h => h q)
        (fun h => (hnotify h).imp_right fun h => h q)

/-- A move that changes neither what is published nor what the map holds. -/
theorem Invariant.goto (hs : Invariant m g s)
    (hmapped : Mapped m g p (s p).addresses stage)
    (hpublished : stage.unpublished = (s p).stage.unpublished)
    (hlocks : stage.locks = true → (s p).stage.locks = true ∨ ¬ Locked s p)
    (hlocksAt : ∀ q, stage.locksAt q = true →
      stage.locks = false ∧ ((s p).stage.locksAt q = true ∨ ¬ Locked s q))
    (hnotify : (s p).stage.unnotified = true →
      stage.unnotified = true ∨ ∀ r, (s r).stage.waitsAt p = false)
    (hpending : Pending (s.goto p stage) stage) : Invariant m g (s.goto p stage) := by
  have hsane := hs.sane p
  refine hs.update ⟨fun h => ?_, fun h => ?_, hmapped⟩ hlocks hlocksAt (fun h => ?_) hnotify
    hpending
  · exact hsane.unpublished (hpublished ▸ h)
  · exact hsane.published (hpublished ▸ h)
  · exact Or.inl (hpublished.trans h)

theorem notified_cases (q : Fin n) (r : Stage n) : (r.notified q = r ∧ r.waitsAt q = false) ∨
    ∃ i tmp, r = .requesting i tmp q .waiting ∧ r.notified q = .requesting i tmp q .woken := by
  cases r with
  | requesting i tmp target phase =>
    cases phase with
    | waiting =>
      by_cases htarget : target = q
      · subst htarget
        exact Or.inr ⟨i, tmp, rfl, by simp [Stage.notified]⟩
      · exact Or.inl (by simp [Stage.notified, Stage.waitsAt, htarget])
    | sent | refused | entering | testing | blocking | woken | answering addr | replied addr =>
      exact Or.inl ⟨rfl, rfl⟩
  | defining | defined | publishing | notifying | resolving i tmp | sleeping i tmp target
  | resolved tmp | inserting tmp | announcing | done | threw e => exact Or.inl ⟨rfl, rfl⟩

/-- A notification moves handlers that wait, and nothing else. -/
theorem notified_eq (q : Fin n) (r : Stage n) :
    (r.notified q).unpublished = r.unpublished ∧ (r.notified q).unnotified = r.unnotified ∧
      (r.notified q).locks = r.locks ∧ (∀ p, (r.notified q).locksAt p = r.locksAt p) ∧
      (r.notified q).waitsAt q = false := by
  rcases notified_cases q r with ⟨heq, hwaits⟩ | ⟨i, tmp, rfl, heq⟩
  · rw [heq]
    exact ⟨rfl, rfl, rfl, fun _ => rfl, hwaits⟩
  · rw [heq]
    exact ⟨rfl, rfl, rfl, fun _ => by simp [Stage.locksAt, Phase.locks], rfl⟩

theorem Pending.notifyAll {r : Stage n} (h : Pending s r) (q : Fin n) :
    Pending (notifyAll s q) r := by
  cases r with
  | requesting i tmp target phase =>
    cases phase with
    | blocking => exact (notified_eq q (s target).stage).1.trans h
    | waiting => exact (notified_eq q (s target).stage).2.1.trans h
    | sent | refused | entering | testing | woken | answering addr | replied addr => trivial
  | defining | defined | publishing | notifying | resolving i tmp | sleeping i tmp target
  | resolved tmp | inserting tmp | announcing | done | threw e => trivial

theorem Invariant.notifyAll (hs : Invariant m g s) (q : Fin n) :
    Invariant m g (notifyAll s q) := by
  constructor
  case sane =>
    intro p
    have hsane := hs.sane p
    obtain ⟨hunpublished, -⟩ := notified_eq q (s p).stage
    refine ⟨fun h => ?_, fun h => ?_, ?_⟩
    · exact hsane.unpublished (hunpublished ▸ h)
    · exact hsane.published (hunpublished ▸ h)
    · change Mapped m g p (s p).addresses ((s p).stage.notified q)
      rcases notified_cases q (s p).stage with ⟨heq, -⟩ | ⟨i, tmp, hstage, heq⟩
      · rw [heq]
        exact hsane.mapped
      · have hmapped := hsane.mapped
        rw [hstage] at hmapped
        rw [heq]
        exact hmapped
  case exclusive =>
    intro p hp r
    obtain ⟨-, -, hlocks, -⟩ := notified_eq q (s p).stage
    obtain ⟨-, -, -, hlocksAt, -⟩ := notified_eq q (s r).stage
    exact (hlocksAt p).trans (hs.exclusive p (hlocks ▸ hp) r)
  case pending =>
    intro p
    change Pending _ ((s p).stage.notified q)
    rcases notified_cases q (s p).stage with ⟨heq, -⟩ | ⟨i, tmp, -, heq⟩
    · rw [heq]
      exact (hs.pending p).notifyAll q
    · rw [heq]
      trivial

/-- A constructor that has notified goes on without a mutex. -/
theorem Invariant.calm (hs : Invariant m g s) (hold : (s p).stage.unnotified = false)
    (hcalm : stage.calm = true) (hmapped : Mapped m g p (s p).addresses stage) :
    Invariant m g (s.goto p stage) := by
  have hpublished : (s p).stage.unpublished = false := by
    cases hstage : (s p).stage <;> rw [hstage] at hold <;> first | rfl | cases hold
  have hnotify : (s p).stage.unnotified = true →
      stage.unnotified = true ∨ ∀ r, (s r).stage.waitsAt p = false := fun h => by
    rw [hold] at h
    cases h
  cases stage with
  | resolving i tmp | sleeping i tmp q | resolved tmp =>
    exact hs.goto hmapped hpublished.symm (by simp [Stage.locks]) (by simp [Stage.locksAt])
      hnotify trivial
  | requesting i tmp q phase =>
    cases phase with
    | sent =>
      exact hs.goto hmapped hpublished.symm (by simp [Stage.locks])
        (by simp [Stage.locksAt, Phase.locks]) hnotify trivial
    | refused | entering | testing | blocking | waiting | woken | answering addr | replied addr =>
      cases hcalm
  | defining | defined | publishing | notifying | inserting tmp | announcing | done | threw e =>
    cases hcalm

/-- A request gets on. -/
theorem Invariant.phase (hs : Invariant m g s) {i : ℕ} {tmp : AddressMap} {q : Fin n}
    {phase phase' : Phase} (hstage : (s p).stage = .requesting i tmp q phase)
    (hcarried : ∀ addr, phase'.carried = some addr → ownAddress m q = .ok addr)
    (hlocks : phase'.locks = true → phase.locks = true ∨ ¬ Locked s q)
    (hpending : Pending (s.goto p (.requesting i tmp q phase')) (.requesting i tmp q phase')) :
    Invariant m g (s.goto p (.requesting i tmp q phase')) := by
  obtain ⟨hempty, hknown, hq, -⟩ := hs.mapped hstage
  refine hs.goto ⟨hempty, hknown, hq, hcarried⟩ (by rw [hstage]; rfl) (by simp [Stage.locks])
    (fun r hr => ⟨rfl, ?_⟩) (fun h => ?_) hpending
  · simp only [Stage.locksAt, Bool.and_eq_true, decide_eq_true_eq] at hr
    obtain ⟨rfl, hr⟩ := hr
    refine (hlocks hr).imp_left fun h => ?_
    simp [hstage, Stage.locksAt, h]
  · rw [hstage] at h
    cases h

/-- An address that is there is the right one, and it is not empty. -/
theorem Invariant.own (hm : m.Works) (hs : Invariant m g s) (q : Fin n) :
    if (s q).selfAddr = "" then (s q).stage.unpublished = true
    else ownAddress m q = .ok (s q).selfAddr := by
  cases hstage : (s q).stage.unpublished with
  | true => rw [if_pos ((hs.sane q).unpublished hstage)]
  | false =>
    have hpublished := (hs.sane q).published hstage
    obtain ⟨buf, hbuf, hne⟩ := hm.own q
    rw [hbuf] at hpublished
    cases hpublished
    rw [if_neg hne, hbuf]

theorem unnotified_of_unpublished {r : Stage n} (h : r.unpublished = true) :
    r.unnotified = true := by
  cases r <;> first | rfl | cases h

/-- A provider that asks others has notified its own handlers. -/
theorem ne_requester {q : Fin n} {i : ℕ} {tmp : AddressMap} {target : Fin n} {phase : Phase}
    (hp : (s p).stage = .requesting i tmp target phase) (hq : (s q).stage.unnotified = true) :
    q ≠ p := by
  rintro rfl
  rw [hp] at hq
  cases hq

theorem step_invariant (hm : m.Works) {e : Event n} {t : State n} (hs : Invariant m g s)
    (h : Step m g s e t) : Invariant m g t := by
  cases h with
  | @define p hstage =>
    have hmapped := hs.mapped hstage
    exact hs.goto hmapped (by rw [hstage]; rfl) (by simp [Stage.locks]) (by simp [Stage.locksAt])
      (fun _ => Or.inl rfl) trivial
  | @lockSelf p hstage hfree =>
    have hmapped := hs.mapped hstage
    exact hs.goto hmapped (by rw [hstage]; rfl) (fun _ => Or.inr hfree) (by simp [Stage.locksAt])
      (fun _ => Or.inl rfl) trivial
  | @publish p hstage =>
    have hmapped := hs.mapped hstage
    obtain ⟨buf, hbuf, -⟩ := hm.own p
    have hpublish : publish m s p =
        Function.update s p { s p with stage := .notifying, selfAddr := buf } := by
      unfold publish
      rw [hbuf]
    rw [hpublish]
    -- A handler that has found no address would have the mutex.
    exact hs.update ⟨by simp [Stage.unpublished], fun _ => hbuf, hmapped⟩ (by simp [Stage.locks])
      (by simp [Stage.locksAt]) (fun _ => Or.inr (hs.exclusive p (by rw [hstage]; rfl)))
      (fun _ => Or.inl rfl) trivial
  | @notify p hstage =>
    have hmapped := hs.mapped hstage
    have hpublished : ((notifyAll s p) p).stage.unpublished = false := by
      rw [notifyAll, (notified_eq p _).1, hstage]
      rfl
    exact (hs.notifyAll p).goto ⟨hmapped, known_zero⟩ hpublished.symm (by simp [Stage.locks])
      (by simp [Stage.locksAt]) (fun _ => Or.inr fun r => (notified_eq p (s r).stage).2.2.2.2)
      trivial
  | @resolve p i tmp hstage hi =>
    obtain ⟨hempty, hknown⟩ := hs.mapped hstage
    obtain ⟨hcalm, hmapped⟩ := resolveStep_known hm hknown
    rw [hempty]
    exact hs.calm (by rw [hstage]; rfl) hcalm (hempty ▸ hmapped)
  | @leave p i tmp hstage hi =>
    obtain ⟨hempty, hknown⟩ := hs.mapped hstage
    exact hs.calm (by rw [hstage]; rfl) rfl
      ⟨hempty, fun k hk => hknown k (Nat.lt_of_lt_of_le hk (Nat.not_lt.mp hi))⟩
  | @deliver p i tmp q hstage =>
    split
    · exact hs.phase hstage (by simp [Phase.carried]) (by simp [Phase.locks]) trivial
    · exact hs.phase hstage (by simp [Phase.carried]) (by simp [Phase.locks]) trivial
  | @enter p i tmp q hstage hfree | @reenter p i tmp q hstage hfree =>
    exact hs.phase hstage (by simp [Phase.carried]) (fun _ => Or.inr hfree) trivial
  | @test p i tmp q hstage =>
    have hown := hs.own hm q
    split
    next hempty =>
      rw [if_pos hempty] at hown
      refine hs.phase hstage (by simp [Phase.carried]) (fun _ => Or.inl rfl) ?_
      change (Function.update s p _ q).stage.unpublished = true
      rw [Function.update_of_ne (ne_requester hstage (unnotified_of_unpublished hown))]
      exact hown
    next hfound =>
      rw [if_neg hfound] at hown
      refine hs.phase hstage (fun addr haddr => ?_) (by simp [Phase.locks]) trivial
      rw [hown, ← Option.some.inj haddr]
  | @block p i tmp q hstage =>
    have hpending := hs.pending p
    rw [hstage] at hpending
    have hunnotified := unnotified_of_unpublished hpending
    refine hs.phase hstage (by simp [Phase.carried]) (by simp [Phase.locks]) ?_
    change (Function.update s p _ q).stage.unnotified = true
    rw [Function.update_of_ne (ne_requester hstage hunnotified)]
    exact hunnotified
  | @spurious p i tmp q hstage =>
    exact hs.phase hstage (by simp [Phase.carried]) (by simp [Phase.locks]) trivial
  | @respond p i tmp q addr hstage =>
    have hmapped := hs.mapped hstage
    exact hs.phase hstage hmapped.2.2.2 (by simp [Phase.locks]) trivial
  | @receive p i tmp q addr hstage =>
    obtain ⟨hempty, hknown, rfl, hcarried⟩ := hs.mapped hstage
    obtain ⟨hcalm, hmapped⟩ := lookupStep_known hm hknown (hcarried addr rfl)
    exact hs.calm (by rw [hstage]; rfl) hcalm (hempty ▸ hmapped)
  | @fail p i tmp q hstage =>
    have hmapped := hs.mapped hstage
    exact hs.calm (by rw [hstage]; rfl) rfl ⟨hmapped.1, hmapped.2.1, hmapped.2.2.1⟩
  | @retry p i tmp q hstage =>
    have hmapped := hs.mapped hstage
    exact hs.calm (by rw [hstage]; rfl) rfl
      ⟨hmapped.1, hmapped.2.1, hmapped.2.2, fun addr haddr => by cases haddr⟩
  | @lockAddresses p tmp hstage hfree =>
    have hmapped := hs.mapped hstage
    exact hs.goto hmapped (by rw [hstage]; rfl) (fun _ => Or.inr hfree) (by simp [Stage.locksAt])
      (by simp [hstage, Stage.unnotified]) trivial
  | @insert p tmp hstage =>
    obtain ⟨hempty, hknown⟩ := hs.mapped hstage
    rw [hempty]
    have hpublished := (hs.sane p).published (by rw [hstage]; rfl)
    exact hs.update ⟨by simp [Stage.unpublished], fun _ => hpublished, hknown.inserted⟩
      (by simp [Stage.locks]) (by simp [Stage.locksAt]) (by simp [hstage, Stage.unpublished])
      (by simp [hstage, Stage.unnotified]) trivial
  | @announce p hstage =>
    have hmapped := hs.mapped hstage
    have hannouncing : ((notifyAll s p) p).stage = .announcing := by
      rw [notifyAll, hstage]
      rfl
    exact (hs.notifyAll p).goto hmapped (by rw [hannouncing]; rfl) (by simp [Stage.locks])
      (by simp [Stage.locksAt]) (by simp [hannouncing, Stage.unnotified]) trivial

theorem initial_invariant : Invariant m g (initial : State n) where
  sane _ := ⟨fun _ => rfl, fun h => Bool.noConfusion h, rfl⟩
  exclusive _ _ _ := rfl
  pending _ := trivial

theorem Stuck.elim (h : Stuck m g s) {e : Event n} {t : State n} (hstep : Step m g s e t)
    (he : ∀ p, e ≠ .spurious p) : False := by
  obtain ⟨p, hp⟩ := h e t hstep
  exact he p hp

/-- Whoever has a mutex can go on. -/
theorem Stuck.free (h : Stuck m g s) (q : Fin n) : ¬ Locked s q := by
  rintro (hq | ⟨p, hp⟩)
  · cases hstage : (s q).stage with
    | publishing => exact h.elim (.publish hstage) (by simp)
    | inserting tmp => exact h.elim (.insert hstage) (by simp)
    | defining | defined | notifying | resolving i tmp | requesting i tmp target phase
    | sleeping i tmp target | resolved tmp | announcing | done | threw e =>
      rw [hstage] at hq
      cases hq
  · cases hstage : (s p).stage with
    | requesting i tmp target phase =>
      rw [hstage] at hp
      cases phase with
      | testing => exact h.elim (.test hstage) (by simp)
      | blocking => exact h.elim (.block hstage) (by simp)
      | sent | refused | entering | waiting | woken | answering addr | replied addr =>
        simp [Stage.locksAt, Phase.locks] at hp
    | defining | defined | publishing | notifying | resolving i tmp | sleeping i tmp target
    | resolved tmp | inserting tmp | announcing | done | threw e =>
      rw [hstage] at hp
      cases hp

/-- A constructor that has handlers to wake can go on. -/
theorem Stuck.notified (h : Stuck m g s) (q : Fin n) : (s q).stage.unnotified = false := by
  cases hstage : (s q).stage with
  | defining => exact (h.elim (.define hstage) (by simp)).elim
  | defined => exact (h.elim (.lockSelf hstage (h.free q)) (by simp)).elim
  | publishing => exact (h.elim (.publish hstage) (by simp)).elim
  | notifying => exact (h.elim (.notify hstage) (by simp)).elim
  | resolving i tmp | requesting i tmp target phase | sleeping i tmp target | resolved tmp
  | inserting tmp | announcing | done | threw e => rfl

/-- Nobody waits for a provider that has notified, so nobody waits. -/
theorem Stuck.done (h : Stuck m g s) (hs : Invariant m g s) (p : Fin n) :
    (s p).stage = .done := by
  have hnotified := h.notified p
  cases hstage : (s p).stage with
  | defining | defined | publishing | notifying =>
    rw [hstage] at hnotified
    cases hnotified
  | resolving i tmp =>
    by_cases hi : i < n
    · exact (h.elim (.resolve hstage hi) (by simp)).elim
    · exact (h.elim (.leave hstage hi) (by simp)).elim
  | requesting i tmp q phase =>
    exfalso
    cases phase with
    | sent => exact h.elim (.deliver hstage) (by simp)
    | refused => exact h.elim (.fail hstage) (by simp)
    | entering => exact h.elim (.enter hstage (h.free q)) (by simp)
    | testing => exact h.elim (.test hstage) (by simp)
    | blocking => exact h.elim (.block hstage) (by simp)
    | waiting =>
      have hpending := hs.pending p
      rw [hstage] at hpending
      have hunnotified : (s q).stage.unnotified = true := hpending
      rw [h.notified q] at hunnotified
      cases hunnotified
    | woken => exact h.elim (.reenter hstage (h.free q)) (by simp)
    | answering addr => exact h.elim (.respond hstage) (by simp)
    | replied addr => exact h.elim (.receive hstage) (by simp)
  | sleeping i tmp q => exact (h.elim (.retry hstage) (by simp)).elim
  | resolved tmp => exact (h.elim (.lockAddresses hstage (h.free p)) (by simp)).elim
  | inserting tmp => exact (h.elim (.insert hstage) (by simp)).elim
  | announcing => exact (h.elim (.announce hstage) (by simp)).elim
  | done => rfl
  | threw e =>
    exact (hs.mapped hstage).elim

/-- For every number of providers and every order of steps. -/
theorem constructors_resolve (hm : m.Works) (h : Reaches (Step m g) initial s) :
    ¬ (Stuck m g s ∧ ∃ p, (s p).stage ≠ .done ∨ Unanswered s p) ∧
      ∀ p, (s p).stage = .done →
        ∀ q, ∃ addr, lookup (s p).addresses (g.memberId q) = some addr ∧ Denotes m p addr q := by
  have hs : Invariant m g s :=
    h.invariant (fun _ _ _ hs hstep => step_invariant hm hs hstep) initial_invariant
  constructor
  · rintro ⟨hstuck, p, hp | ⟨i, tmp, q, phase, hstage, -⟩⟩
    · exact hp (hstuck.done hs p)
    · rw [hstuck.done hs p] at hstage
      cases hstage
  · intro p hp q
    exact Known.all (hs.mapped hp) q

end Steps

/-! Two providers. The second one starts first: its first request finds nobody, and the handler
of its second one has to wait. -/

def twoAddresses : Mona 2 where
  addrSelf p := .ok p
  addrToString _ addr := .ok (if addr = 0 then "na+sm://0" else "na+sm://1")
  addrLookup _ buf := .ok (if buf = "na+sm://0" then 0 else 1)

def twoMembers : View 2 where
  memberId p := p.val.toUInt64
  injective := by decide

theorem twoAddresses_works : twoAddresses.Works where
  own p := by
    refine ⟨if p.val = 0 then "na+sm://0" else "na+sm://1", rfl, ?_⟩
    split <;> decide
  lookup p q buf hbuf := by
    cases hbuf
    refine ⟨_, rfl, ?_⟩
    change Except.ok _ = Except.ok _
    by_cases hq : q.val = 0 <;> simp [hq]

theorem second_provider_done : ∃ s : State 2, Reaches (Step twoAddresses twoMembers) initial s ∧
    (s 1).stage = .done := by
  have h : Reaches (Step twoAddresses twoMembers) initial _ := .refl
  have h := h.snoc (.define (p := 1) rfl)
  have h := h.snoc (.lockSelf (p := 1) rfl (by decide))
  have h := h.snoc (.publish (p := 1) rfl)
  have h := h.snoc (.notify (p := 1) rfl)
  have h := h.snoc (.resolve (p := 1) rfl (by decide))
  have h := h.snoc (.resolve (p := 1) rfl (by decide))
  have h := h.snoc (.deliver (p := 1) rfl)
  have h := h.snoc (.fail (p := 1) rfl)
  have h := h.snoc (.retry (p := 1) rfl)
  have h := h.snoc (.define (p := 0) rfl)
  have h := h.snoc (.deliver (p := 1) rfl)
  have h := h.snoc (.enter (p := 1) rfl (by decide))
  have h := h.snoc (.test (p := 1) rfl)
  have h := h.snoc (.block (p := 1) rfl)
  have h := h.snoc (.lockSelf (p := 0) rfl (by decide))
  have h := h.snoc (.publish (p := 0) rfl)
  have h := h.snoc (.notify (p := 0) rfl)
  have h := h.snoc (.reenter (p := 1) rfl (by decide))
  have h := h.snoc (.test (p := 1) rfl)
  have h := h.snoc (.respond (p := 1) rfl)
  have h := h.snoc (.receive (p := 1) rfl)
  have h := h.snoc (.leave (p := 1) rfl (by decide))
  have h := h.snoc (.lockAddresses (p := 1) rfl (by decide))
  have h := h.snoc (.insert (p := 1) rfl)
  have h := h.snoc (.announce (p := 1) rfl)
  exact ⟨_, h, rfl⟩

theorem second_provider_resolves : ∃ s : State 2, Reaches (Step twoAddresses twoMembers) initial s ∧
    (s 1).stage = .done ∧ ∀ q, ∃ addr, lookup (s 1).addresses (twoMembers.memberId q) = some addr ∧
      Denotes twoAddresses 1 addr q := by
  obtain ⟨s, h, hdone⟩ := second_provider_done
  exact ⟨s, h, hdone, (constructors_resolve twoAddresses_works h).2 1 hdone⟩

end MonaResolution
