import Colza.AdminThreads
import Colza.ServedStart

/-!
# Operations of Admin on the servers of a group

Each thread of a distributed operation sends a request to one member, and the members handle the
requests in the order in which the threads run. A thread that has not run finds its member as it
was when the operation began.
-/
namespace MemberOperations

open Interfaces ProviderHandlers ClientHandles ServedStart AdminThreads GuardedRuns

/-- The request that a thread sends. -/
def request : Operation → Request
  | .create name type config library token => .createPipeline token name type config library
  | .destroy name token => .destroyPipeline token name

variable {β : Type}

section Definitions

variable (env : Environment β) (view : View) (providerId : UInt16) (op : Operation)

/-- What a thread meets on servers in these states. A handler that does not respond has thrown. -/
def adminOf (w : Servers β) : AdminEnv :=
  { ClientEnv.ofView view with
    adminRpc := fun address id r =>
      match (process env (w (address, id)) r).reply with
      | some result => .reply result
      | none => .waitThrows "" }

/-- What the thread of a member does with the reply. -/
def concluded : Option (RequestResult Int32) → Except Exception Unit
  | some result => if result.success then .ok () else .error ⟨result.value, result.error⟩
  | none => .error (Exception.foreign "")

def threadsOn (w : Servers β) : Threads :=
  (adminOf env view w).threads providerId op (0, view.length)

/-- The member of thread `k`. -/
def member (k : Fin view.length) : Address × UInt16 := (view[k].2, providerId)

/-- The caller and its threads, and the servers. -/
structure Operating (β : Type) (n : ℕ) where
  admin : AdminThreads.State n
  server : Servers β

def beginning (w : Servers β) : Operating β view.length := ⟨initial view.length, w⟩

/-- The member of a thread that runs handles its request. -/
def operate (w : Servers β) : Event view.length → Servers β
  | .caller => w
  | .run k => Function.update w (member view providerId k)
      (process env (w (member view providerId k)) (request op)).provider

inductive Step (escape : Escape) (s : Operating β view.length) (e : Event view.length) :
    Operating β view.length → Prop where
  | intro {t : AdminThreads.State view.length} :
      AdminThreads.Step escape (threadsOn env view providerId op s.server) s.admin e t →
      Step escape s e ⟨t, operate env view providerId op s.server e⟩

/-- The servers after every member has handled the request. -/
def handled (w : Servers β) : Servers β :=
  updateAll (fun m : UInt64 × Address => (m.2, providerId))
    (fun _ s => (process env s (request op)).provider) view w

/-- Every member answers the request with success. -/
def AllAccept (w : Servers β) : Prop :=
  ∀ m ∈ view, ∃ r, (process env (w (m.2, providerId)) (request op)).reply = some r ∧
    r.success = true

end Definitions

section Members

variable {env : Environment β} {view : View} {providerId : UInt16} {op : Operation}
  {w : Servers β} {k : Fin view.length}

theorem memberAddress_eq (hd : Distinct view) (w : Servers β) (k : Fin view.length) :
    (adminOf env view w).memberAddress 0 k = view[k].2 := by
  obtain ⟨-, -, id, hid, haddr⟩ := resolveMember_ok (resolveMember_ofView hd 0 "" k.isLt)
  have hid : (adminOf env view w).memberIdFromRank 0 k = .ok id := hid
  have haddr : (adminOf env view w).memberAddr 0 id = .ok view[k].2 := haddr
  unfold AdminEnv.memberAddress
  rw [hid]
  exact congrArg (fun r => (Except.toOption r).getD []) haddr

/-- What the thread of a member does depends on this member only. -/
theorem body_eq (hd : Distinct view) :
    (threadsOn env view providerId op w).body k =
      concluded (process env (w (member view providerId k)) (request op)).reply := by
  have haddress : (adminOf env view w).memberAddress 0 k = view[k].2 :=
    memberAddress_eq hd w k
  have hbody : (threadsOn env view providerId op w).body k =
      (adminOf env view w).request view[k].2 providerId (request op) := by
    change (adminOf env view w).onMember ((adminOf env view w).memberAddress 0 k) providerId op = _
    rw [haddress]
    cases op <;> rfl
  have hlookup : (adminOf env view w).lookup view[k].2 = none := rfl
  rw [hbody]
  unfold AdminEnv.request member
  rw [hlookup]
  cases hr : (process env (w (view[k].2, providerId)) (request op)).reply <;>
    simp only [adminOf, hr, concluded]

theorem member_injective (hd : Distinct view) : Function.Injective (member view providerId) := by
  intro j k h
  have haddr : view[j].2 = view[k].2 := congrArg Prod.fst h
  have hsame : view[j] = view[k] := List.inj_on_of_nodup_map hd.addresses
    (List.getElem_mem j.isLt) (List.getElem_mem k.isLt) haddr
  have hnodup : view.Nodup := List.Nodup.of_map _ hd.addresses
  exact Fin.ext ((List.Nodup.getElem_inj_iff hnodup).mp hsame)

end Members

/-! ## One step -/

/-- What a step does to the threads. -/
theorem step_threads {escape : Escape} {ts : Threads} {s t : AdminThreads.State ts.size}
    {e : Event ts.size} (h : AdminThreads.Step escape ts s e t) :
    e = .caller ∧ t.thread = s.thread ∧ (∀ i, t.caller ≠ .creating i) ∨
    (∃ k : Fin ts.size, e = .caller ∧ s.caller = .creating k ∧ t.caller = .creating (k + 1) ∧
      t.thread = Function.update s.thread k .ready) ∨
    ∃ k, e = .run k ∧ s.thread k = .ready ∧ t.caller = s.caller ∧
      t.thread = Function.update s.thread k .done := by
  cases (step_move h).2 with
  | created hi hc => exact Or.inr (Or.inl ⟨⟨_, hi⟩, rfl, hc, rfl, rfl⟩)
  | allCreated hi hc => exact Or.inl ⟨rfl, rfl, fun _ => Caller.noConfusion⟩
  | joined hi hc hk => exact Or.inl ⟨rfl, rfl, fun _ => Caller.noConfusion⟩
  | returned hi hc => exact Or.inl ⟨rfl, rfl, fun _ => Caller.noConfusion⟩
  | ran terminated hk hb => exact Or.inr (Or.inr ⟨_, rfl, hk, rfl, rfl⟩)

section Steps

variable {env : Environment β} {view : View} {providerId : UInt16} {op : Operation}
  {escape : Escape} {w : Servers β} {s t : Operating β view.length} {e : Event view.length}

/-- The members of the threads that have run have handled the request, and no other server. -/
structure Progress (env : Environment β) (view : View) (providerId : UInt16) (op : Operation)
    (w : Servers β) (s : Operating β view.length) : Prop where
  done : ∀ k, s.admin.thread k = .done → s.server (member view providerId k) =
    (process env (w (member view providerId k)) (request op)).provider
  waiting : ∀ k, s.admin.thread k ≠ .done →
    s.server (member view providerId k) = w (member view providerId k)
  others : ∀ v, (∀ k, v ≠ member view providerId k) → s.server v = w v
  absent : ∀ i, s.admin.caller = .creating i → ∀ k : Fin view.length, i ≤ k.val →
    s.admin.thread k = .absent

theorem Progress.begin : Progress env view providerId op w (beginning view w) :=
  ⟨fun _ h => Thread.noConfusion h, fun _ _ => rfl, fun _ _ => rfl, fun _ _ _ _ => rfl⟩

/-- The threads do what they would do on the servers as they were at first. -/
theorem Progress.step_eq (h : Progress env view providerId op w s) (hd : Distinct view) :
    AdminThreads.step escape (threadsOn env view providerId op s.server) s.admin e =
      AdminThreads.step escape (threadsOn env view providerId op w) s.admin e := by
  cases e with
  | caller => rfl
  | run k =>
    unfold AdminThreads.step
    by_cases hk : s.admin.thread k = .ready
    · have hserver := h.waiting k (by rw [hk]; exact Thread.noConfusion)
      have hbody : (threadsOn env view providerId op s.server).body k =
          (threadsOn env view providerId op w).body k := by
        rw [body_eq hd, body_eq hd, hserver]
      simp only [hbody]
      rfl
    · simp only [hk, if_false]
      rfl

/-- The caller goes on, and no member handles a request. -/
theorem Progress.caller (h : Progress env view providerId op w s)
    {t : AdminThreads.State view.length}
    (hdone : ∀ k, t.thread k = .done ↔ s.admin.thread k = .done)
    (habsent : ∀ i, t.caller = .creating i → ∀ k : Fin view.length, i ≤ k.val →
      t.thread k = .absent) :
    Progress env view providerId op w ⟨t, s.server⟩ where
  done k hk := h.done k ((hdone k).mp hk)
  waiting k hk := h.waiting k fun hs => hk ((hdone k).mpr hs)
  others := h.others
  absent := habsent

/-- The caller creates a thread. -/
theorem Progress.create (h : Progress env view providerId op w s)
    {t : AdminThreads.State view.length} {k : Fin view.length} (hk : s.admin.caller = .creating k)
    (hcaller : t.caller = .creating (k + 1))
    (hthread : t.thread = Function.update s.admin.thread k .ready) :
    Progress env view providerId op w ⟨t, s.server⟩ := by
  refine h.caller (fun j => ?_) fun i hi j hij => ?_
  · rw [hthread]
    by_cases hjk : j = k
    · rw [hjk, Function.update_self, h.absent k hk k (Nat.le_refl k)]
      exact iff_of_false Thread.noConfusion Thread.noConfusion
    · rw [Function.update_of_ne hjk]
  · obtain rfl : k.val + 1 = i := Caller.creating.inj (hcaller.symm.trans hi)
    have hjk : j ≠ k := by
      rintro rfl
      exact Nat.not_succ_le_self j hij
    rw [hthread, Function.update_of_ne hjk]
    exact h.absent k hk j (Nat.le_of_succ_le hij)

/-- A thread runs, and its member handles the request. -/
theorem Progress.run (h : Progress env view providerId op w s) (hd : Distinct view)
    {t : AdminThreads.State view.length} {k : Fin view.length} (hk : s.admin.thread k = .ready)
    (hcaller : t.caller = s.admin.caller)
    (hthread : t.thread = Function.update s.admin.thread k .done) :
    Progress env view providerId op w ⟨t, operate env view providerId op s.server (.run k)⟩ := by
  have hself : t.thread k = .done := by rw [hthread, Function.update_self]
  have hother : ∀ j, j ≠ k → t.thread j = s.admin.thread j := fun j hj => by
    rw [hthread, Function.update_of_ne hj]
  have hserver : ∀ j, j ≠ k → Function.update s.server (member view providerId k)
      (process env (s.server (member view providerId k)) (request op)).provider
      (member view providerId j) = s.server (member view providerId j) :=
    fun j hj => Function.update_of_ne ((member_injective hd).ne hj) _ _
  refine ⟨fun j hj => ?_, fun j hj => ?_, fun v hv => ?_, fun i hi j hij => ?_⟩
  · by_cases hjk : j = k
    · have hwas := h.waiting k (by rw [hk]; exact Thread.noConfusion)
      rw [hjk, ← hwas]
      exact Function.update_self ..
    · exact (hserver j hjk).trans (h.done j ((hother j hjk).symm.trans hj))
  · have hjk : j ≠ k := by
      rintro rfl
      exact hj hself
    exact (hserver j hjk).trans (h.waiting j ((hother j hjk) ▸ hj))
  · exact (Function.update_of_ne (hv k) _ _).trans (h.others v hv)
  · have habsent := h.absent i (hcaller.symm.trans hi) j hij
    have hjk : j ≠ k := by
      rintro rfl
      rw [hk] at habsent
      cases habsent
    exact (hother j hjk).trans habsent

/-- What one event does to the servers. -/
theorem Progress.step (h : Progress env view providerId op w s) (hd : Distinct view)
    (hstep : Step env view providerId op escape s e t) :
    AdminThreads.Step escape (threadsOn env view providerId op w) s.admin e t.admin ∧
      Progress env view providerId op w t := by
  obtain ⟨hadmin⟩ := hstep
  unfold AdminThreads.Step at hadmin
  rw [h.step_eq hd] at hadmin
  refine ⟨hadmin, ?_⟩
  rcases step_threads hadmin with ⟨rfl, ht, hc⟩ | ⟨k, rfl, hs, hc, ht⟩ | ⟨k, rfl, hk, hc, ht⟩
  · exact h.caller (fun k => by rw [ht]) fun i hi => (hc i hi).elim
  · exact h.create hs hc ht
  · exact h.run hd hk hc ht

/-- A step of the threads is a step on the servers. -/
theorem Progress.possible (h : Progress env view providerId op w s) (hd : Distinct view)
    {t : AdminThreads.State view.length}
    (hadmin : AdminThreads.Step escape (threadsOn env view providerId op w) s.admin e t) :
    Step env view providerId op escape s e ⟨t, operate env view providerId op s.server e⟩ :=
  .intro ((h.step_eq hd).trans hadmin)

end Steps

/-! ## Whole operations -/

section Runs

variable {env : Environment β} {view : View} {providerId : UInt16} {op : Operation}
  {escape : Escape} {w : Servers β} {s : Operating β view.length}

/-- Next to the servers the threads run as on servers that do not change. -/
theorem reaches_progress (hd : Distinct view)
    (h : Reaches (Step env view providerId op escape) (beginning view w) s) :
    Reaches (AdminThreads.Step escape (threadsOn env view providerId op w)) (initial view.length)
        s.admin ∧
      Progress env view providerId op w s := by
  have hstep : ∀ s e t, Reaches (AdminThreads.Step escape (threadsOn env view providerId op w))
        (initial view.length) s.admin ∧ Progress env view providerId op w s →
      Step env view providerId op escape s e t →
      Reaches (AdminThreads.Step escape (threadsOn env view providerId op w))
        (initial view.length) t.admin ∧ Progress env view providerId op w t := by
    rintro s e t ⟨hs, hp⟩ hstep
    obtain ⟨hadmin, ht⟩ := hp.step hd hstep
    exact ⟨hs.snoc hadmin, ht⟩
  exact h.invariant hstep ⟨.refl, .begin⟩

theorem handled_member (hd : Distinct view) {m : UInt64 × Address} (hm : m ∈ view) :
    handled env view providerId op w (m.2, providerId) =
      (process env (w (m.2, providerId)) (request op)).provider := by
  have hnodup : (view.map fun m : UInt64 × Address => (m.2, providerId)).Nodup := by
    have haddresses := hd.addresses.map (f := fun a : Address => (a, providerId))
      fun _ _ h => congrArg Prod.fst h
    rwa [List.map_map] at haddresses
  exact updateAll_of_mem (f := fun _ s => (process env s (request op)).provider) hnodup hm

theorem handled_other {v : Address × UInt16} (hv : ∀ k, v ≠ member view providerId k) :
    handled env view providerId op w v = w v := by
  refine updateAll_of_notMem ?_
  rw [List.mem_map]
  rintro ⟨m, hm, rfl⟩
  obtain ⟨k, hk, rfl⟩ := List.getElem_of_mem hm
  exact hv ⟨k, hk⟩ rfl

/-- At the end of the call every member has handled the request, if none has failed in a way that
ends the program. -/
theorem ended_servers (hd : Distinct view)
    (h : Reaches (Step env view providerId op escape) (beginning view w) s)
    (he : ∃ r, s.admin.caller = .ended r) : s.server = handled env view providerId op w := by
  obtain ⟨hadmin, hp⟩ := reaches_progress hd h
  obtain ⟨r, hr⟩ := he
  have hdone : ∀ k, s.admin.thread k = .done := fun k =>
    (invariant_reaches hadmin).joined k (by rw [hr]; exact k.isLt)
  funext v
  by_cases hv : ∃ k, v = member view providerId k
  · obtain ⟨k, rfl⟩ := hv
    exact (hp.done k (hdone k)).trans (handled_member hd (List.getElem_mem k.isLt)).symm
  · rw [not_exists] at hv
    rw [hp.others v hv, handled_other hv]

theorem AllAccept.body (h : AllAccept env view providerId op w) (hd : Distinct view)
    (k : Fin view.length) : (threadsOn env view providerId op w).body k = .ok () := by
  obtain ⟨r, hr, hs⟩ := h view[k] (List.getElem_mem k.isLt)
  have hr : (process env (w (member view providerId k)) (request op)).reply = some r := hr
  rw [body_eq hd, hr]
  simp only [concluded, hs, if_true]

/-- Where all members accept, the operation returns normally when all have handled it. -/
theorem ended_accepted (hd : Distinct view) (ha : AllAccept env view providerId op w)
    (h : Reaches (Step env view providerId op escape) (beginning view w) s)
    (he : Ended s.admin) :
    s.admin.caller = .ended (.ok ()) ∧ s.server = handled env view providerId op w := by
  obtain ⟨hadmin, -⟩ := reaches_progress hd h
  have hi := invariant_reaches hadmin
  rcases he with ht | ⟨r, hr⟩
  · obtain ⟨k, e, hk⟩ := hi.terminated ht
    cases (ha.body hd k).symm.trans hk
  · obtain rfl := hi.result r hr
    exact ⟨hr, ended_servers hd h ⟨_, hr⟩⟩

theorem step_less {s t : Operating β view.length} {e : Event view.length}
    (h : Step env view providerId op escape s e t) : remaining t.admin < remaining s.admin := by
  obtain ⟨hadmin⟩ := h
  exact step_remaining hadmin

/-- An operation that is on its way goes on until its end. -/
theorem operation_goesOn (hd : Distinct view)
    (h : Reaches (Step env view providerId op escape) (beginning view w) s) :
    Ended s.admin ∨ ∃ e t, Step env view providerId op escape s e t := by
  obtain ⟨hadmin, hp⟩ := reaches_progress hd h
  rcases (invariant_reaches hadmin).goesOn with he | ⟨e, t, ht⟩
  · exact Or.inl he
  · exact Or.inr ⟨e, _, hp.possible hd ht⟩

end Runs

end MemberOperations
