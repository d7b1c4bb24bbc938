import Colza.ProviderRuns

/-!
# Provider objects and the finalize callbacks of their engine

A `Provider` pushes a callback on the engine under its own address, which resets its `self`
when the engine is finalized. Constructions, moves and destructions of any number of objects
on one engine are taken in any order.
-/
namespace ProviderObjects

open GuardedRuns Interfaces ProviderHandlers

variable {β α : Type}

/-! ## The configuration of a new provider -/

/-- `json::find`. -/
def Json.find (key : String) : Json → Option Json
  | .object members => (members.find? fun m => m.1 = key).map Prod.snd
  | _ => none

/-- `json::value` with an empty string as its default; another type is a type error. -/
def Json.stringValue (key : String) (json : Json) : Except Thrown String :=
  match Json.find key json with
  | none => .ok ""
  | some (.string s) => .ok s
  | some _ => .error .unknown

/-- The loop of `processConfig` over the items of its object. -/
def createPipelines (env : Environment β) (s : Provider β) :
    List (String × Json) → Except Thrown (Provider β)
  | [] => .ok s
  | (name, pipeline) :: items =>
    match pipeline with
    | .object _ => do
      let library ← Json.stringValue "library" pipeline
      let config := (Json.find "config" pipeline).getD (.object [])
      let type ← Json.stringValue "type" pipeline
      if type = "" then
        .error (.exception (.of .jsonConfigError
          ("No type provided for pipeline '" ++ name ++ "'")))
      else
        let s ← _createPipeline env s name type config library
        createPipelines env s items
    | _ => .error (.exception (.of .jsonConfigError
        ("Pipeline '" ++ name ++ "' should be an object")))

def processConfig (env : Environment β) (s : Provider β) (config : String) :
    Except Thrown (Provider β) :=
  if config = "" then .ok s
  else match env.parse config with
  | .error _ =>
    .error (.exception (.of .jsonParseError "Could not parse JSON configuration"))
  | .ok json =>
    match Json.find "pipelines" json with
    | none => .ok s
    | some (.object pipelines) => createPipelines env s pipelines
    | some _ =>
      .error (.exception (.of .jsonConfigError "'pipeline' entry should be an object"))

/-! ## Objects and callbacks -/

/-- `[p] { p->self.reset(); }`, pushed under the address of its owner. -/
structure Callback (α : Type) where
  owner : α
  captured : α
  deriving DecidableEq, Repr

/-- The live objects with their `self`, and the callbacks, the last one that was pushed first. -/
structure State (α β : Type) where
  objects : Finmap fun _ : α => Option (Provider β)
  callbacks : List (Callback α)

/-- The construction of the implementation may throw before the callback is pushed. -/
inductive Operation (α β : Type) where
  | construct (p : α) (made : Except Exception (Provider β)) (env : Environment β)
      (config : String)
  | moveConstruct (p other : α)
  | destroy (p : α)

section Operations

variable [DecidableEq α]

def pushFinalizeCallback (owner captured : α) (callbacks : List (Callback α)) :
    List (Callback α) :=
  ⟨owner, captured⟩ :: callbacks

def popFinalizeCallback (owner : α) (callbacks : List (Callback α)) : List (Callback α) :=
  callbacks.eraseP fun c => c.owner = owner

/-- The constructor. An exception of `processConfig` leaves no object. -/
def construct (s : State α β) (p : α) (made : Except Exception (Provider β))
    (env : Environment β) (config : String) : State α β :=
  match made with
  | .error _ => s
  | .ok impl =>
    let s := { s with callbacks := pushFinalizeCallback p p s.callbacks }
    match processConfig env impl config with
    | .error _ => s
    | .ok impl => { s with objects := s.objects.insert p (some impl) }

/-- The move constructor, which pops under the address of the new object. -/
def moveConstruct (s : State α β) (p other : α) : State α β :=
  match s.objects.lookup other with
  | some (some impl) =>
    { objects := (s.objects.insert other none).insert p (some impl)
      callbacks := pushFinalizeCallback p p (popFinalizeCallback p s.callbacks) }
  | _ => { s with objects := s.objects.insert p none }

def destroy (s : State α β) (p : α) : State α β :=
  match s.objects.lookup p with
  | some (some _) =>
    { objects := s.objects.erase p, callbacks := popFinalizeCallback p s.callbacks }
  | _ => { s with objects := s.objects.erase p }

def apply (s : State α β) : Operation α β → State α β
  | .construct p made env config => construct s p made env config
  | .moveConstruct p other => moveConstruct s p other
  | .destroy p => destroy s p

/-- A new object needs a place of its own, and only a live one is moved from or destroyed. -/
def Allowed (s : State α β) : Operation α β → Prop
  | .construct p _ _ _ => p ∉ s.objects
  | .moveConstruct p other => p ∉ s.objects ∧ other ∈ s.objects
  | .destroy p => p ∈ s.objects

instance (s : State α β) : (op : Operation α β) → Decidable (Allowed s op)
  | .construct p _ _ _ => inferInstanceAs (Decidable (p ∉ s.objects))
  | .moveConstruct p other => inferInstanceAs (Decidable (p ∉ s.objects ∧ other ∈ s.objects))
  | .destroy p => inferInstanceAs (Decidable (p ∈ s.objects))

def Step (s : State α β) (op : Operation α β) (t : State α β) : Prop :=
  Allowed s op ∧ t = apply s op

def initial : State α β := ⟨∅, []⟩

/-- The callbacks of a finalization, one after the other. None: one of them has run on an
object that is not there or has no `self`. -/
def runCallbacks (objects : Finmap fun _ : α => Option (Provider β)) :
    List (Callback α) → Option (Finmap fun _ : α => Option (Provider β))
  | [] => some objects
  | c :: callbacks =>
    match objects.lookup c.captured with
    | some (some _) => runCallbacks (objects.insert c.captured none) callbacks
    | _ => none

/-- There is one callback for each live object with a `self`, under its address, and it
captures that address. -/
structure Registered (s : State α β) : Prop where
  nodup : s.callbacks.Nodup
  exact : ∀ c, c ∈ s.callbacks ↔ c.captured = c.owner ∧
    ∃ impl, s.objects.lookup c.owner = some (some impl)

def FinalizesSafely (s : State α β) : Prop := (runCallbacks s.objects s.callbacks).isSome = true

/-- No configuration fails, and only an object without a `self` is moved from. -/
def Tame (s : State α β) : Operation α β → Prop
  | .construct _ made env config =>
    ∀ impl, made = .ok impl → ∃ impl', processConfig env impl config = .ok impl'
  | .moveConstruct _ other => s.objects.lookup other = some none
  | .destroy _ => True

end Operations

/-- A callback that captures its owner is given by it. -/
theorem eq_of_owner {c d : Callback α} (hc : c.captured = c.owner) (hd : d.captured = d.owner)
    (he : c.owner = d.owner) : c = d := by
  cases c
  cases d
  cases he
  cases hc
  cases hd
  rfl

section Registry

variable [DecidableEq α] {s : State α β} {p other : α}

theorem runCallbacks_registered {objects : Finmap fun _ : α => Option (Provider β)}
    {callbacks : List (Callback α)} (hnodup : callbacks.Nodup)
    (hlive : ∀ c ∈ callbacks, c.captured = c.owner ∧
      ∃ impl, objects.lookup c.owner = some (some impl)) :
    (runCallbacks objects callbacks).isSome = true := by
  induction callbacks generalizing objects with
  | nil => rfl
  | cons c callbacks ih =>
    obtain ⟨hc, impl, hl⟩ := hlive c (List.mem_cons_self ..)
    rw [List.nodup_cons] at hnodup
    unfold runCallbacks
    rw [hc, hl]
    apply ih hnodup.2
    intro d hd
    obtain ⟨hcap, impl', hl'⟩ := hlive d (List.mem_cons_of_mem _ hd)
    refine ⟨hcap, impl', ?_⟩
    have hne : d.owner ≠ c.owner := by
      intro he
      apply hnodup.1
      rw [← eq_of_owner hcap hc he]
      exact hd
    rw [Finmap.lookup_insert_of_ne _ hne]
    exact hl'

theorem Registered.finalizesSafely (h : Registered s) : FinalizesSafely s :=
  runCallbacks_registered h.nodup fun c hc => (h.exact c).mp hc

/-- No callback has the address of an object that is not there. -/
theorem Registered.not_owner (h : Registered s) (hp : p ∉ s.objects) {c : Callback α}
    (hc : c ∈ s.callbacks) : c.owner ≠ p := by
  rintro rfl
  obtain ⟨-, impl, hl⟩ := (h.exact c).mp hc
  exact hp (Finmap.mem_of_lookup_eq_some hl)

theorem Registered.pop_absent (h : Registered s) (hp : p ∉ s.objects) :
    popFinalizeCallback p s.callbacks = s.callbacks := by
  apply List.eraseP_of_forall_not
  intro c hc
  simpa using h.not_owner hp hc

/-- A new object with its own callback. -/
theorem Registered.insert (h : Registered s) (hp : p ∉ s.objects) (impl : Provider β) :
    Registered ⟨s.objects.insert p (some impl), pushFinalizeCallback p p s.callbacks⟩ where
  nodup := by
    unfold pushFinalizeCallback
    rw [List.nodup_cons]
    exact ⟨fun hc => h.not_owner hp hc rfl, h.nodup⟩
  exact c := by
    unfold pushFinalizeCallback
    rw [List.mem_cons]
    by_cases hc : c.owner = p
    · have hnot : c ∉ s.callbacks := fun hm => h.not_owner hp hm hc
      subst hc
      simp only [Finmap.lookup_insert, hnot, or_false, Option.some.injEq, exists_eq', and_true]
      cases c
      simp
    · have hne : c ≠ ⟨p, p⟩ := by
        rintro rfl
        exact hc rfl
      rw [Finmap.lookup_insert_of_ne _ hc, h.exact c]
      simp [hne]

/-- An object without a `self` needs no callback. -/
theorem Registered.insert_none (h : Registered s) (hp : p ∉ s.objects) :
    Registered ⟨s.objects.insert p none, s.callbacks⟩ where
  nodup := h.nodup
  exact c := by
    rw [h.exact c]
    by_cases hc : c.owner = p
    · rw [hc, Finmap.lookup_insert, Finmap.lookup_eq_none.mpr hp]
      simp
    · rw [Finmap.lookup_insert_of_ne _ hc]

theorem Registered.erase_none (h : Registered s) (hp : s.objects.lookup p = some none) :
    Registered ⟨s.objects.erase p, s.callbacks⟩ where
  nodup := h.nodup
  exact c := by
    rw [h.exact c]
    by_cases hc : c.owner = p
    · rw [hc, hp, Finmap.lookup_erase]
      simp
    · rw [Finmap.lookup_erase_ne hc]

/-- One callback at most has the address. -/
theorem Registered.mem_pop (h : Registered s) {c : Callback α} :
    c ∈ popFinalizeCallback p s.callbacks ↔ c.owner ≠ p ∧ c ∈ s.callbacks := by
  unfold popFinalizeCallback
  by_cases hc : c.owner = p
  · refine iff_of_false (fun hm => ?_) fun hm => hm.1 hc
    have hmem : c ∈ s.callbacks := List.mem_of_mem_eraseP hm
    obtain ⟨d, l, r, -, hd, hlist, herase⟩ := List.exists_of_eraseP
      (p := fun d : Callback α => decide (d.owner = p)) hmem (decide_eq_true hc)
    have hdmem : d ∈ s.callbacks := hlist ▸ List.mem_append_right l (List.mem_cons_self ..)
    have hcd : c = d := eq_of_owner ((h.exact c).mp hmem).1 ((h.exact d).mp hdmem).1
      (hc.trans (of_decide_eq_true hd).symm)
    have hnodup := h.nodup
    rw [hlist, List.nodup_middle, List.nodup_cons] at hnodup
    rw [herase, hcd] at hm
    exact hnodup.1 hm
  · rw [List.mem_eraseP_of_neg (by simpa using hc)]
    exact (and_iff_right hc).symm

/-- The callback of an object goes with it. -/
theorem Registered.erase (h : Registered s) :
    Registered ⟨s.objects.erase p, popFinalizeCallback p s.callbacks⟩ where
  nodup := h.nodup.sublist List.eraseP_sublist
  exact c := by
    rw [h.mem_pop, h.exact c]
    by_cases hc : c.owner = p
    · rw [hc, Finmap.lookup_erase]
      simp
    · rw [Finmap.lookup_erase_ne hc]
      exact and_iff_right hc

/-- A callback of an object that the constructor has not completed. -/
theorem Registered.not_push (hp : p ∉ s.objects) {callbacks : List (Callback α)} :
    ¬ Registered ⟨s.objects, pushFinalizeCallback p p callbacks⟩ := by
  intro h
  exact h.not_owner hp (List.mem_cons_self ..) rfl

/-- The callback of the object that is moved from stays. -/
theorem Registered.not_move (h : Registered s) (hp : p ∉ s.objects) {impl : Provider β}
    (hl : s.objects.lookup other = some (some impl)) : ¬ Registered (moveConstruct s p other) := by
  have hother : other ≠ p := by
    rintro rfl
    exact hp (Finmap.mem_of_lookup_eq_some hl)
  have hold : (⟨other, other⟩ : Callback α) ∈ s.callbacks := (h.exact _).mpr ⟨rfl, impl, hl⟩
  unfold moveConstruct
  rw [hl]
  dsimp only
  rw [h.pop_absent hp]
  intro hr
  obtain ⟨-, impl', hl'⟩ := (hr.exact _).mp (List.mem_cons_of_mem _ hold)
  dsimp only at hl'
  rw [Finmap.lookup_insert_of_ne _ hother, Finmap.lookup_insert] at hl'
  cases hl'

theorem construct_registered_iff (h : Registered s) (hp : p ∉ s.objects)
    (made : Except Exception (Provider β)) (env : Environment β) (config : String) :
    Registered (construct s p made env config) ↔ Tame s (.construct p made env config) := by
  unfold construct Tame
  cases made with
  | error e => exact iff_of_true h fun impl hi => by cases hi
  | ok impl =>
    cases hc : processConfig env impl config with
    | error e =>
      simp only [hc]
      refine iff_of_false (Registered.not_push hp) fun ht => ?_
      obtain ⟨impl', hi⟩ := ht impl rfl
      rw [hc] at hi
      cases hi
    | ok impl' =>
      simp only [hc]
      refine iff_of_true (h.insert hp impl') fun impl'' hi => ?_
      rw [← Except.ok.inj hi, hc]
      exact ⟨impl', rfl⟩

theorem moveConstruct_registered_iff (h : Registered s) (hp : p ∉ s.objects)
    (ho : other ∈ s.objects) :
    Registered (moveConstruct s p other) ↔ Tame s (.moveConstruct p other) := by
  obtain ⟨self, hl⟩ := Finmap.mem_iff.mp ho
  cases self with
  | none =>
    unfold moveConstruct
    rw [hl]
    exact iff_of_true (h.insert_none hp) hl
  | some impl =>
    refine iff_of_false (h.not_move hp hl) fun ht => ?_
    rw [Tame, hl] at ht
    cases ht

theorem destroy_registered (h : Registered s) (hp : p ∈ s.objects) : Registered (destroy s p) := by
  obtain ⟨self, hl⟩ := Finmap.mem_iff.mp hp
  unfold destroy
  rw [hl]
  cases self with
  | none => exact h.erase_none hl
  | some impl => exact h.erase

theorem step_registered_iff {op : Operation α β} {t : State α β} (h : Registered s)
    (hstep : Step s op t) : Registered t ↔ Tame s op := by
  obtain ⟨hallowed, rfl⟩ := hstep
  cases op with
  | construct p made env config => exact construct_registered_iff h hallowed made env config
  | moveConstruct p other => exact moveConstruct_registered_iff h hallowed.1 hallowed.2
  | destroy p => exact iff_of_true (destroy_registered h hallowed) trivial

theorem initial_registered : Registered (initial : State α β) :=
  ⟨List.nodup_nil, fun c => by simp [initial]⟩

/-- For every sequence of operations. -/
theorem callbacks_exact_iff_tame {operations : List (Operation α β × State α β)}
    (hrun : Run Step initial operations) :
    Always (fun s => Registered s ∧ FinalizesSafely s) initial operations ↔
      Guarded Tame initial operations := by
  apply always_iff_guarded _ hrun ⟨initial_registered, initial_registered.finalizesSafely⟩
  intro s op t hs hstep
  rw [← step_registered_iff hs.1 hstep]
  exact ⟨And.left, fun h => ⟨h, h.finalizesSafely⟩⟩

end Registry

/-! Objects on an engine, at the addresses 1 and 2. -/

/-- The parser accepts nothing. -/
def strictEnvironment : Environment Unit :=
  { ProviderRuns.acceptingEnvironment with parse := fun _ => .error "syntax error" }

def newImpl : Provider Unit := ProviderHandlers.initial "" 0 []

def withConfig (p : ℕ) (config : String) : Operation ℕ Unit :=
  .construct p (.ok newImpl) strictEnvironment config

/-- Two objects, of which the first is destroyed. -/
theorem callbacks_exact_after_destruction :
    let s := apply initial (withConfig 1 "")
    let t := apply s (withConfig 2 "")
    Always (fun s => Registered s ∧ FinalizesSafely s) initial
      [(withConfig 1 "", s), (withConfig 2 "", t), (.destroy 1, apply t (.destroy 1))] := by
  apply (callbacks_exact_iff_tame _).mpr
  · exact ⟨fun impl _ => ⟨impl, rfl⟩, fun impl _ => ⟨impl, rfl⟩, trivial, trivial⟩
  · exact .cons ⟨by decide, rfl⟩ (.cons ⟨by decide, rfl⟩ (.cons ⟨by decide, rfl⟩ (.nil _)))

/-- An object is moved and destroyed, and the callback under its address stays. -/
theorem destroyed_object_keeps_callback :
    ¬ ∀ operations : List (Operation ℕ Unit × State ℕ Unit), Run Step initial operations →
      Always (fun s => Registered s ∧ FinalizesSafely s) initial operations := by
  intro hall
  let s := apply initial (withConfig 1 "")
  let t := apply s (.moveConstruct 2 1)
  have hrun : Run Step initial
      [(withConfig 1 "", s), (.moveConstruct 2 1, t), (.destroy 1, apply t (.destroy 1))] :=
    .cons ⟨by decide, rfl⟩ (.cons ⟨by decide, rfl⟩ (.cons ⟨by decide, rfl⟩ (.nil _)))
  have hsafe := (hall _ hrun).last.2
  revert hsafe
  unfold FinalizesSafely
  decide

end ProviderObjects
