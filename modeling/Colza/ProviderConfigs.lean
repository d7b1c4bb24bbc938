import Colza.ProviderObjects

/-!
# The pipelines of a configuration

`processConfig` on a provider without pipelines. The type errors of the JSON library and what
a factory throws are exceptions of other kinds than `colza::Exception`.
-/
namespace ProviderConfigs

open Interfaces ProviderHandlers ProviderObjects

variable {β : Type}

/-! ## One entry -/

/-- The value of a key that may be absent, where it is a string. -/
def entryString (key : String) (pipeline : Json) : String :=
  match Json.find key pipeline with
  | some (.string s) => s
  | _ => ""

def entryConfig (pipeline : Json) : Json := (Json.find "config" pipeline).getD (.object [])

/-- The key is there with another type than string. -/
def IllTyped (key : String) (pipeline : Json) : Prop :=
  ∃ value, Json.find key pipeline = some value ∧ ∀ s, value ≠ .string s

def IsObject (pipeline : Json) : Prop := ∃ members, pipeline = .object members

/-- The library of the entry is loaded, if it names one. -/
def Loads (env : Environment β) (pipeline : Json) : Prop :=
  entryString "library" pipeline = "" ∨ env.dlopen (entryString "library" pipeline) = none

/-- What the factory makes of the entry. -/
def factory (env : Environment β) (pipeline : Json) : Made β :=
  PipelineFactory.createPipeline env (entryString "type" pipeline) (entryConfig pipeline)

/-- An object whose library or type is no string, or whose factory throws what is no
`std::exception`. -/
def EscapesEntry (env : Environment β) (pipeline : Json) : Prop :=
  IsObject pipeline ∧ (IllTyped "library" pipeline ∨ IllTyped "type" pipeline ∨
    entryString "type" pipeline ≠ "" ∧ Loads env pipeline ∧
      factory env pipeline = .unknownException)

/-- An object with a type, whose library is loaded and whose factory makes a backend. -/
def CreatesEntry (env : Environment β) (pipeline : Json) : Prop :=
  IsObject pipeline ∧ ¬ IllTyped "library" pipeline ∧ ¬ IllTyped "type" pipeline ∧
    entryString "type" pipeline ≠ "" ∧ Loads env pipeline ∧
      ∃ b, factory env pipeline = .backend b

/-- Some entry throws past the checks, and every entry before it is created. -/
def Escapes (env : Environment β) : List (String × Json) → Prop
  | [] => False
  | entry :: items => EscapesEntry env entry.2 ∨ CreatesEntry env entry.2 ∧ Escapes env items

/-- A pipeline as the entry asks for it, before its first iteration. -/
structure MadeFrom (env : Environment β) (addresses : List NaAddr) (pipeline : Json)
    (st : PipelineState β) : Prop where
  loads : Loads env pipeline
  made : ∃ b, factory env pipeline = .backend b ∧
    st.pipeline.state = env.backend.updateMonaAddresses b addresses
  inactive : st.active = false
  iteration : st.iteration = 0

/-! ## The whole configuration -/

/-- The items of the object `pipelines`, if the configuration has one. -/
def entries (env : Environment β) (config : String) : List (String × Json) :=
  if config = "" then []
  else match env.parse config with
  | .error _ => []
  | .ok json =>
    match Json.find "pipelines" json with
    | some (.object pipelines) => pipelines
    | _ => []

/-- The objects of the JSON library are maps. -/
def ObjectsAreMaps (env : Environment β) : Prop :=
  ∀ text json key members, env.parse text = .ok json →
    Json.find key json = some (.object members) → (members.map Prod.fst).Nodup

/-- The provider has the pipelines of the configuration, or the caller a `colza::Exception`. -/
def ConfiguredOrRefused (env : Environment β) (s : Provider β) (config : String) : Prop :=
  match processConfig env s config with
  | .ok t =>
    (∀ name, name ∈ t.pipelines ↔ name ∈ (entries env config).map Prod.fst) ∧
      ∀ entry ∈ entries env config, ∃ st, t.pipelines.lookup entry.1 = some st ∧
        MadeFrom env (s.monaAddresses.map Prod.snd) entry.2 st
  | .error (.exception _) => True
  | .error .unknown => False

/-! ## The loop -/

/-- The body of the loop, up to the registration of the pipeline. -/
def makeEntry (env : Environment β) (s : Provider β) (name : String) (pipeline : Json) :
    Except Thrown β :=
  match pipeline with
  | .object _ => do
    let library ← Json.stringValue "library" pipeline
    let type ← Json.stringValue "type" pipeline
    if type = "" then
      .error (.exception (.of .jsonConfigError ("No type provided for pipeline '" ++ name ++ "'")))
    else makeBackend env s type (entryConfig pipeline) library
  | _ => .error (.exception (.of .jsonConfigError ("Pipeline '" ++ name ++ "' should be an object")))

section Loop

variable {env : Environment β} {s t : Provider β} {name : String} {pipeline : Json}
  {items : List (String × Json)}

theorem createPipelines_cons (env : Environment β) (s : Provider β) (name : String)
    (pipeline : Json) (items : List (String × Json)) :
    createPipelines env s ((name, pipeline) :: items) =
      match makeEntry env s name pipeline with
      | .error e => .error e
      | .ok b => createPipelines env (s.register name b) items := by
  cases pipeline with
  | object members =>
    simp only [createPipelines, makeEntry, entryConfig]
    cases Json.stringValue "library" (.object members) with
    | error e => rfl
    | ok library =>
      cases Json.stringValue "type" (.object members) with
      | error e => rfl
      | ok type =>
        simp only [bind, Except.bind]
        split
        · rfl
        · unfold _createPipeline
          cases makeBackend env s type _ library <;> rfl
  | _ => rfl

theorem stringValue_eq (key : String) (pipeline : Json) :
    IllTyped key pipeline ∧ Json.stringValue key pipeline = .error .unknown ∨
      ¬ IllTyped key pipeline ∧ Json.stringValue key pipeline = .ok (entryString key pipeline) := by
  unfold IllTyped Json.stringValue entryString
  cases Json.find key pipeline with
  | none => exact Or.inr ⟨by simp, rfl⟩
  | some value =>
    cases value with
    | string s => exact Or.inr ⟨by simp, rfl⟩
    | _ => exact Or.inl ⟨⟨_, rfl, fun s => Json.noConfusion⟩, rfl⟩

/-- The end of `makeBackend`, once the factory has been called. -/
def ofMade (env : Environment β) (addresses : List NaAddr) (type : String) :
    Made β → Except Thrown β
  | .exception e => .error (.exception e)
  | .stdException what => .error (.exception (.of .otherError what))
  | .unknownException => .error .unknown
  | .null => .error (.exception (.of .pipelineCreateError ("Unknown pipeline type " ++ type)))
  | .backend b => .ok (env.backend.updateMonaAddresses b addresses)

theorem makeBackend_loaded (env : Environment β) (s : Provider β) (type : String) (config : Json)
    {library : String} (hl : library = "" ∨ env.dlopen library = none) :
    makeBackend env s type config library =
      ofMade env (s.monaAddresses.map Prod.snd) type
        (PipelineFactory.createPipeline env type config) := by
  have hd : (if library = "" then none else env.dlopen library) = none := by
    split
    · rfl
    · next hne => exact hl.resolve_left hne
  unfold makeBackend
  rw [hd]
  cases PipelineFactory.createPipeline env type config <;> rfl

theorem makeBackend_unloaded (env : Environment β) (s : Provider β) (type : String) (config : Json)
    {library : String} (hl : ¬ (library = "" ∨ env.dlopen library = none)) :
    ∃ e, makeBackend env s type config library = .error (.exception e) := by
  obtain ⟨hne, hd⟩ := not_or.mp hl
  obtain ⟨dlerror, hd⟩ := Option.ne_none_iff_exists'.mp hd
  exact ⟨.of .invalidLibrary dlerror, by simp [makeBackend, hne, hd]⟩

/-- What comes of an entry whose library and type are strings. -/
theorem makeEntry_typed (env : Environment β) (s : Provider β) (name : String)
    (ho : IsObject pipeline) (hlib : ¬ IllTyped "library" pipeline)
    (htype : ¬ IllTyped "type" pipeline) :
    makeEntry env s name pipeline =
      if entryString "type" pipeline = "" then
        .error (.exception (.of .jsonConfigError ("No type provided for pipeline '" ++ name ++ "'")))
      else makeBackend env s (entryString "type" pipeline) (entryConfig pipeline)
        (entryString "library" pipeline) := by
  obtain ⟨members, rfl⟩ := ho
  have hl := ((stringValue_eq "library" (.object members)).resolve_left fun h => hlib h.1).2
  have ht := ((stringValue_eq "type" (.object members)).resolve_left fun h => htype h.1).2
  simp only [makeEntry, hl, ht, bind, Except.bind]

/-- The three ways in which the body of the loop ends. -/
inductive EntryEnds (env : Environment β) (addresses : List NaAddr) (pipeline : Json) :
    Except Thrown β → Prop where
  | created {b} : CreatesEntry env pipeline → ¬ EscapesEntry env pipeline →
      factory env pipeline = .backend b →
      EntryEnds env addresses pipeline (.ok (env.backend.updateMonaAddresses b addresses))
  | escaped : EscapesEntry env pipeline → EntryEnds env addresses pipeline (.error .unknown)
  | refused {e} : ¬ CreatesEntry env pipeline → ¬ EscapesEntry env pipeline →
      EntryEnds env addresses pipeline (.error (.exception e))

theorem makeEntry_ends (env : Environment β) (s : Provider β) (name : String) (pipeline : Json) :
    EntryEnds env (s.monaAddresses.map Prod.snd) pipeline (makeEntry env s name pipeline) := by
  by_cases ho : IsObject pipeline
  swap
  · have hm : ∃ e, makeEntry env s name pipeline = .error (.exception e) := by
      cases pipeline with
      | object members => exact (ho ⟨members, rfl⟩).elim
      | _ => exact ⟨_, rfl⟩
    obtain ⟨e, hm⟩ := hm
    rw [hm]
    exact .refused (fun h => ho h.1) fun h => ho h.1
  rcases stringValue_eq "library" pipeline with ⟨hlib, hv⟩ | ⟨hlib, -⟩
  · have hm : makeEntry env s name pipeline = .error .unknown := by
      obtain ⟨members, rfl⟩ := ho
      simp only [makeEntry, hv, bind, Except.bind]
    rw [hm]
    exact .escaped ⟨ho, Or.inl hlib⟩
  rcases stringValue_eq "type" pipeline with ⟨htype, hv⟩ | ⟨htype, -⟩
  · have hm : makeEntry env s name pipeline = .error .unknown := by
      obtain ⟨members, rfl⟩ := ho
      have hl := ((stringValue_eq "library" (.object members)).resolve_left fun h => hlib h.1).2
      simp only [makeEntry, hl, hv, bind, Except.bind]
    rw [hm]
    exact .escaped ⟨ho, Or.inr (Or.inl htype)⟩
  rw [makeEntry_typed env s name ho hlib htype]
  -- a well-typed entry escapes only through its factory
  have hescapes : EscapesEntry env pipeline ↔ entryString "type" pipeline ≠ "" ∧
      Loads env pipeline ∧ factory env pipeline = .unknownException :=
    ⟨fun h => (h.2.resolve_left hlib).resolve_left htype, fun h => ⟨ho, Or.inr (Or.inr h)⟩⟩
  split
  · next h0 => exact .refused (fun h => h.2.2.2.1 h0) fun h => (hescapes.mp h).1 h0
  · next h0 =>
    by_cases hloads : Loads env pipeline
    · rw [makeBackend_loaded env s _ _ hloads]
      change EntryEnds env _ pipeline (ofMade env _ _ (factory env pipeline))
      cases hf : factory env pipeline with
      | backend b =>
        refine .created ⟨ho, hlib, htype, h0, hloads, b, hf⟩ (fun h => ?_) hf
        cases hf.symm.trans (hescapes.mp h).2.2
      | unknownException => exact .escaped (hescapes.mpr ⟨h0, hloads, hf⟩)
      | _ =>
        refine .refused (fun h => ?_) fun h => ?_
        · obtain ⟨b, hb⟩ := h.2.2.2.2.2
          cases hf.symm.trans hb
        · cases hf.symm.trans (hescapes.mp h).2.2
    · obtain ⟨e, hm⟩ := makeBackend_unloaded env s (entryString "type" pipeline)
        (entryConfig pipeline) hloads
      rw [hm]
      exact .refused (fun h => hloads h.2.2.2.2.1) fun h => hloads (hescapes.mp h).2.1

/-- The loop throws past the checks exactly where an entry does. -/
theorem createPipelines_unknown_iff (env : Environment β) (s : Provider β)
    (items : List (String × Json)) :
    createPipelines env s items = .error .unknown ↔ Escapes env items := by
  induction items generalizing s with
  | nil => exact iff_of_false (fun h => by cases h) id
  | cons entry items ih =>
    obtain ⟨name, pipeline⟩ := entry
    rw [createPipelines_cons]
    have hends := makeEntry_ends env s name pipeline
    generalize makeEntry env s name pipeline = made at hends
    cases hends with
    | created hc hn _ => exact (ih _).trans ((or_iff_right hn).trans (and_iff_right hc)).symm
    | escaped he => exact iff_of_true rfl (Or.inl he)
    | refused hc hn =>
      refine iff_of_false (fun h => by cases h) ?_
      rintro (h | h)
      · exact hn h
      · exact hc h.1

/-- The pipelines that the loop leaves, when it comes to its end. -/
theorem createPipelines_ok (hnodup : (items.map Prod.fst).Nodup)
    (h : createPipelines env s items = .ok t) :
    (∀ name, name ∉ items.map Prod.fst → t.pipelines.lookup name = s.pipelines.lookup name) ∧
      ∀ entry ∈ items, ∃ st, t.pipelines.lookup entry.1 = some st ∧
        MadeFrom env (s.monaAddresses.map Prod.snd) entry.2 st := by
  induction items generalizing s with
  | nil =>
    cases h
    exact ⟨fun _ _ => rfl, fun entry he => by cases he⟩
  | cons entry items ih =>
    obtain ⟨name, pipeline⟩ := entry
    obtain ⟨hname, hnodup⟩ := List.nodup_cons.mp hnodup
    rw [createPipelines_cons] at h
    have hends := makeEntry_ends env s name pipeline
    generalize makeEntry env s name pipeline = made at hends h
    cases hends with
    | escaped he => cases h
    | refused hc hn => cases h
    | @created b hc hn hf =>
      obtain ⟨hkeep, hmade⟩ := ih hnodup h
      constructor
      · intro other ho
        obtain ⟨hne, hrest⟩ := not_or.mp (mt List.mem_cons.mpr ho)
        exact (hkeep other hrest).trans (Finmap.lookup_insert_of_ne _ hne)
      · intro entry he
        rcases List.mem_cons.mp he with rfl | he
        · exact ⟨_, (hkeep name hname).trans (Finmap.lookup_insert _),
            ⟨hc.2.2.2.2.1, ⟨b, hf, rfl⟩, rfl, rfl⟩⟩
        · exact hmade entry he

end Loop

theorem entries_nodup {env : Environment β} (hmap : ObjectsAreMaps env) (config : String) :
    ((entries env config).map Prod.fst).Nodup := by
  unfold entries
  split
  · exact List.nodup_nil
  · split
    · exact List.nodup_nil
    · next json hp =>
      split
      · next pipelines hf => exact hmap config json "pipelines" pipelines hp hf
      · exact List.nodup_nil

/-- The loop, or a refusal before it. -/
theorem processConfig_cases (env : Environment β) (s : Provider β) (config : String) :
    processConfig env s config = createPipelines env s (entries env config) ∨
      entries env config = [] ∧ ∃ e, processConfig env s config = .error (.exception e) := by
  unfold processConfig entries
  split
  · exact Or.inl rfl
  · cases env.parse config with
    | error what => exact Or.inr ⟨rfl, _, rfl⟩
    | ok json =>
      cases hf : Json.find "pipelines" json with
      | none =>
        simp only [hf]
        exact Or.inl rfl
      | some pipelines =>
        simp only [hf]
        cases pipelines with
        | object members => exact Or.inl rfl
        | _ => exact Or.inr ⟨rfl, _, rfl⟩

/-- For every configuration, whatever the libraries do with it. -/
theorem configured_or_refused_iff (env : Environment β) (hmap : ObjectsAreMaps env)
    {s : Provider β} (hs : s.pipelines = ∅) (config : String) :
    ConfiguredOrRefused env s config ↔ ¬ Escapes env (entries env config) := by
  unfold ConfiguredOrRefused
  rcases processConfig_cases env s config with hp | ⟨hnil, e, hp⟩
  · rw [hp, ← createPipelines_unknown_iff env s]
    cases hc : createPipelines env s (entries env config) with
    | error thrown =>
      cases thrown with
      | exception e => exact iff_of_true trivial fun h => by cases h
      | unknown => exact iff_of_false id fun h => h rfl
    | ok t =>
      obtain ⟨hkeep, hmade⟩ := createPipelines_ok (entries_nodup hmap config) hc
      refine iff_of_true ⟨fun name => ?_, hmade⟩ fun h => by cases h
      rw [Finmap.mem_iff]
      constructor
      · rintro ⟨st, hl⟩
        by_contra hn
        rw [hkeep name hn, hs] at hl
        cases hl
      · intro hn
        obtain ⟨entry, he, rfl⟩ := List.mem_map.mp hn
        obtain ⟨st, hl, -⟩ := hmade entry he
        exact ⟨st, hl⟩
  · rw [hp, hnil]
    exact iff_of_true trivial id

/-- A parser that knows one text. -/
def parsing (json : Json) : Environment Unit :=
  { ProviderRuns.acceptingEnvironment with
    parse := fun text => if text = "config" then .ok json else .error "syntax error" }

/-- One pipeline that is described by an object. -/
def oneEntry (members : List (String × Json)) : Json :=
  .object [("pipelines", .object [("p", .object members)])]

theorem parsing_oneEntry (members : List (String × Json)) :
    ObjectsAreMaps (parsing (oneEntry members)) := by
  intro text json key found hp hf
  have hjson : json = oneEntry members := by
    unfold parsing at hp
    dsimp only at hp
    split at hp
    · exact (Except.ok.inj hp).symm
    · cases hp
  rw [hjson] at hf
  by_cases hkey : "pipelines" = key
  · simp only [oneEntry, Json.find, hkey, List.find?_cons, decide_true, Option.map_some,
      Option.some.injEq, Json.object.injEq] at hf
    rw [← hf]
    exact List.nodup_singleton "p"
  · simp [oneEntry, Json.find, hkey] at hf

theorem configured_with_type :
    ConfiguredOrRefused (parsing (oneEntry [("type", .string "dummy")]))
      (ProviderHandlers.initial "" 0 []) "config" := by
  refine (configured_or_refused_iff _ (parsing_oneEntry _) rfl "config").mpr ?_
  change ¬ Escapes _ [("p", .object [("type", .string "dummy")])]
  rintro (⟨-, ⟨value, hv, -⟩ | ⟨value, hv, hs⟩ | ⟨-, -, hf⟩⟩ | ⟨-, h⟩)
  · simp [Json.find] at hv
  · simp only [Json.find, List.find?_cons, decide_true, Option.map_some, Option.some.injEq] at hv
    exact hs "dummy" hv.symm
  · cases hf
  · exact h

/-- A type that is a number throws what is no `colza::Exception`. -/
theorem type_error_escapes :
    ¬ ∀ (env : Environment Unit) (s : Provider Unit) (config : String),
      ObjectsAreMaps env → s.pipelines = ∅ → ConfiguredOrRefused env s config := by
  intro h
  exact h (parsing (oneEntry [("type", .number "5")])) (ProviderHandlers.initial "" 0 []) "config"
    (parsing_oneEntry _) rfl

end ProviderConfigs
