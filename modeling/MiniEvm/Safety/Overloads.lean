import MiniEvm.Abi.Abi

namespace MiniEvm.Abi

open Framework

variable {Arg : Type}

/-- The functions of an interface with their names, in order. -/
def functions (fields : List (Field Arg)) : List (String × Method Arg) :=
  (fields.filter Field.isFunction).map fun f => (f.name, f.method)

def events (fields : List (Field Arg)) : List (String × Event Arg) :=
  (fields.filter Field.isEvent).map fun f => (f.name, f.event)

/-- The loop enters functions and events independently of each other. -/
theorem foldl_field (fields : List (Field Arg)) (p : Parsing Arg) :
    (fields.foldl Parsing.field p).abi.methods =
      registerAll movedKey p.abi.methods p.functionCnt (functions fields) ∧
    (fields.foldl Parsing.field p).abi.events =
      registerAll movedKey p.abi.events p.eventCnt (events fields) := by
  induction fields generalizing p with
  | nil => exact ⟨rfl, rfl⟩
  | cons f fields ih =>
    obtain ⟨hm, he⟩ := ih (p.field f)
    rw [List.foldl_cons, hm, he]
    by_cases hconstructor : f.type = "constructor"
    · have hf : f.isFunction = false := by simp [Field.isFunction, hconstructor]
      have hv : f.isEvent = false := by simp [Field.isEvent, hconstructor]
      simp [Parsing.field, hconstructor, functions, events, hf, hv]
    by_cases hf : f.isFunction = true
    · have hv : f.isEvent = false := by
        rw [Field.isFunction, Bool.or_eq_true, decide_eq_true_eq, decide_eq_true_eq] at hf
        rcases hf with hf | hf <;> simp [Field.isEvent, hf]
      simp [Parsing.field, hconstructor, functions, events, hf, hv, registerAll]
    · by_cases hv : f.isEvent = true
      · simp [Parsing.field, hconstructor, functions, events, hf, hv, registerAll]
      · simp [Parsing.field, hconstructor, functions, events, hf, hv]

theorem unmarshalJSON_methods (fields : List (Field Arg)) :
    (unmarshalJSON fields).methods = registerAll movedKey ∅ 0 (functions fields) :=
  (foldl_field fields _).1

theorem unmarshalJSON_events (fields : List (Field Arg)) :
    (unmarshalJSON fields).events = registerAll movedKey ∅ 0 (events fields) :=
  (foldl_field fields _).2

/-- The parsed interface has every function and every event, each under a key of its own. -/
structure LosesNothing (fields : List (Field Arg)) : Prop where
  methods : ∀ f ∈ fields, f.isFunction = true →
    ∃ key, (unmarshalJSON fields).methods.lookup key = some f.method
  events : ∀ f ∈ fields, f.isEvent = true →
    ∃ key, (unmarshalJSON fields).events.lookup key = some f.event
  methodKeys : (unmarshalJSON fields).methods.keys.length = (fields.filter Field.isFunction).length
  eventKeys : (unmarshalJSON fields).events.keys.length = (fields.filter Field.isEvent).length
  fuzzed : ∀ f ∈ fields, f.isFunction = true → f.constant = false →
    f.method ∈ fuzzedMethods (unmarshalJSON fields)

/-- The names of the functions of an interface, in order. -/
def functionNames (fields : List (Field Arg)) : List String :=
  (fields.filter Field.isFunction).map Field.name

def eventNames (fields : List (Field Arg)) : List String :=
  (fields.filter Field.isEvent).map Field.name

/-- Parsing loses nothing exactly if no overload is moved to a key that is in use. -/
theorem unmarshalJSON_losesNothing_iff (fields : List (Field Arg)) :
    LosesNothing fields ↔
      Unclobbered movedKey (functionNames fields) ∧ Unclobbered movedKey (eventNames fields) := by
  have hfn : (functions fields).map Prod.fst = functionNames fields := by
    simp [functions, functionNames]
  have hen : (events fields).map Prod.fst = eventNames fields := by
    simp [events, eventNames]
  have hfl : (functions fields).length = (fields.filter Field.isFunction).length := by
    simp [functions]
  have hel : (events fields).length = (fields.filter Field.isEvent).length := by
    simp [events]
  have hmkeys := (@registerAll_length _ _ _ movedKey (functions fields)).2
  have hekeys := (@registerAll_length _ _ _ movedKey (events fields)).2
  rw [← unmarshalJSON_methods, hfn, hfl] at hmkeys
  rw [← unmarshalJSON_events, hen, hel] at hekeys
  constructor
  · intro h
    exact ⟨hmkeys.mp h.methodKeys, hekeys.mp h.eventKeys⟩
  · rintro ⟨hm, he⟩
    have hmethods : ∀ f ∈ fields, f.isFunction = true →
        ∃ key, (unmarshalJSON fields).methods.lookup key = some f.method := by
      intro f hf hfun
      rw [unmarshalJSON_methods]
      exact registerAll_keeps (hfn ▸ hm) (f.name, f.method)
        (List.mem_map.mpr ⟨f, List.mem_filter.mpr ⟨hf, hfun⟩, rfl⟩)
    refine ⟨hmethods, ?_, hmkeys.mpr hm, hekeys.mpr he, ?_⟩
    · intro f hf hevent
      rw [unmarshalJSON_events]
      exact registerAll_keeps (hen ▸ he) (f.name, f.event)
        (List.mem_map.mpr ⟨f, List.mem_filter.mpr ⟨hf, hevent⟩, rfl⟩)
    · intro f hf hfun hconst
      obtain ⟨key, hkey⟩ := hmethods f hf hfun
      refine List.mem_filter.mpr ⟨List.mem_map.mpr ⟨⟨key, f.method⟩, ?_, rfl⟩, ?_⟩
      · exact AList.mem_lookup_iff.mp hkey
      · simp [Field.method, hconst]

/-- Two overloads of `f` behind a function `f2`: the second `f` moves the first one there. -/
def overloaded : List (Field Unit) :=
  [⟨"function", "f2", false, false, [], []⟩, ⟨"function", "f", false, false, [], []⟩,
    ⟨"function", "f", false, false, [()], []⟩]

theorem overloaded_loses_f2 : ¬ LosesNothing overloaded ∧
    ∀ key, (unmarshalJSON overloaded).methods.lookup key ≠ some ⟨"f2", false, [], []⟩ := by
  have hvalues : (⟨"f2", false, [], []⟩ : Method Unit) ∉
      (unmarshalJSON overloaded).methods.entries.map fun e => e.2 := by
    decide +kernel
  have hlost : ∀ key, (unmarshalJSON overloaded).methods.lookup key ≠ some ⟨"f2", false, [], []⟩ := by
    intro key hkey
    exact hvalues (List.mem_map.mpr ⟨⟨key, _⟩, AList.mem_lookup_iff.mp hkey, rfl⟩)
  refine ⟨fun h => ?_, hlost⟩
  obtain ⟨key, hkey⟩ := h.methods ⟨"function", "f2", false, false, [], []⟩ (by simp [overloaded]) rfl
  exact hlost key hkey

end MiniEvm.Abi
