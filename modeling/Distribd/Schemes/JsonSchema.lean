import Mathlib.Data.Rat.Defs
import Distribd.Schemes.Json

/-! JSON schemas, as far as keywords go that constrain one value at a time. A keyword says something
    about values of one type and accepts all others: `required` and `property` are about objects,
    `items` about arrays, `minimum` and `maximum` about numbers. A schema is evaluated on the value
    that a parser makes of a text, and there an object has one entry for each key: the last one that
    is written (`Json.get`). -/

namespace Distribd.Schemes

/-! ### Objects as maps -/

/-- The entry of a key in the parsed value. -/
def Json.get (entries : List (String × Json)) (name : String) : Option Json :=
  ((entries.filter (·.1 = name)).getLast?).map Prod.snd

/-- The key is written once at most. -/
def Json.Once (entries : List (String × Json)) (name : String) : Prop :=
  (entries.filter (·.1 = name)).length ≤ 1

instance (entries : List (String × Json)) (name : String) : Decidable (Json.Once entries name) :=
  inferInstanceAs (Decidable (_ ≤ _))

/-- A derived struct reads the same entry, unless the key is written twice. -/
theorem Json.field_eq (entries : List (String × Json)) (name : String) :
    Json.field entries name =
      if Json.Once entries name then some (Json.get entries name) else none := by
  by_cases honce : Json.Once entries name
  all_goals
    simp only [honce, if_true, if_false]
    unfold Json.Once at honce
    unfold Json.field
  · unfold Json.get
    generalize entries.filter (·.1 = name) = found at honce
    rcases found with _ | ⟨⟨key, json⟩, _ | ⟨second, rest⟩⟩
    · rfl
    · rfl
    · simp at honce
  · generalize entries.filter (·.1 = name) = found at honce
    rcases found with _ | ⟨first, _ | ⟨second, rest⟩⟩
    · simp at honce
    · simp at honce
    · rfl

/-- A required field is the entry of its key, written once. -/
theorem Json.required_eq {α : Type} (read : Json → Option α) (entries : List (String × Json))
    (name : String) : Json.required read entries name =
      if Json.Once entries name then (Json.get entries name).bind read else none := by
  rw [Json.required, Json.field_eq]
  by_cases honce : Json.Once entries name
  · rw [if_pos honce, if_pos honce]
    cases Json.get entries name <;> rfl
  · rw [if_neg honce, if_neg honce]

/-- An optional field is read if it is there. -/
theorem Json.optional_isSome {α : Type} {read : Json → Option α} {entries : List (String × Json)}
    {name : String} : (Json.optional read entries name).isSome ↔ Json.Once entries name ∧
      ∀ json ∈ Json.get entries name, (json.asOption read).isSome := by
  rw [Json.optional, Json.field_eq]
  by_cases honce : Json.Once entries name
  · rw [if_pos honce]
    cases Json.get entries name <;> simp [honce]
  · simp [honce]

/-- A list is read element by element. -/
theorem Json.asVec_array {α : Type} {read : Json → Option α} {elements : List Json}
    {values : List α} : (Json.array elements).asVec read = some values ↔
      List.Forall₂ (fun json value => read json = some value) elements values := by
  change elements.mapM read = some values ↔ _
  induction elements generalizing values with
  | nil =>
    cases values with
    | nil => simp
    | cons value values => exact ⟨nofun, nofun⟩
  | cons json elements ih =>
    rw [List.mapM_cons]
    constructor
    · intro h
      obtain ⟨value, hvalue, h⟩ := Option.bind_eq_some_iff.mp h
      obtain ⟨rest, hrest, h⟩ := Option.bind_eq_some_iff.mp h
      obtain rfl := Option.some.inj h
      exact .cons hvalue (ih.mp hrest)
    · intro h
      cases h with
      | cons hvalue hrest =>
        rw [hvalue, ih.mpr hrest]
        rfl

theorem Json.asVec_isSome {α : Type} {read : Json → Option α} {elements : List Json} :
    ((Json.array elements).asVec read).isSome ↔ ∀ json ∈ elements, (read json).isSome := by
  change (elements.mapM read).isSome ↔ _
  induction elements with
  | nil => simp
  | cons json elements ih =>
    rw [List.mapM_cons, List.forall_mem_cons, ← ih]
    cases read json with
    | none => simp
    | some value => cases elements.mapM read <;> simp

/-! ### Schemas -/

/-- The types of values. -/
inductive JsonType where | string | number | array | object
  deriving DecidableEq

/-- A schema: one keyword, or several together. -/
inductive Schema where
  | any
  | type (type : JsonType)
  | enum (values : List String)
  | minimum (bound : ℕ)
  | maximum (bound : ℕ)
  | required (name : String)
  | property (name : String) (schema : Schema)
  | items (schema : Schema)
  | and (first second : Schema)

/-- The type of a value; `null` and Booleans have none of these. -/
def Json.type : Json → Option JsonType
  | .string _ => some .string
  | .unsigned _ | .negative _ | .float _ => some .number
  | .array _ => some .array
  | .object _ => some .object
  | .null | .bool _ => none

/-- The value of a number; `floatValue` is that of a float as the parser rounds it. -/
def Json.number (floatValue : String → ℚ) : Json → Option ℚ
  | .unsigned n => some n
  | .negative n => some n
  | .float text => some (floatValue text)
  | _ => none

namespace Schema

variable (floatValue : String → ℚ)

/-- A value is valid under a schema. -/
def valid : Schema → Json → Bool
  | any, _ => true
  | type t, json => json.type = some t
  | enum values, json => json.asString.any (· ∈ values)
  | minimum bound, json => (json.number floatValue).all ((bound : ℚ) ≤ ·)
  | maximum bound, json => (json.number floatValue).all (· ≤ (bound : ℚ))
  | required name, .object entries => (Json.get entries name).isSome
  | required _, _ => true
  | property name schema, .object entries => (Json.get entries name).all schema.valid
  | property _ _, _ => true
  | items schema, .array elements => elements.all schema.valid
  | items _, _ => true
  | and first second, json => first.valid json && second.valid json

/-- An object with these properties, some of them required. -/
def object (properties : List (String × Schema)) (names : List String) : Schema :=
  and (type .object) (and (names.foldr (fun name s => and (required name) s) any)
    (properties.foldr (fun p s => and (property p.1 p.2) s) any))

/-- A string. -/
def string : Schema := type .string

/-- One of these strings. -/
def oneOf (values : List String) : Schema := and string (enum values)

/-- A number. -/
def number : Schema := type .number

/-- Just this number. -/
def exactly (n : ℕ) : Schema := and number (and (minimum n) (maximum n))

/-- An array of such values. -/
def array (schema : Schema) : Schema := and (type .array) (items schema)

variable {floatValue}

theorem valid_array {schema : Schema} {json : Json} :
    (array schema).valid floatValue json = true ↔
      ∃ elements, json = .array elements ∧ ∀ e ∈ elements, schema.valid floatValue e = true := by
  cases json <;> simp [array, valid, Json.type]

theorem valid_string {json : Json} :
    string.valid floatValue json = true ↔ ∃ s, json = .string s := by
  cases json <;> simp [string, valid, Json.type]

theorem valid_oneOf {values : List String} {json : Json} :
    (oneOf values).valid floatValue json = true ↔ ∃ s ∈ values, json = .string s := by
  cases json <;> simp [oneOf, string, valid, Json.type, Json.asString]

theorem valid_foldr {α : Type} {schema : α → Schema} {xs : List α} {json : Json} :
    (xs.foldr (fun x s => and (schema x) s) any).valid floatValue json = true ↔
      ∀ x ∈ xs, (schema x).valid floatValue json = true := by
  induction xs with
  | nil => simp [valid]
  | cons x xs ih => simp [valid, ih]

theorem valid_object {properties : List (String × Schema)} {names : List String} {json : Json} :
    (object properties names).valid floatValue json = true ↔ ∃ entries, json = .object entries ∧
      (∀ name ∈ names, (Json.get entries name).isSome) ∧
      ∀ p ∈ properties, ∀ v ∈ Json.get entries p.1, p.2.valid floatValue v = true := by
  rw [object, valid, Bool.and_eq_true, valid, valid, Bool.and_eq_true, valid_foldr, valid_foldr]
  cases json <;> simp [valid, Json.type, Option.all_eq_true]

end Schema

end Distribd.Schemes
