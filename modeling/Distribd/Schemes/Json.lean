import Mathlib.Data.Int.Notation
import Mathlib.Data.List.Basic

/-! JSON documents and how derived deserializers read them. The parser keeps the entries of an object
    as they are written, repeated keys included. A derived struct reads an object entry by entry: a
    key of its own twice is an error, other keys are ignored, and a field that is missing is an error
    unless it is optional. It reads an array as well, with one element for each field. -/

namespace Distribd.Schemes

/-- A document. A number is read as `u64` if it is one, else as `i64`, else as a float. -/
inductive Json where
  | null
  | bool (value : Bool)
  | unsigned (value : ℕ)
  | negative (value : ℤ)
  | float (text : String)
  | string (value : String)
  | array (elements : List Json)
  | object (entries : List (String × Json))

namespace Json

variable {α : Type}

/-- `String`. -/
def asString : Json → Option String
  | string s => some s
  | _ => none

/-- `u64`. -/
def asU64 : Json → Option ℕ
  | unsigned n => some n
  | _ => none

/-- `Option<T>`. -/
def asOption (read : Json → Option α) : Json → Option (Option α)
  | null => some none
  | json => (read json).map some

/-- `Vec<T>`. -/
def asVec (read : Json → Option α) : Json → Option (List α)
  | array elements => elements.mapM read
  | _ => none

/-- The value of a field, if there is one; `none`: there are two. -/
def field (entries : List (String × Json)) (name : String) : Option (Option Json) :=
  match entries.filter (·.1 = name) with
  | [] => some none
  | [(_, json)] => some (some json)
  | _ => none

/-- A field that must be there. -/
def required (read : Json → Option α) (entries : List (String × Json)) (name : String) :
    Option α :=
  match field entries name with
  | some (some json) => read json
  | _ => none

/-- A field of type `Option<T>`. -/
def optional (read : Json → Option α) (entries : List (String × Json)) (name : String) :
    Option (Option α) :=
  match field entries name with
  | some (some json) => asOption read json
  | some none => some none
  | none => none

end Json

end Distribd.Schemes
