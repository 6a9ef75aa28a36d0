import Reckon.Text

/-!
# Documents

The data that settings are read from, whatever notation it was written in, and readers for its
parts.  A reader says what it wanted when it gets something else.
-/

namespace Reckon

inductive Document where
  | null
  | flag (value : Bool)
  | integer (value : Int)
  /-- A number with a fraction or an exponent, as it was written. -/
  | real (written : String)
  /-- A date or a time, as it was written. -/
  | moment (written : String)
  | text (value : String)
  | list (items : List Document)
  | table (entries : List (String × Document))

namespace Document

inductive ReadError where
  | wrongType (wanted : String)
  | outOfRange (wanted : String)
  | missingField (name : String)
  | tooManyItems (most : Nat)
  | unknownName (name : String)
deriving DecidableEq

def ReadError.message : ReadError → String
  | wrongType wanted => s!"expected {wanted}"
  | outOfRange wanted => s!"value out of range for {wanted}"
  | missingField name => s!"missing field `{name}`"
  | tooManyItems most => s!"more than {most} items"
  | unknownName name => s!"unknown name `{name}`"

abbrev Reader (α : Type) := Document → Except ReadError α

/-! ### Plain values -/

def readText : Reader String
  | text value => .ok value
  | _ => .error (.wrongType "a string")

/-- A text of exactly one character. -/
def readChar : Reader Char
  | text value =>
    match value.toList with
    | [c] => .ok c
    | _ => .error (.wrongType "a character")
  | _ => .error (.wrongType "a character")

def readFlag : Reader Bool
  | flag value => .ok value
  | _ => .error (.wrongType "a boolean")

/-- A whole number from zero up to the largest of 64 bits. -/
def readCount : Reader Nat
  | integer value =>
    if 0 ≤ value ∧ value < UInt64.size then .ok value.toNat else .error (.outOfRange "a count")
  | _ => .error (.wrongType "a count")

/-- A signed whole number of 32 bits. -/
def readPriority : Reader Int32
  | integer value =>
    if Int32.minValue.toInt ≤ value ∧ value ≤ Int32.maxValue.toInt then .ok (Int32.ofInt value)
    else .error (.outOfRange "a priority")
  | _ => .error (.wrongType "a priority")

/-! ### Composite values -/

def readList {α : Type} (item : Reader α) : Reader (List α)
  | list items => items.mapM item
  | _ => .error (.wrongType "a list")

/-- Two items. -/
def readPair {α : Type} (item : Reader α) : Reader (α × α)
  | list [a, b] => return (← item a, ← item b)
  | _ => .error (.wrongType "a list of two items")

/-- A table with any names, in the order of the names. -/
def readMap {α : Type} (item : Reader α) : Reader (List (String × α))
  | table entries => do
    let pairs ← entries.mapM fun e => return (e.1, ← item e.2)
    return pairs.mergeSort fun p q => decide (p.1 ≤ q.1)
  | _ => .error (.wrongType "a table")

/-- Fields by name.  A table gives them under their names and may hold others; a list gives them in
order. -/
def readFields (names : List String) : Reader (List (String × Document))
  | table entries => .ok entries
  | list items =>
    if items.length ≤ names.length then .ok (names.zip items)
    else .error (.tooManyItems names.length)
  | _ => .error (.wrongType "a table")

/-- A field that has to be there. -/
def required {α : Type} (fields : List (String × Document)) (name : String) (item : Reader α) :
    Except ReadError α :=
  match fields.lookup name with
  | some d => item d
  | none => .error (.missingField name)

/-- A field with a default. -/
def optional {α : Type} (fields : List (String × Document)) (name : String) (item : Reader α)
    (default : α) : Except ReadError α :=
  match fields.lookup name with
  | some d => item d
  | none => .ok default

end Document

end Reckon
