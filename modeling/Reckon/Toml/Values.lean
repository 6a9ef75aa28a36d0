import Reckon.Toml.Scalars

/-!
# TOML values

Keys, scalars, arrays and inline tables.
-/

namespace Reckon.Toml

/-! ### Keys -/

def isBareKey (c : Char) : Bool := (c.isAlphanum && c.toNat < 128) || c == '_' || c == '-'

/-- One part of a key. -/
def readKeyPart : Reader String
  | '"' :: cs => readBasic [] cs
  | '\'' :: cs => readLiteral cs
  | cs =>
    let word := cs.takeWhile isBareKey
    if word.isEmpty then .error .badKey else .ok (String.ofList word, cs.drop word.length)

/-- The parts of a key, the latest first; the fuel bounds their number. -/
def readKeyParts (parts : List String) : Nat → Reader Key
  | 0, _ => .error .badKey
  | fuel + 1, cs => do
    let (part, rest) ← readKeyPart (skipSpaces cs)
    match skipSpaces rest with
    | '.' :: rest => readKeyParts (part :: parts) fuel rest
    | rest => return (⟨parts.reverse, part⟩, rest)

def readKey (cs : List Char) : Except Error (Key × List Char) :=
  readKeyParts [] (cs.length + 1) cs

/-! ### Values -/

mutual

/-- A value; the fuel bounds the number of values in it. -/
def readValue : Nat → Reader Document
  | 0, _ => .error .unclosed
  | fuel + 1, cs =>
    match cs with
    | '"' :: '"' :: '"' :: cs => do
      let (s, rest) ← readLongBasic false [] (dropLineEnd cs)
      return (.text s, rest)
    | '"' :: cs => do
      let (s, rest) ← readBasic [] cs
      return (.text s, rest)
    | '\'' :: '\'' :: '\'' :: cs => do
      let (s, rest) ← readLongLiteral [] (dropLineEnd cs)
      return (.text s, rest)
    | '\'' :: cs => do
      let (s, rest) ← readLiteral cs
      return (.text s, rest)
    | '[' :: cs => readItems fuel [] cs
    | '\x7b' :: cs => readEntries fuel [] cs
    | cs => readPlain cs

/-- The items of an array, behind its bracket or a comma. -/
def readItems : Nat → List Document → Reader Document
  | 0, _, _ => .error .unclosed
  | fuel + 1, items, cs => do
    match ← skipLines cs.length cs with
    | ']' :: rest => return (.list items.reverse, rest)
    | cs =>
      let (item, rest) ← readValue fuel cs
      match ← skipLines rest.length rest with
      | ',' :: rest => readItems fuel (item :: items) rest
      | ']' :: rest => return (.list (item :: items).reverse, rest)
      | _ => .error .unclosed

/-- The entries of an inline table, behind its brace or a comma. -/
def readEntries : Nat → Entries → Reader Document
  | 0, _, _ => .error .unclosed
  | fuel + 1, entries, cs => do
    match ← skipLines cs.length cs with
    | '\x7d' :: rest => return (.table (entriesDocument entries), rest)
    | cs =>
      let (key, rest) ← readKey cs
      match skipSpaces rest with
      | '=' :: rest =>
        let (value, rest) ← readValue fuel (skipSpaces rest)
        let entries ← assignDotted key value entries
        match ← skipLines rest.length rest with
        | ',' :: rest => readEntries fuel entries rest
        | '\x7d' :: rest => return (.table (entriesDocument entries), rest)
        | _ => .error .unclosed
      | _ => .error .unexpected

end

end Reckon.Toml
