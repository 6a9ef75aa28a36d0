import Reckon.OrderedMap
import Reckon.Settings.Document

/-!
# Tables under construction

A TOML text defines its tables piece by piece.  Each table remembers how it came to be, because a
header may not define a table twice, and a dotted key may only extend a table that no header has
defined.
-/

namespace Reckon.Toml

inductive Error where
  | unexpected
  | unclosed
  | badEscape
  | badNumber
  | badKey
  | duplicate (key : String)
  | notATable (key : String)
deriving DecidableEq

/-- How a table came to be: by its own header, by the header of a table inside it, by a dotted
key. -/
inductive Form where
  | header
  | implied
  | dotted
deriving DecidableEq

inductive Node where
  | value (d : Document)
  | table (form : Form) (entries : List (String × Node))
  /-- The tables of an array, the latest first. -/
  | tables (rows : List (List (String × Node)))

abbrev Entries := List (String × Node)

/-! ### Conversion -/

mutual

def Node.document : Node → Document
  | .value d => d
  | .table _ entries => .table (entriesDocument entries)
  | .tables rows => .list (rowsDocument rows).reverse

def entryDocument : String × Node → String × Document
  | (key, node) => (key, node.document)

def entriesDocument : List (String × Node) → List (String × Document)
  | [] => []
  | e :: es => entryDocument e :: entriesDocument es

def rowsDocument : List (List (String × Node)) → List Document
  | [] => []
  | r :: rs => .table (entriesDocument r) :: rowsDocument rs

end

/-! ### Changes -/

/-- Replaces the node of a key where it stands, or puts it at the end. -/
def put (key : String) (node : Node) (es : Entries) : Entries := OrderedMap.insertInto key node es

/-- Changes the table that a path leads to, through the latest table of each array.  Tables on the
way that are missing are made with the given form. -/
def modify (form : Form) (change : Entries → Except Error Entries) :
    List String → Entries → Except Error Entries
  | [], es => change es
  | key :: path, es =>
    match es.lookup key with
    | none => do return put key (.table form (← modify form change path [])) es
    | some (.table f inner) =>
      if form = .dotted ∧ f = .header then .error (.duplicate key)
      else do return put key (.table f (← modify form change path inner)) es
    | some (.tables (row :: rows)) =>
      if form = .dotted then .error (.duplicate key)
      else do return put key (.tables ((← modify form change path row) :: rows)) es
    | some (.tables []) => .error (.notATable key)
    | some (.value _) => .error (.notATable key)

/-- Defines a table by its header. -/
def defineTable (key : String) (es : Entries) : Except Error Entries :=
  match es.lookup key with
  | none => .ok (put key (.table .header []) es)
  | some (.table .implied inner) => .ok (put key (.table .header inner) es)
  | some _ => .error (.duplicate key)

/-- Adds a table to an array of tables. -/
def defineRow (key : String) (es : Entries) : Except Error Entries :=
  match es.lookup key with
  | none => .ok (put key (.tables [[]]) es)
  | some (.tables rows) => .ok (put key (.tables ([] :: rows)) es)
  | some _ => .error (.duplicate key)

/-- Gives a value to a key that has none. -/
def assign (key : String) (d : Document) (es : Entries) : Except Error Entries :=
  match es.lookup key with
  | none => .ok (put key (.value d) es)
  | some _ => .error (.duplicate key)

/-- A key with dots, as its parts: the path to a table and the last part. -/
structure Key where
  path : List String
  last : String

/-- Gives a value to a key that may have dots. -/
def assignDotted (key : Key) (d : Document) (es : Entries) : Except Error Entries :=
  modify .dotted (assign key.last d) key.path es

end Reckon.Toml
