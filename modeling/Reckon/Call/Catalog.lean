import Reckon.Call.Callable
import Reckon.Call.Contracts

/-!
# Catalogs

The functions, operators and unary operators that expressions may use, each sort with names of its
own.  Custom functions are known by name and number of arguments only.
-/

namespace Reckon

structure Catalog (D : Domain) where
  functions : List (Callable D)
  operators : List (Callable D)
  unaries : List (Callable D)
  custom : List (String × Nat)

inductive CatalogError where
  | duplicateName (name : String)
  | noOverload (name : String)
deriving DecidableEq

def CatalogError.message : CatalogError → String
  | duplicateName name => s!"`{name}` is registered more than once"
  | noOverload name => s!"`{name}` declares no syntax"

/-- The sort of thing that a name is looked up as. -/
inductive CallSort where
  | function
  | operator
  | unary
deriving DecidableEq

def CallSort.label : CallSort → String
  | function => "function"
  | operator => "operator"
  | unary => "unary operator"

/-- One entry of a catalog, as it is declared. -/
inductive Declaration (D : Domain) where
  | callable (sort : CallSort) (f : Callable D)
  | custom (name : String) (count : Nat)

namespace Declaration

variable {D : Domain}

def ofSort? (sort : CallSort) : Declaration D → Option (Callable D)
  | callable s f => if s = sort then some f else none
  | custom .. => none

def custom? : Declaration D → Option (String × Nat)
  | callable .. => none
  | custom name count => some (name, count)

end Declaration

namespace Catalog

variable {D : Domain}

/-- Declarations may come in any order; those of one sort keep theirs. -/
def ofDeclarations (ds : List (Declaration D)) : Catalog D where
  functions := ds.filterMap (·.ofSort? .function)
  operators := ds.filterMap (·.ofSort? .operator)
  unaries := ds.filterMap (·.ofSort? .unary)
  custom := ds.filterMap (·.custom?)

/-- The first name of a list that came before in it; `earlier` holds the names before the list. -/
def firstRepeated (earlier : List String) : List String → Option String
  | [] => none
  | name :: names => if name ∈ earlier then some name else firstRepeated (name :: earlier) names

/-- Every callable of a table needs an overload and a name of its own. -/
def checkTable (earlier : List String) : List (Callable D) → Except CatalogError Unit
  | [] => .ok ()
  | c :: cs =>
    if c.overloads.isEmpty then .error (.noOverload c.name)
    else if c.name ∈ earlier then .error (.duplicateName c.name)
    else checkTable (c.name :: earlier) cs

/-- Names and aliases of functions, then custom functions. -/
def declaredNames (c : Catalog D) : List String :=
  c.functions.flatMap Callable.names ++ c.custom.map (·.1)

/-- Accepts a catalog whose names do not clash and whose callables can be called. -/
def build (c : Catalog D) : Except CatalogError (Catalog D) := do
  match firstRepeated [] c.declaredNames with
  | some name => throw (.duplicateName name)
  | none => pure ()
  checkTable [] c.functions
  checkTable [] c.operators
  checkTable [] c.unaries
  return c

/-! ### Look-up -/

def byName? (table : List (Callable D)) (name : String) : Option (Callable D) :=
  table.find? (·.name == name)

/-- A function by name or, failing that, by alias. -/
def function? (c : Catalog D) (name : String) : Option (Callable D) :=
  (byName? c.functions name).or (c.functions.find? (·.aliases.contains name))

def callable? (c : Catalog D) (sort : CallSort) (name : String) : Option (Callable D) :=
  match sort with
  | .function => c.function? name
  | .operator => byName? c.operators name
  | .unary => byName? c.unaries name

/-- The names of functions, then the aliases, then custom functions. -/
def functionNames (c : Catalog D) : List String :=
  c.functions.map (·.name) ++ c.functions.flatMap (·.aliases) ++ c.custom.map (·.1)

/-- A function's contract holds for its name and every alias. -/
def addContracts (contracts : Contracts) (f : Callable D) : Contracts :=
  match f.arity? with
  | none => contracts
  | some arity => f.names.foldl (fun contracts name => contracts.set name arity) contracts

/-- The contracts that the catalog declares. -/
def contracts (c : Catalog D) : Contracts :=
  c.functions.foldl addContracts
    (c.custom.foldl (fun contracts p => contracts.setCustom p.1 p.2) .empty)

end Catalog

end Reckon
