import Reckon.Check.Report
import Reckon.Settings.Document

/-!
# Settings

What a user can set: the dialect, the checks with their rules, and contracts that add to or replace
those of a catalog.  Every setting has a default.
-/

namespace Reckon

/-- Rules by which names are ignored. -/
structure ExemptionSpec where
  heads : List String := []
  tails : List String := []
  patterns : List String := []
  /-- Pairs of a pattern and a group. -/
  captures : List (String × String) := []

namespace ExemptionSpec

/-- Reads the patterns; the rules keep their order. -/
def exemptions (s : ExemptionSpec) : Except Regex.ReadError (List Exemption) := do
  let patterns ← s.patterns.mapM fun p => return Exemption.pattern (← Regex.read p)
  let captures ← s.captures.mapM fun p => return Exemption.capture (← Regex.read p.1) p.2
  return s.heads.map .startsWith ++ s.tails.map .endsWith ++ patterns ++ captures

end ExemptionSpec

/-- Contracts by sort, each list in the order of the names. -/
structure ContractSpec where
  custom : List (String × Nat) := []
  fixed : List (String × Nat) := []
  least : List (String × Nat) := []
  bounded : List (String × (Nat × Nat)) := []

namespace ContractSpec

def names (s : ContractSpec) : List String :=
  s.custom.map (·.1) ++ s.fixed.map (·.1) ++ s.least.map (·.1) ++ s.bounded.map (·.1)

/-- Replaces what the contracts say about the names of the specification. -/
def apply (s : ContractSpec) (c : Contracts) : Contracts :=
  let c := s.names.foldl Contracts.forget c
  let c := s.custom.foldl (fun c p => c.setCustom p.1 p.2) c
  let c := s.fixed.foldl (fun c p => c.setFixed p.1 p.2) c
  let c := s.least.foldl (fun c p => c.setLeast p.1 p.2) c
  s.bounded.foldl (fun c p => c.setBounds p.1 p.2.1 p.2.2) c

end ContractSpec

structure Settings where
  dialect : Dialect.Spec := .standard
  checks : List Check := Check.all
  knownVariables : List String := []
  ignore : ExemptionSpec := {}
  ignoreFunctions : ExemptionSpec := {}
  contracts : ContractSpec := {}
  lenient : Bool := false

namespace Settings

/-- The policy for variables. -/
def variablePolicy (s : Settings) : Except Regex.ReadError NamePolicy := do
  return ⟨s.knownVariables, ← s.ignore.exemptions⟩

/-- The policy for functions; which of them are known is for the catalog to say. -/
def functionPolicy (s : Settings) : Except Regex.ReadError NamePolicy := do
  return ⟨[], ← s.ignoreFunctions.exemptions⟩

end Settings

/-! ### Reading -/

namespace Document

def readOperator : Reader Operator := fun d => do
  let fields ← readFields ["name", "priority", "left_associative"] d
  return ⟨← required fields "name" readText, ← required fields "priority" readPriority,
    ← optional fields "left_associative" readFlag true⟩

def readUnary : Reader UnaryOperator := fun d => do
  let fields ← readFields ["name", "priority", "prefix"] d
  let name ← required fields "name" readText
  let priority ← required fields "priority" readPriority
  let before ← optional fields "prefix" readFlag true
  return ⟨name, priority, if before then .before else .after⟩

def readDialect : Reader Dialect.Spec := fun d => do
  let std := Dialect.Spec.standard
  let fields ← readFields
    ["identifier", "literal", "open_paren", "close_paren", "separator", "operators",
      "unary_operators"] d
  return {
    identifier := ← optional fields "identifier" readText std.identifier
    literal := ← optional fields "literal" readText std.literal
    opening := ← optional fields "open_paren" readChar std.opening
    closing := ← optional fields "close_paren" readChar std.closing
    separator := ← optional fields "separator" readText std.separator
    operators := ← optional fields "operators" (readList readOperator) std.operators
    unaries := ← optional fields "unary_operators" (readList readUnary) std.unaries }

/-- A check by its label; a table that holds nothing under the label counts too. -/
def readCheck : Reader Check := fun d => do
  let label ← match d with
    | table [(name, null)] => pure name
    | d => readText d
  match Check.ofLabel? label with
  | some check => return check
  | none => .error (.unknownName label)

def readCapture : Reader (String × String) := fun d => do
  let fields ← readFields ["pattern", "group"] d
  return (← required fields "pattern" readText, ← required fields "group" readText)

def readExemptions : Reader ExemptionSpec := fun d => do
  let fields ← readFields ["prefixes", "postfixes", "patterns", "captures"] d
  return {
    heads := ← optional fields "prefixes" (readList readText) []
    tails := ← optional fields "postfixes" (readList readText) []
    patterns := ← optional fields "patterns" (readList readText) []
    captures := ← optional fields "captures" (readList readCapture) [] }

def readContracts : Reader ContractSpec := fun d => do
  let fields ← readFields ["custom", "fixed", "minimum", "bounded"] d
  return {
    custom := ← optional fields "custom" (readMap readCount) []
    fixed := ← optional fields "fixed" (readMap readCount) []
    least := ← optional fields "minimum" (readMap readCount) []
    bounded := ← optional fields "bounded" (readMap (readPair readCount)) [] }

/-- Adds the settings of the section on validation. -/
def readValidation (s : Settings) : Reader Settings := fun d => do
  let fields ← readFields
    ["checks", "variables", "ignore", "ignore_functions", "arity", "allow_supertype"] d
  return { s with
    checks := ← optional fields "checks" (readList readCheck) s.checks
    knownVariables := ← optional fields "variables" (readList readText) s.knownVariables
    ignore := ← optional fields "ignore" readExemptions s.ignore
    ignoreFunctions := ← optional fields "ignore_functions" readExemptions s.ignoreFunctions
    contracts := ← optional fields "arity" readContracts s.contracts
    lenient := ← optional fields "allow_supertype" readFlag s.lenient }

def readSettings : Reader Settings := fun d => do
  let fields ← readFields ["syntax", "validation"] d
  let dialect ← optional fields "syntax" readDialect Dialect.Spec.standard
  let s : Settings := { dialect := dialect }
  optional fields "validation" (readValidation s) s

end Document

end Reckon
