import Reckon.Settings.Basic
import Reckon.Term.Schedule

/-!
# Compiling expressions

A compiler holds all that is fixed across expressions: dialect, catalog, checks.  Compiling keeps
every stage of an expression, also of one that is faulty; only an expression that passes all
selected checks can be typed and evaluated.
-/

namespace Reckon

inductive ConfigFault where
  | clash (c : Dialect.Clash)
  | badIgnorePattern
  | catalog (e : CatalogError)
  | unreadable
  | missingFile (path : String)
  | badVariable (definition : String)
  | nothingCompiled
deriving DecidableEq

def ConfigFault.message : ConfigFault → String
  | clash c => c.message
  | badIgnorePattern => "invalid ignore pattern"
  | catalog e => e.message
  | unreadable => "Failed to parse TOML configuration"
  | missingFile path => s!"Missing configuration file: {path}"
  | badVariable definition =>
    s!"Invalid variable `{definition}`: expected NAME=VALUE with a numeric value"
  | nothingCompiled => "no expression has been compiled"

inductive Failure where
  | io
  /-- The expression `source` is faulty. -/
  | parse (diagnostics : List Diagnostic) (source : String)
  /-- The expression `source` could not be evaluated. -/
  | evaluation (diagnostics : List Diagnostic) (source : String)
  | config (fault : ConfigFault)
deriving DecidableEq

def Failure.message : Failure → String
  | io => "I/O error"
  | parse ds _ => Diagnostic.summary ds
  | evaluation ds _ => Diagnostic.summary ds
  | config fault => s!"Configuration error: {fault.message}"

/-! ### Compilers -/

structure Compiler (D : Domain) where
  dialect : Dialect
  catalog : Catalog D
  checker : Checker
  lenient : Bool

/-- What a compiler is made from. -/
structure Plan (D : Domain) where
  catalog : Catalog D
  dialect : Dialect
  checks : List Check := Check.all
  variablePolicy : NamePolicy := .strict
  functionPolicy : NamePolicy := .strict
  contracts : Option ContractSpec := none
  lenient : Bool := false

namespace Plan

variable {D : Domain}

/-- Applies settings to a plan. -/
def configure (p : Plan D) (s : Settings) : Except Failure (Plan D) := do
  let dialect ← (Dialect.build s.dialect).mapError fun c => .config (.clash c)
  let variablePolicy ← s.variablePolicy.mapError fun _ => .config .badIgnorePattern
  let functionPolicy ← s.functionPolicy.mapError fun _ => .config .badIgnorePattern
  return { p with
    dialect := dialect
    checks := s.checks
    variablePolicy := variablePolicy
    functionPolicy := functionPolicy
    contracts := some s.contracts
    lenient := s.lenient }

/-- The contracts of the catalog, changed as the settings say. -/
def allContracts (p : Plan D) : Contracts :=
  match p.contracts with
  | some spec => spec.apply p.catalog.contracts
  | none => p.catalog.contracts

/-- The compiler.  Functions of the catalog and functions with a contract are known. -/
def build (p : Plan D) : Compiler D :=
  let contracts := p.allContracts
  ⟨p.dialect, p.catalog,
    ⟨Check.ordered p.checks, contracts, p.variablePolicy,
      p.functionPolicy.knowing (p.catalog.functionNames ++ contracts.names)⟩,
    p.lenient⟩

end Plan

/-! ### Compiled expressions -/

structure Compiled (D : Domain) where
  compiler : Compiler D
  source : String
  tokens : List Token
  polish : List Token
  tree : Option Tree
  report : Report

namespace Compiler

variable {D : Domain} (c : Compiler D)

/-- The report on a text without tree. -/
def faultReport (source : String) (fault : Fault) : Report :=
  { c.checker.checkText c.dialect source with fault := some fault }

def compile (source : String) : Compiled D :=
  let tokens := c.dialect.tokens source
  match Polish.ofTokens c.dialect tokens with
  | .error fault => ⟨c, source, tokens, [], none, c.faultReport source fault⟩
  | .ok polish =>
    match Tree.ofPolish polish with
    | .error fault => ⟨c, source, tokens, polish, none, c.faultReport source fault⟩
    | .ok tree =>
      ⟨c, source, tokens, polish, some tree, c.checker.checkTree c.dialect source tree⟩

end Compiler

namespace Compiled

variable {D : Domain} (e : Compiled D)

def isValid : Bool := e.report.passes

/-- The tree of a valid expression. -/
def check : Except Failure Tree :=
  if e.report.passes then
    match e.tree with
    | some tree => .ok tree
    | none => .error (.parse [Diagnostic.plain "expression has no tree"] e.source)
  else .error (.parse e.report.diagnostics e.source)

/-- Resolves the calls of a tree, given the kinds of variables. -/
def bind (tree : Tree) (kindOf : String → Option D.Kind) : Except (List TypeFault) (Typed D) :=
  Typing.bind ⟨e.compiler.catalog, kindOf, e.compiler.lenient⟩
    (Term.ofTree e.compiler.dialect tree)

/-- The kind of the value, given the kinds of variables. -/
def inferKind (kindOf : String → Option D.Kind) : Except Failure D.Kind :=
  match e.check with
  | .error failure => .error failure
  | .ok tree =>
    match e.bind tree kindOf with
    | .error faults => .error (.parse (faults.map (·.diagnostic)) e.source)
    | .ok typed => .ok typed.kind

/-- The value, given the values of variables. -/
def evaluate (env : Environment D) : Except Failure D.Value :=
  match e.check with
  | .error failure => .error failure
  | .ok tree =>
    match e.bind tree env.kindOf? with
    | .error faults => .error (.evaluation (faults.map (·.diagnostic)) e.source)
    | .ok typed =>
      match (Term.ofTree e.compiler.dialect tree).compute env typed.bound.callTable with
      | .error fault => .error (.evaluation [fault.diagnostic] e.source)
      | .ok v => .ok v

end Compiled

end Reckon
