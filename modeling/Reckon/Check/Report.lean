import Reckon.Check.Arguments
import Reckon.Check.Names
import Reckon.Check.Operands
import Reckon.Check.Parens
import Reckon.Check.Separators
import Reckon.Parse

/-!
# Reports

A checker runs the checks that it is told to run; a report keeps what each of them found, and the
structural fault if the text has no tree.
-/

namespace Reckon

structure Report where
  parentheses : Option (Verdicts Paren) := none
  operands : Option (Verdicts OperandUse) := none
  emptyArguments : Option (Verdicts EmptyArguments) := none
  argumentCounts : Option (Verdicts ArgumentCount) := none
  separators : Option (Verdicts SeparatorUse) := none
  variableNames : Option (Verdicts NameUse) := none
  functionNames : Option (Verdicts NameUse) := none
  fault : Option Fault := none

namespace Report

/-- Whether a check was run and found something wrong. -/
def fails {α : Type} (v : Option (Verdicts α)) : Bool := v.any fun v => !v.passes

/-- The checks that found something wrong, in the order of reports. -/
def failedChecks (r : Report) : List Check :=
  Check.all.filter fun
    | .parentheses => fails r.parentheses
    | .operands => fails r.operands
    | .emptyArguments => fails r.emptyArguments
    | .argumentCounts => fails r.argumentCounts
    | .separators => fails r.separators
    | .variableNames => fails r.variableNames
    | .functionNames => fails r.functionNames

/-- The text has a tree and no check found anything wrong. -/
def passes (r : Report) : Bool := r.fault.isNone && r.failedChecks.isEmpty

/-- One diagnostic for everything that a check found wrong. -/
def diagnose {α : Type} (tell : α → Diagnostic) : Option (Verdicts α) → List Diagnostic
  | none => []
  | some v => v.invalid.map tell

/-- The fault as a diagnostic, unless the check of parentheses tells the same. -/
def faultDiagnostics (r : Report) : List Diagnostic :=
  match r.fault with
  | none => []
  | some fault =>
    let told := (fault.code == .unmatchedClose || fault.code == .unclosedGroup) &&
      fails r.parentheses
    if told then [] else [fault.diagnostic]

def diagnostics (r : Report) : List Diagnostic :=
  r.faultDiagnostics ++ diagnose Paren.diagnostic r.parentheses ++
    diagnose OperandUse.diagnostic r.operands ++
    diagnose EmptyArguments.diagnostic r.emptyArguments ++
    diagnose ArgumentCount.diagnostic r.argumentCounts ++
    diagnose SeparatorUse.diagnostic r.separators ++
    diagnose NameUse.diagnostic r.variableNames ++
    diagnose NameUse.diagnostic r.functionNames

/-- Success, or the diagnostics. -/
def result (r : Report) : Except (List Diagnostic) Unit := Diagnostic.settle r.diagnostics

end Report

/-- Which checks to run, and by which rules. -/
structure Checker where
  checks : List Check
  contracts : Contracts
  variablePolicy : NamePolicy
  functionPolicy : NamePolicy

namespace Checker

/-- Runs every check and knows no name. -/
def strict : Checker := ⟨Check.all, .empty, .strict, .strict⟩

/-- The result of a check, if it is selected. -/
def ifSelected {α : Type} (c : Checker) (check : Check) (v : Unit → α) : Option α :=
  if c.checks.contains check then some (v ()) else none

/-- The checks that need no tree. -/
def checkText (c : Checker) (d : Dialect) (source : String) : Report :=
  { parentheses := c.ifSelected .parentheses fun _ => Paren.inspect d source }

/-- All checks of a text and its tree. -/
def checkTree (c : Checker) (d : Dialect) (source : String) (t : Tree) : Report :=
  { c.checkText d source with
    operands := c.ifSelected .operands fun _ => OperandUse.inspect d t
    emptyArguments := c.ifSelected .emptyArguments fun _ => EmptyArguments.inspect t
    argumentCounts := c.ifSelected .argumentCounts fun _ => ArgumentCount.inspect c.contracts t
    separators := c.ifSelected .separators fun _ => SeparatorUse.inspect t
    variableNames := c.ifSelected .variableNames fun _ =>
      NameUse.inspect .ofVariable c.variablePolicy t
    functionNames := c.ifSelected .functionNames fun _ =>
      NameUse.inspect .ofFunction c.functionPolicy t }

/-- Parses a text and checks it. -/
def check (c : Checker) (d : Dialect) (source : String) : Report :=
  match d.parse source with
  | .ok parsed => c.checkTree d source parsed.tree
  | .error fault => { c.checkText d source with fault := some fault }

end Checker

end Reckon
