import Reckon.Compiler

/-!
# Notices

A failure as the user is told of it: one notice for each diagnostic, pointing into the expression,
or a single one for a failure that has no place in an expression.
-/

namespace Reckon.CommandLine

/-- A remark on a stretch of the expression. -/
structure Remark where
  isPrimary : Bool
  offset : Nat
  length : Nat
  text : String
deriving DecidableEq

structure Notice where
  message : String
  code : Option String
  help : Option String
  /-- Whether the notice is about an expression. -/
  hasSource : Bool
  remarks : List Remark
deriving DecidableEq

def Remark.ofLabel (label : Label) : Remark :=
  ⟨label.role == .primary, label.span.start, label.span.length, label.message⟩

/-- Labels that do not fit the expression are left out. -/
def Notice.ofDiagnostic (source : String) (d : Diagnostic) : Notice :=
  ⟨d.message, d.code.map Code.label, d.help, true,
    (d.labels.filter fun label => (label.span.covered source).isSome).map Remark.ofLabel⟩

/-- The notices of a failure. -/
def noticesOf (failure : Failure) : List Notice :=
  match failure with
  | .io => [⟨failure.message, some "formulary::io", none, false, []⟩]
  | .config _ => [⟨failure.message, some "formulary::config", none, false, []⟩]
  | .parse ds source => ds.map (Notice.ofDiagnostic source)
  | .evaluation ds source => ds.map (Notice.ofDiagnostic source)

end Reckon.CommandLine
