import Reckon.Compiler

/-!
# Sessions

A session keeps the expression that was compiled last, so that it can be evaluated again and again.
-/

namespace Reckon

structure Session (D : Domain) where
  compiler : Compiler D
  last : Option (Compiled D) := none

namespace Session

variable {D : Domain} (s : Session D)

/-- Compiles a text and keeps the result, valid or not. -/
def compile (source : String) : Session D := { s with last := some (s.compiler.compile source) }

/-- Evaluates the expression that was compiled last. -/
def evaluateLast (env : Environment D) : Except Failure D.Value :=
  match s.last with
  | some compiled => compiled.evaluate env
  | none => .error (.config .nothingCompiled)

/-- Forgets the last expression. -/
def clear : Session D := { s with last := none }

end Session

end Reckon
