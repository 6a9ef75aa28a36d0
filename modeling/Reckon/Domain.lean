/-!
# Domains

A domain says what values expressions compute with: their kinds, how a literal is read, and which
kinds may stand for which.  All analyses and the evaluation are the same for every domain.
-/

namespace Reckon

structure Domain where
  Kind : Type
  Value : Type
  kindsDecidable : DecidableEq Kind
  kindLabel : Kind → String
  kindOf : Value → Kind
  /-- The value of a literal, if it can be read. -/
  readLiteral : String → Option Value
  /-- Whether a value of the first kind may be given where the second is asked for. -/
  assignable : Kind → Kind → Bool

attribute [instance] Domain.kindsDecidable

end Reckon
