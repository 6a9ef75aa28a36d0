import Reckon.Dialect

/-!
# The standard dialect

What `Dialect.build` makes of the usual spelling with the operators of arithmetic.
-/

namespace Reckon

namespace Standard

/-! ## The patterns -/

def digit : CharSet := .union .nothing (.range '0' '9')

def nameHead : CharSet :=
  .union (.union (.union .nothing (.range 'A' 'Z')) (.range 'a' 'z')) (.char '_')

def nameTail : CharSet :=
  .union (.union (.union (.union .nothing (.range 'A' 'Z')) (.range 'a' 'z')) (.range '0' '9'))
    (.char '_')

def digits : Regex := .seq (.one digit) (.run digit true)

/-- Digits, perhaps with a fraction, as a word of their own. -/
def number : Regex :=
  .seq (.anchor .wordBoundary)
    (.seq digits
      (.seq (.either (.seq (.seq (.one (.char '.')) digits) .empty) .empty)
        (.anchor .wordBoundary)))

/-- A letter or underscore with letters, digits and underscores behind it, as a word of its own. -/
def name : Regex :=
  .seq (.anchor .wordBoundary)
    (.seq (.one nameHead) (.seq (.run nameTail true) (.anchor .wordBoundary)))

/-- A name with the parenthesis behind it. -/
def call : Regex := .seq (.named "name" name) (.named "paren" (.one (.char '(')))

end Standard

/-! ## The dialect -/

def Dialect.standard : Dialect where
  identifier := Standard.name
  literal := Standard.number
  call := Standard.call
  opening := '('
  closing := ')'
  separator := ","
  operators := Dialect.Spec.standard.operators
  unaries := Dialect.Spec.standard.unaries

theorem build_standard : Dialect.build .standard = .ok .standard := rfl

end Reckon
