import Reckon.Span
import Reckon.Text

/-!
# Tokens

A token is told apart by where it stands, not only by what it holds.  The `missing` kind stands for
an operand that the text leaves out; such a placeholder has no position.
-/

namespace Reckon

inductive TokenKind where
  | literal
  | identifier
  | operator
  | unary
  | opening
  | closing
  | call
  | separator
  | missing
deriving DecidableEq

namespace TokenKind

def label : TokenKind → String
  | literal => "literal"
  | identifier => "identifier"
  | operator => "operator"
  | unary => "unary operator"
  | opening => "open parenthesis"
  | closing => "close parenthesis"
  | call => "function"
  | separator => "argument separator"
  | missing => "missing operand"

/-- Place of the kind in the order of kinds. -/
def rank : TokenKind → Nat
  | literal => 0
  | identifier => 1
  | operator => 2
  | unary => 3
  | opening => 4
  | closing => 5
  | call => 6
  | separator => 7
  | missing => 8

/-- Kinds that stand for a value by themselves. -/
def isOperand : TokenKind → Bool
  | literal | identifier | missing => true
  | _ => false

/-- Kinds that join an operand on each side. -/
def isBinary : TokenKind → Bool
  | operator | separator => true
  | _ => false

/-- Kinds that open a group which a closing parenthesis ends. -/
def opensGroup : TokenKind → Bool
  | opening | call => true
  | _ => false

end TokenKind

structure Token where
  kind : TokenKind
  text : String
  position : Option Nat
deriving DecidableEq

namespace Token

/-- The placeholder for an operand that is not written. -/
def placeholder : Token := ⟨.missing, "", none⟩

def isMissing (t : Token) : Bool := t.kind == .missing

/-- The position as people count, from one. -/
def displayPosition (t : Token) : Option Nat := t.position.map (· + 1)

/-- The bytes of the token; an empty text still counts as one byte. -/
def span (t : Token) : Option Span :=
  t.position.map fun position => Span.ofLength position (max t.text.utf8ByteSize 1)

instance : ToString Token := ⟨fun t => if t.isMissing then "<null>" else t.text⟩

/-- Tokens are ordered by position (none first), then by text, then by kind. -/
def order (a b : Token) : Ordering :=
  ((compare a.position b.position).then (compare a.text b.text)).then
    (compare a.kind.rank b.kind.rank)

/-- The tokens in order. -/
def sorted (ts : List Token) : List Token := ts.mergeSort fun a b => (order a b).isLE

/-- Words like "at position 3" with a blank before them; nothing for a token without position. -/
def whereabouts (t : Token) : String :=
  match t.displayPosition with
  | some position => s!" at position {position}"
  | none => ""

end Token

end Reckon
