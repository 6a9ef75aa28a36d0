import Mathlib.Data.List.Chain
import Reckon.Scan
import Reckon.Proofs.Standard

/-!
# Lexemes

A text in the standard dialect as a list of lexemes: numbers, names, calls with their parenthesis,
and marks.  Two words are told apart only if a mark stands between them (`Lexeme.Separated`).
-/

namespace Reckon

open Text

/-! ## Words -/

/-- Digits, at least one. -/
structure Digits where
  chars : List Char
  nonempty : chars ≠ []
  isDigit : ∀ c ∈ chars, c.isDigit

/-- A number, perhaps with a fraction. -/
structure Numeral where
  whole : Digits
  fraction : Option Digits

def Numeral.chars (n : Numeral) : List Char :=
  match n.fraction with
  | none => n.whole.chars
  | some digits => n.whole.chars ++ '.' :: digits.chars

/-- A lowercase letter with lowercase letters, digits and underscores behind it. -/
structure Name where
  head : Char
  tail : List Char
  isLower : head.isLower
  isTail : ∀ c ∈ tail, c.isLower ∨ c.isDigit ∨ c = '_'

def Name.chars (n : Name) : List Char := n.head :: n.tail

/-! ## Marks -/

/-- The operators between two operands. -/
inductive BinaryMark where
  | plus
  | minus
  | times
  | divide
  | remainder
  | power
deriving DecidableEq

def BinaryMark.char : BinaryMark → Char
  | plus => '+'
  | minus => '-'
  | times => '*'
  | divide => '/'
  | remainder => '%'
  | power => '^'

/-- A mark, told apart by its place: `sign` is a minus before its operand. -/
inductive Mark where
  | opening
  | closing
  | separator
  | binary (op : BinaryMark)
  | sign
  | factorial
deriving DecidableEq

namespace Mark

def char : Mark → Char
  | opening => '('
  | closing => ')'
  | separator => ','
  | binary op => op.char
  | sign => '-'
  | factorial => '!'

def kind : Mark → TokenKind
  | opening => .opening
  | closing => .closing
  | separator => .separator
  | binary _ => .operator
  | sign | factorial => .unary

/-- The kind before operators are read by their neighbours. -/
def scannedKind : Mark → TokenKind
  | sign => .operator
  | m => m.kind

end Mark

/-! ## Lexemes -/

inductive Lexeme where
  | number (n : Numeral)
  | name (n : Name)
  | call (n : Name)
  | mark (m : Mark)

namespace Lexeme

/-- The text of the token. -/
def face : Lexeme → List Char
  | number n => n.chars
  | name n | call n => n.chars
  | mark m => [m.char]

/-- All characters; a call takes its parenthesis. -/
def chars : Lexeme → List Char
  | call n => n.chars ++ ['(']
  | l => l.face

def kind : Lexeme → TokenKind
  | number _ => .literal
  | name _ => .identifier
  | call _ => .call
  | mark m => m.kind

def scannedKind : Lexeme → TokenKind
  | mark m => m.scannedKind
  | l => l.kind

/-- The token of a lexeme at an offset, as it is scanned and as it is read. -/
def scannedToken (offset : Nat) (l : Lexeme) : Token :=
  ⟨l.scannedKind, String.ofList l.face, some offset⟩

def token (offset : Nat) (l : Lexeme) : Token := ⟨l.kind, String.ofList l.face, some offset⟩

def claim (offset : Nat) (l : Lexeme) : Claim :=
  ⟨l.scannedToken offset, Span.ofLength offset (width l.chars)⟩

/-- Whether it begins with a character of a word. -/
def isWord : Lexeme → Bool
  | mark _ => false
  | _ => true

/-- Whether it ends with a character of a word. -/
def endsWord : Lexeme → Bool
  | number _ | name _ => true
  | call _ | mark _ => false

/-- Behind a word stands a mark, but no opening parenthesis. -/
def Separated : List Lexeme → Prop :=
  List.IsChain fun l next => l.endsWord → ∃ m, next = mark m ∧ m ≠ .opening

/-- The text of lexemes. -/
def text (ls : List Lexeme) : List Char := ls.flatMap chars

@[simp] theorem text_nil : text [] = [] := rfl

@[simp] theorem text_cons (l : Lexeme) (ls : List Lexeme) : text (l :: ls) = l.chars ++ text ls :=
  List.flatMap_cons

@[simp] theorem text_append (ls ms : List Lexeme) : text (ls ++ ms) = text ls ++ text ms :=
  List.flatMap_append

/-- The lexemes with their offsets, the first at `offset`. -/
def placed (offset : Nat) : List Lexeme → List (Nat × Lexeme)
  | [] => []
  | l :: ls => (offset, l) :: placed (offset + width l.chars) ls

theorem placed_append (offset : Nat) (ls ms : List Lexeme) :
    placed offset (ls ++ ms) = placed offset ls ++ placed (offset + width (text ls)) ms := by
  induction ls generalizing offset with
  | nil => simp [placed]
  | cons l ls ih => simp [placed, ih, Nat.add_assoc]

end Lexeme

end Reckon
