import Reckon.Check.Verdicts
import Reckon.Dialect

/-!
# Parentheses

Pairs up the parentheses of a text, whatever else stands in it.  A closing parenthesis takes the
nearest opening one that is still free; what stays free at the end was never closed.
-/

namespace Reckon

inductive ParenSide where
  | opening
  | closing
deriving DecidableEq

def ParenSide.label : ParenSide → String
  | opening => "open"
  | closing => "close"

/-- A parenthesis in the text. -/
structure Paren where
  side : ParenSide
  symbol : Char
  position : Nat
deriving DecidableEq

namespace Paren

def span (p : Paren) : Span := Span.ofLength p.position p.symbol.utf8Size

def remark (p : Paren) : String :=
  match p.side with
  | .opening => "never closed"
  | .closing => "nothing to close"

def help (p : Paren) : String :=
  match p.side with
  | .opening => "add a matching close parenthesis"
  | .closing => "remove it or open a group before it"

def diagnostic (p : Paren) : Diagnostic :=
  let message :=
    s!"unmatched {p.side.label} parenthesis `{p.symbol}` at position {p.position + 1}"
  ((Diagnostic.coded .unbalancedParenthesis message).pointing (some p.span) p.remark).advising
    p.help

/-- The parentheses of a text, in order. -/
def inText (d : Dialect) (text : List Char) : List Paren :=
  (Text.positioned 0 text).filterMap fun (offset, c) =>
    if c = d.opening then some ⟨.opening, c, offset⟩
    else if c = d.closing then some ⟨.closing, c, offset⟩
    else none

/-- Pairing under way: the free opening parentheses, the pairs and the closing parentheses without
partner, each with the latest first. -/
structure Pairing where
  free : List Paren
  paired : List (Paren × Paren)
  stray : List Paren

def Pairing.add (s : Pairing) (p : Paren) : Pairing :=
  match p.side with
  | .opening => { s with free := p :: s.free }
  | .closing =>
    match s.free with
    | [] => { s with stray := p :: s.stray }
    | opener :: free => { s with free := free, paired := (opener, p) :: s.paired }

def pair (ps : List Paren) : Pairing := ps.foldl Pairing.add ⟨[], [], []⟩

/-- Pairs are listed as they are closed; of those without partner, closing ones come first. -/
def inspect (d : Dialect) (source : String) : Verdicts Paren :=
  let s := pair (inText d source.toList)
  ⟨s.paired.reverse.flatMap fun p => [p.1, p.2], s.stray.reverse ++ s.free.reverse, []⟩

end Paren

end Reckon
