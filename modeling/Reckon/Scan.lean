import Reckon.Dialect
import Reckon.Regex.Search

/-!
# Scanning

`Dialect.tokens` turns a text into tokens and never fails.  Each class of token is sought over the
whole text in turn: calls, literals, names, parentheses, separators, operators with the longest
symbol first.  A hit claims the bytes it covers if none of them is claimed yet.  What no class
claims is skipped.

An operator that is also a unary one is then read by its neighbours (`Dialect.readOperators`).
-/

namespace Reckon

/-- A token with the bytes that belong to it; those of a call include its parenthesis. -/
structure Claim where
  token : Token
  span : Span
deriving DecidableEq

namespace Claim

/-- A token claims its own text. -/
def ofSlice (kind : TokenKind) (s : Regex.Slice) : Claim :=
  ⟨⟨kind, s.text, some s.start⟩, Span.between s.start s.stop⟩

/-- A symbol claims its own text. -/
def ofSymbol (kind : TokenKind) (symbol : String) (offset : Nat) : Claim :=
  ⟨⟨kind, symbol, some offset⟩, Span.ofLength offset symbol.utf8ByteSize⟩

/-- Where a symbol stands in the text. -/
def ofOccurrences (text : List Char) (kind : TokenKind) (symbol : String) : List Claim :=
  (Text.occurrences symbol.toList 0 0 text).map (ofSymbol kind symbol)

/-- Adds a claim, unless it is empty or some of its bytes are taken. -/
def add (taken : List Claim) (c : Claim) : List Claim :=
  if c.span.isEmpty || taken.any (·.span.overlaps c.span) then taken else c :: taken

def addAll (taken : List Claim) (cs : List Claim) : List Claim := cs.foldl add taken

end Claim

namespace Dialect

variable (d : Dialect)

/-! ### The classes of tokens -/

/-- Calls; the parenthesis belongs to the call and is no token. -/
def callClaims (text : List Char) : List Claim :=
  (d.call.findAll text).filterMap fun m =>
    match m.group? "name", m.group? "paren" with
    | some name, some paren =>
      if d.isOperatorName name.text then none
      else some ⟨⟨.call, name.text, some name.start⟩, Span.between name.start paren.stop⟩
    | _, _ => none

def literalClaims (text : List Char) : List Claim :=
  (d.literal.findAll text).map fun m => Claim.ofSlice .literal m.whole

def identifierClaims (text : List Char) : List Claim :=
  (d.identifier.findAll text).filterMap fun m =>
    if d.isOperatorName m.whole.text then none else some (Claim.ofSlice .identifier m.whole)

def parenClaims (text : List Char) : List Claim :=
  (Text.positioned 0 text).filterMap fun (offset, c) =>
    if c = d.opening then some (Claim.ofSymbol .opening c.toString offset)
    else if c = d.closing then some (Claim.ofSymbol .closing c.toString offset)
    else none

/-- The operator symbols, longest first; a name in both tables counts as binary for now. -/
def operatorSymbols : List (String × TokenKind) :=
  let binary := d.operators.map fun op => (op.name, TokenKind.operator)
  let unary := (d.unaries.filter fun op => (d.operator? op.name).isNone).map
    fun op => (op.name, TokenKind.unary)
  (binary ++ unary).mergeSort fun a b => decide (b.1.utf8ByteSize ≤ a.1.utf8ByteSize)

/-- Every claim on a text, the latest first. -/
def claims (text : List Char) : List Claim :=
  let taken := Claim.addAll [] (d.callClaims text)
  let taken := Claim.addAll taken (d.literalClaims text)
  let taken := Claim.addAll taken (d.identifierClaims text)
  let taken := Claim.addAll taken (d.parenClaims text)
  let taken := Claim.addAll taken (Claim.ofOccurrences text .separator d.separator)
  d.operatorSymbols.foldl
    (fun taken s => Claim.addAll taken (Claim.ofOccurrences text s.2 s.1)) taken

/-! ### Reading operators by their neighbours -/

/-- Whether a unary operator that precedes its operand may follow this token. -/
def allowsBefore : Option Token → Bool
  | none => true
  | some previous =>
    match previous.kind with
    | .operator | .separator | .opening | .call => true
    | .unary => (d.unary? previous.text).any (·.side == .before)
    | .literal | .identifier | .closing | .missing => false

/-- Whether a unary operator that follows its operand may precede this token. -/
def allowsAfter : Option Token → Bool
  | none => true
  | some next =>
    match next.kind with
    | .operator | .separator | .unary | .closing => true
    | .literal | .identifier | .opening | .call | .missing => false

/-- Reads one operator, given the token before it as already read and the one behind it as it
stands. -/
def readOperator (previous : Option Token) (t : Token) (next : Option Token) : Token :=
  if t.kind = .operator then
    match d.unary? t.text with
    | some op =>
      let alone :=
        match op.side with
        | .before => d.allowsBefore previous
        | .after => allowsAfter next
      if alone then { t with kind := .unary } else t
    | none => t
  else t

/-- Reads operators from left to right. -/
def readOperators (previous : Option Token) : List Token → List Token
  | [] => []
  | t :: ts =>
    let t := d.readOperator previous t ts.head?
    t :: readOperators (some t) ts

/-- The tokens of a text. -/
def tokens (source : String) : List Token :=
  d.readOperators none (Token.sorted ((d.claims source.toList).map (·.token)))

end Dialect

end Reckon
