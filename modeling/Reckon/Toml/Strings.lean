import Reckon.Text.Digit
import Reckon.Toml.Tables

/-!
# TOML strings

Strings in one or three quotes, with or without escapes, and the blanks and comments between the
parts of a text.  Each reader returns what it did not take.
-/

namespace Reckon.Toml

abbrev Reader (α : Type) := List Char → Except Error (α × List Char)

def isSpace (c : Char) : Bool := c == ' ' || c == '\t'

def skipSpaces (cs : List Char) : List Char := cs.dropWhile isSpace

/-- Control characters, which no text may hold; the tab is none. -/
def isControl (c : Char) : Bool := (c.toNat < 32 && c != '\t') || c.toNat == 127

/-- Skips a comment, up to the end of its line. -/
def skipComment (cs : List Char) : Except Error (List Char) :=
  match cs with
  | '#' :: rest =>
    let held := rest.takeWhile (· != '\n')
    let body := if held.getLast? = some '\r' then held.dropLast else held
    if body.any isControl then .error .unexpected else .ok (rest.drop held.length)
  | cs => .ok cs

/-- Skips blanks, comments and line ends; the fuel bounds the number of lines. -/
def skipLines : Nat → List Char → Except Error (List Char)
  | 0, cs => .ok cs
  | fuel + 1, cs => do
    match ← skipComment (skipSpaces cs) with
    | '\n' :: rest => skipLines fuel rest
    | '\r' :: '\n' :: rest => skipLines fuel rest
    | rest => return rest

/-! ### Strings -/

/-- The character that hexadecimal digits name. -/
def charOfHex (digits : List Char) : Except Error Char :=
  match Text.hexValue digits with
  | some n => if n.isValidChar then .ok (Char.ofNat n) else .error .badEscape
  | none => .error .badEscape

/-- A string in double quotes, behind the opening quote. -/
def readBasic (held : List Char) : Reader String
  | [] => .error .unclosed
  | '"' :: cs => .ok (String.ofList held.reverse, cs)
  | '\\' :: 'b' :: cs => readBasic (Char.ofNat 8 :: held) cs
  | '\\' :: 't' :: cs => readBasic ('\t' :: held) cs
  | '\\' :: 'n' :: cs => readBasic ('\n' :: held) cs
  | '\\' :: 'f' :: cs => readBasic (Char.ofNat 12 :: held) cs
  | '\\' :: 'r' :: cs => readBasic ('\r' :: held) cs
  | '\\' :: 'e' :: cs => readBasic (Char.ofNat 27 :: held) cs
  | '\\' :: '"' :: cs => readBasic ('"' :: held) cs
  | '\\' :: '\\' :: cs => readBasic ('\\' :: held) cs
  | '\\' :: 'x' :: a :: b :: cs => do readBasic ((← charOfHex [a, b]) :: held) cs
  | '\\' :: 'u' :: a :: b :: c :: d :: cs => do
    readBasic ((← charOfHex [a, b, c, d]) :: held) cs
  | '\\' :: 'U' :: a :: b :: c :: d :: e :: f :: g :: h :: cs => do
    readBasic ((← charOfHex [a, b, c, d, e, f, g, h]) :: held) cs
  | '\\' :: _ => .error .badEscape
  | c :: cs => if isControl c then .error .unexpected else readBasic (c :: held) cs

/-- A string in single quotes, behind the opening quote. -/
def readLiteral (cs : List Char) : Except Error (String × List Char) :=
  let held := cs.takeWhile (· != '\'')
  match cs.drop held.length with
  | [] => .error .unclosed
  | _ :: rest =>
    if held.any isControl then .error .unexpected else .ok (String.ofList held, rest)

/-- Up to two quotes may stand directly before the closing three. -/
def closeQuotes (quote : Char) (held : List Char) : Reader String
  | a :: b :: cs =>
    if a = quote ∧ b = quote then .ok (String.ofList (quote :: quote :: held).reverse, cs)
    else if a = quote then .ok (String.ofList (quote :: held).reverse, b :: cs)
    else .ok (String.ofList held.reverse, a :: b :: cs)
  | [a] =>
    if a = quote then .ok (String.ofList (quote :: held).reverse, [])
    else .ok (String.ofList held.reverse, [a])
  | [] => .ok (String.ofList held.reverse, [])

/-- Whether only blanks stand before the end of the line. -/
def endsLine (cs : List Char) : Bool :=
  match skipSpaces cs with
  | '\n' :: _ => true
  | '\r' :: '\n' :: _ => true
  | _ => false

/-- A string in three double quotes.  Behind a backslash at the end of a line, blanks and line ends
are skipped; `skipping` says that this is under way. -/
def readLongBasic (skipping : Bool) (held : List Char) : Reader String
  | [] => .error .unclosed
  | '"' :: '"' :: '"' :: cs => closeQuotes '"' held cs
  | '\\' :: 'b' :: cs => readLongBasic false (Char.ofNat 8 :: held) cs
  | '\\' :: 't' :: cs => readLongBasic false ('\t' :: held) cs
  | '\\' :: 'n' :: cs => readLongBasic false ('\n' :: held) cs
  | '\\' :: 'f' :: cs => readLongBasic false (Char.ofNat 12 :: held) cs
  | '\\' :: 'r' :: cs => readLongBasic false ('\r' :: held) cs
  | '\\' :: 'e' :: cs => readLongBasic false (Char.ofNat 27 :: held) cs
  | '\\' :: '"' :: cs => readLongBasic false ('"' :: held) cs
  | '\\' :: '\\' :: cs => readLongBasic false ('\\' :: held) cs
  | '\\' :: 'x' :: a :: b :: cs => do readLongBasic false ((← charOfHex [a, b]) :: held) cs
  | '\\' :: 'u' :: a :: b :: c :: d :: cs => do
    readLongBasic false ((← charOfHex [a, b, c, d]) :: held) cs
  | '\\' :: 'U' :: a :: b :: c :: d :: e :: f :: g :: h :: cs => do
    readLongBasic false ((← charOfHex [a, b, c, d, e, f, g, h]) :: held) cs
  | '\\' :: cs => if endsLine cs then readLongBasic true held cs else .error .badEscape
  | '\r' :: '\n' :: cs =>
    if skipping then readLongBasic true held cs else readLongBasic false ('\n' :: '\r' :: held) cs
  | c :: cs =>
    if skipping && (isSpace c || c == '\n') then readLongBasic true held cs
    else if isControl c && c != '\n' then .error .unexpected
    else readLongBasic false (c :: held) cs

/-- A string in three single quotes. -/
def readLongLiteral (held : List Char) : Reader String
  | [] => .error .unclosed
  | '\'' :: '\'' :: '\'' :: cs => closeQuotes '\'' held cs
  | '\r' :: '\n' :: cs => readLongLiteral ('\n' :: '\r' :: held) cs
  | c :: cs =>
    if isControl c && c != '\n' then .error .unexpected else readLongLiteral (c :: held) cs

/-- A line end directly behind the opening quotes does not count. -/
def dropLineEnd : List Char → List Char
  | '\n' :: cs => cs
  | '\r' :: '\n' :: cs => cs
  | cs => cs

end Reckon.Toml
