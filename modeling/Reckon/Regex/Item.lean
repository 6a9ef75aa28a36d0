import Reckon.Regex.Basic

/-!
# Items of regular expressions

The written form of an expression is cut into items: atoms, group brackets, bars and repetitions.
-/

namespace Reckon.Regex

inductive ReadError where
  | unclosedGroup
  | unopenedGroup
  | unclosedClass
  | reversedRange
  | badRange
  | badCount
  | tooManyTurns
  | nothingToRepeat
  | trailingBackslash
  | badEscape
  | badGroupName
  | duplicateGroupName
  | unsupported
deriving DecidableEq

inductive Item where
  | atom (r : Regex)
  | openGroup (name : Option String)
  | closeGroup
  | bar
  | repetition (least : Nat) (most : Option Nat) (greedy : Bool)

/-! ### Escapes -/

inductive Escaped where
  | set (s : CharSet)
  | anchor (a : Anchor)

/-- The character with this code point, which must exist. -/
def charOfCode (n : Nat) : Except ReadError Char :=
  if n.isValidChar then .ok (Char.ofNat n) else .error .badEscape

/-- A code point in hexadecimal: `digits` of them, or any number between braces. -/
def readHex (digits : Nat) : List Char → Except ReadError (Escaped × List Char)
  | '\x7b' :: cs => do
    let inside := cs.takeWhile (· != '\x7d')
    let some value := Text.hexValue inside | .error .badEscape
    if inside.isEmpty || inside.length > 8 then .error .badEscape
    match cs.drop inside.length with
    | [] => .error .badEscape
    | _ :: rest => return (.set (.char (← charOfCode value)), rest)
  | cs => do
    let inside := cs.take digits
    if inside.length < digits then .error .badEscape
    let some value := Text.hexValue inside | .error .badEscape
    return (.set (.char (← charOfCode value)), cs.drop digits)

/-- What follows a backslash. -/
def readEscape : List Char → Except ReadError (Escaped × List Char)
  | [] => .error .trailingBackslash
  | 'd' :: cs => .ok (.set .digit, cs)
  | 'D' :: cs => .ok (.set (.other .digit), cs)
  | 'w' :: cs => .ok (.set .word, cs)
  | 'W' :: cs => .ok (.set (.other .word), cs)
  | 's' :: cs => .ok (.set .blank, cs)
  | 'S' :: cs => .ok (.set (.other .blank), cs)
  | 'b' :: cs => .ok (.anchor .wordBoundary, cs)
  | 'B' :: cs => .ok (.anchor .noWordBoundary, cs)
  | 'A' :: cs => .ok (.anchor .textStart, cs)
  | 'z' :: cs => .ok (.anchor .textEnd, cs)
  | 'n' :: cs => .ok (.set (.char '\n'), cs)
  | 't' :: cs => .ok (.set (.char '\t'), cs)
  | 'r' :: cs => .ok (.set (.char '\r'), cs)
  | 'a' :: cs => .ok (.set (.char (Char.ofNat 7)), cs)
  | 'f' :: cs => .ok (.set (.char (Char.ofNat 12)), cs)
  | 'v' :: cs => .ok (.set (.char (Char.ofNat 11)), cs)
  | 'x' :: cs => readHex 2 cs
  | 'u' :: cs => readHex 4 cs
  | 'U' :: cs => readHex 8 cs
  | c :: cs =>
    if c.toNat < 128 && !c.isAlphanum && c != '<' && c != '>' then .ok (.set (.char c), cs)
    else if c == 'p' || c == 'P' then .error .unsupported
    else .error .badEscape

/-! ### Classes -/

def readClassMember : List Char → Except ReadError (CharSet × List Char)
  | [] => .error .unclosedClass
  | '[' :: _ => .error .unsupported
  | '&' :: '&' :: _ => .error .unsupported
  | '~' :: '~' :: _ => .error .unsupported
  | '-' :: '-' :: _ => .error .unsupported
  | '\\' :: cs => do
    match ← readEscape cs with
    | (.set s, rest) => return (s, rest)
    | (.anchor _, _) => .error .badEscape
  | c :: cs => .ok (.char c, cs)

/-- Members up to the closing bracket; the fuel bounds their number. -/
def readClassMembers : Nat → CharSet → List Char → Except ReadError (CharSet × List Char)
  | 0, _, _ => .error .unclosedClass
  | _ + 1, _, [] => .error .unclosedClass
  | _ + 1, s, ']' :: cs => .ok (s, cs)
  | fuel + 1, s, cs => do
    let (first, rest) ← readClassMember cs
    match rest with
    | '-' :: c :: after =>
      if c == ']' || c == '-' then readClassMembers fuel (.union s first) rest
      else
        let (last, rest) ← readClassMember (c :: after)
        match first, last with
        | .char lo, .char hi =>
          if lo ≤ hi then readClassMembers fuel (.union s (.range lo hi)) rest
          else .error .reversedRange
        | _, _ => .error .badRange
    | _ => readClassMembers fuel (.union s first) rest

/-- A class, behind its opening bracket.  Dashes in front are members, and so is a closing bracket
that comes first. -/
def readClass (cs : List Char) : Except ReadError (CharSet × List Char) := do
  let (negated, cs) :=
    match cs with
    | '^' :: cs => (true, cs)
    | cs => (false, cs)
  let dashes := cs.takeWhile (· == '-')
  let start : CharSet := if dashes.isEmpty then .nothing else .char '-'
  let cs := cs.drop dashes.length
  let (start, cs) :=
    match cs with
    | ']' :: cs' => if dashes.isEmpty then (CharSet.char ']', cs') else (start, cs)
    | _ => (start, cs)
  let (s, rest) ← readClassMembers (cs.length + 1) start cs
  return (if negated then .other s else s, rest)

/-! ### Groups and repetitions -/

def isGroupNameChar (first : Bool) (c : Char) : Bool :=
  if first then c == '_' || (Text.isWord c && !Text.isDecimal c)
  else Text.isWord c || c == '.' || c == '[' || c == ']'

def readGroupName (cs : List Char) : Except ReadError (Item × List Char) :=
  let name := cs.takeWhile (· != '>')
  match name, cs.drop name.length with
  | c :: more, _ :: rest =>
    if isGroupNameChar true c && more.all (isGroupNameChar false) then
      .ok (.openGroup (some (String.ofList name)), rest)
    else .error .badGroupName
  | _, _ => .error .badGroupName

/-- What follows an opening round bracket. -/
def readGroup : List Char → Except ReadError (Item × List Char)
  | '?' :: ':' :: cs => .ok (.openGroup none, cs)
  | '?' :: 'P' :: '<' :: cs => readGroupName cs
  | '?' :: '<' :: '=' :: _ => .error .unsupported
  | '?' :: '<' :: '!' :: _ => .error .unsupported
  | '?' :: '<' :: cs => readGroupName cs
  | '?' :: _ => .error .unsupported
  | cs => .ok (.openGroup none, cs)

/-- A repetition is lazy when a question mark follows it. -/
def readGreed (least : Nat) (most : Option Nat) : List Char → Item × List Char
  | '?' :: cs => (.repetition least most false, cs)
  | cs => (.repetition least most true, cs)

/-- The largest number of turns that a count may ask for. -/
def maxTurns : Nat := 65536

/-- A decimal number, with blanks around it. -/
def readCount (cs : List Char) : Except ReadError (Nat × List Char) :=
  let cs := cs.dropWhile Text.isBlank
  let digits := cs.takeWhile Char.isDigit
  let rest := (cs.drop digits.length).dropWhile Text.isBlank
  if digits.isEmpty then .error .badCount
  else
    let value := Text.decimalValue digits
    if value ≤ maxTurns then .ok (value, rest) else .error .tooManyTurns

/-- A count, behind its opening brace. -/
def readCounts (cs : List Char) : Except ReadError (Item × List Char) := do
  let (least, rest) ← readCount cs
  match rest with
  | '\x7d' :: rest => return readGreed least (some least) rest
  | ',' :: rest =>
    match rest with
    | '\x7d' :: rest => return readGreed least none rest
    | rest =>
      let (most, rest) ← readCount rest
      match rest with
      | '\x7d' :: rest =>
        if least ≤ most then return readGreed least (some most) rest else .error .badCount
      | _ => .error .badCount
  | _ => .error .badCount

/-! ### Items -/

def readItem (c : Char) (cs : List Char) : Except ReadError (Item × List Char) :=
  match c with
  | '(' => readGroup cs
  | ')' => .ok (.closeGroup, cs)
  | '|' => .ok (.bar, cs)
  | '*' => .ok (readGreed 0 none cs)
  | '+' => .ok (readGreed 1 none cs)
  | '?' => .ok (readGreed 0 (some 1) cs)
  | '\x7b' => readCounts cs
  | '[' => do
    let (s, rest) ← readClass cs
    return (.atom (one s), rest)
  | '\\' => do
    match ← readEscape cs with
    | (.set s, rest) => return (.atom (one s), rest)
    | (.anchor a, rest) => return (.atom (Regex.anchor a), rest)
  | '.' => .ok (.atom (one .line), cs)
  | '^' => .ok (.atom (Regex.anchor .textStart), cs)
  | '$' => .ok (.atom (Regex.anchor .textEnd), cs)
  | c => .ok (.atom (one (.char c)), cs)

/-- The items of a written expression; the fuel bounds their number. -/
def readItems : Nat → List Char → Except ReadError (List Item)
  | _, [] => .ok []
  | 0, _ :: _ => .ok []
  | fuel + 1, c :: cs => do
    let (item, rest) ← readItem c cs
    return item :: (← readItems fuel rest)

end Reckon.Regex
