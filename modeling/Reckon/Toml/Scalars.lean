import Reckon.Toml.Strings

/-!
# TOML scalars

Numbers, dates and booleans.  A number with a fraction and a date are checked, and kept as they are
written.
-/

namespace Reckon.Toml

/-! ### Numbers -/

/-- The digits without underscores, each of which must stand between two digits. -/
def plainDigits (isDigit : Char → Bool) (cs : List Char) : Option (List Char) :=
  let groups := cs.splitOn '_'
  if groups.all fun g => !g.isEmpty && g.all isDigit then some groups.flatten else none

/-- A decimal integer without sign; it may not start with a needless zero. -/
def readDigits (cs : List Char) : Option Nat :=
  match plainDigits Char.isDigit cs with
  | some ('0' :: _ :: _) => none
  | some digits => some (Text.decimalValue digits)
  | none => none

/-- Digits of a number with another base, which must be below it. -/
def readBase (base : Nat) (cs : List Char) : Option Nat :=
  let isDigit := fun c => (Text.hexValue [c]).any fun n => decide (n < base)
  (plainDigits isDigit cs).map fun digits =>
    digits.foldl (fun n c => base * n + (Text.hexValue [c]).getD 0) 0

def readInteger (cs : List Char) : Option Int :=
  match cs with
  | '0' :: 'x' :: ds => (readBase 16 ds).map Int.ofNat
  | '0' :: 'o' :: ds => (readBase 8 ds).map Int.ofNat
  | '0' :: 'b' :: ds => (readBase 2 ds).map Int.ofNat
  | '+' :: ds => (readDigits ds).map Int.ofNat
  | '-' :: ds => (readDigits ds).map fun n => -(n : Int)
  | ds => (readDigits ds).map Int.ofNat

/-- Whether the text is a number with a fraction or an exponent, or a word for one. -/
def isReal (cs : List Char) : Bool :=
  let cs := match cs with
    | '+' :: ds => ds
    | '-' :: ds => ds
    | ds => ds
  if cs = "inf".toList ∨ cs = "nan".toList then true
  else
    let whole := cs.takeWhile fun c => c.isDigit || c == '_'
    let rest := cs.drop whole.length
    let (hasFraction, fraction, rest) := match rest with
      | '.' :: ds =>
        (true, ds.takeWhile fun c => c.isDigit || c == '_',
          ds.dropWhile fun c => c.isDigit || c == '_')
      | ds => (false, [], ds)
    let exponentFits := match rest with
      | [] => hasFraction
      | e :: ds =>
        let ds := match ds with
          | '+' :: ds => ds
          | '-' :: ds => ds
          | ds => ds
        (e == 'e' || e == 'E') && (plainDigits Char.isDigit ds).isSome
    (readDigits whole).isSome && (!hasFraction || (plainDigits Char.isDigit fraction).isSome) &&
      exponentFits

/-! ### Dates and times -/

/-- Two digits between two bounds. -/
def isPair (least most : Nat) : List Char → Bool
  | [a, b] =>
    a.isDigit && b.isDigit &&
      let n := 10 * (a.toNat - '0'.toNat) + (b.toNat - '0'.toNat)
      decide (least ≤ n) && decide (n ≤ most)
  | _ => false

def isDate : List Char → Bool
  | [a, b, c, d, '-', m, n, '-', x, y] =>
    [a, b, c, d].all Char.isDigit && isPair 1 12 [m, n] && isPair 1 31 [x, y]
  | _ => false

/-- A time of day; seconds and their fraction may be left out. -/
def isTime : List Char → Bool
  | h :: i :: ':' :: m :: n :: rest =>
    isPair 0 23 [h, i] && isPair 0 59 [m, n] &&
      match rest with
      | [] => true
      | ':' :: s :: t :: more =>
        isPair 0 60 [s, t] &&
          match more with
          | [] => true
          | '.' :: f => !f.isEmpty && f.all Char.isDigit
          | _ => false
      | _ => false
  | _ => false

/-- An offset from universal time. -/
def isOffset : List Char → Bool
  | [z] => z == 'Z' || z == 'z'
  | [s, h, i, ':', m, n] => (s == '+' || s == '-') && isPair 0 23 [h, i] && isPair 0 59 [m, n]
  | _ => false

/-- A date, a time, or both with an optional offset. -/
def isMoment (cs : List Char) : Bool :=
  let date := cs.take 10
  match cs.drop 10 with
  | [] => isDate cs || isTime cs
  | mark :: rest =>
    let time := rest.takeWhile fun c => c.isDigit || c == ':' || c == '.'
    let offset := rest.drop time.length
    isTime cs ||
      (isDate date && (mark == 'T' || mark == 't' || mark == ' ') && isTime time &&
        (offset.isEmpty || isOffset offset))

/-! ### Scalars -/

/-- Characters that numbers, dates and booleans are made of. -/
def isPlain (c : Char) : Bool :=
  c.isAlphanum || c == '_' || c == '-' || c == '+' || c == '.' || c == ':'

/-- The text of a plain value; a date may be followed by a blank and a time. -/
def plainText (cs : List Char) : List Char × List Char :=
  let word := cs.takeWhile isPlain
  let rest := cs.drop word.length
  match rest with
  | ' ' :: a :: more =>
    if isDate word && a.isDigit then
      let time := (a :: more).takeWhile isPlain
      (word ++ ' ' :: time, (a :: more).drop time.length)
    else (word, rest)
  | _ => (word, rest)

def readPlain (cs : List Char) : Except Error (Document × List Char) :=
  let (word, rest) := plainText cs
  if word = "true".toList then .ok (.flag true, rest)
  else if word = "false".toList then .ok (.flag false, rest)
  else
    match readInteger word with
    | some n => .ok (.integer n, rest)
    | none =>
      if isReal word then .ok (.real (String.ofList word), rest)
      else if isMoment word then .ok (.moment (String.ofList word), rest)
      else .error .badNumber

end Reckon.Toml
