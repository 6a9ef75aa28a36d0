import Reckon.Text.Digit

/-!
# Reading numbers

`Number.read?` reads decimals with an optional fraction and exponent, and the words for infinity and
for no number.  `readInteger?` reads whole numbers.
-/

namespace Reckon.Number

/-- Takes off a sign; true stands for minus. -/
def splitSign : List Char → Bool × List Char
  | '-' :: cs => (true, cs)
  | '+' :: cs => (false, cs)
  | cs => (false, cs)

/-- The floating-point number nearest to `digits * 10 ^ exponent`.  Numbers far outside the range
of floating point are decided by their size alone. -/
def nearest (digits : Nat) (exponent : Int) : Float :=
  let magnitude := ((Nat.toDigits 10 digits).length : Int) + exponent
  if digits = 0 then 0.0
  else if 400 < magnitude then 1.0 / 0.0
  else if magnitude < -400 then 0.0
  else if 0 ≤ exponent then Float.ofScientific digits false exponent.toNat
  else Float.ofScientific digits true (-exponent).toNat

/-- An exponent with its mark, or nothing. -/
def readExponent : List Char → Option Int
  | [] => some 0
  | c :: cs =>
    if c == 'e' || c == 'E' then
      let (negative, digits) := splitSign cs
      if digits.isEmpty || !digits.all Char.isDigit then none
      else
        let value : Int := Text.decimalValue digits
        some (if negative then -value else value)
    else none

/-- A decimal without sign. -/
def readDecimal (cs : List Char) : Option Float :=
  let whole := cs.takeWhile Char.isDigit
  let rest := cs.drop whole.length
  let (fraction, rest) :=
    match rest with
    | '.' :: rest => (rest.takeWhile Char.isDigit, rest.dropWhile Char.isDigit)
    | rest => ([], rest)
  if whole.isEmpty && fraction.isEmpty then none
  else
    (readExponent rest).map fun exponent =>
      nearest (Text.decimalValue (whole ++ fraction)) (exponent - fraction.length)

/-- A word, in upper or lower case. -/
def readWord (cs : List Char) : Option Float :=
  let word := String.ofList (cs.map Char.toLower)
  if word = "inf" ∨ word = "infinity" then some (1.0 / 0.0)
  else if word = "nan" then some (0.0 / 0.0)
  else none

/-- Reads a number; nothing may stand before or behind it. -/
def read? (text : String) : Option Float :=
  let (negative, cs) := splitSign text.toList
  ((readDecimal cs).or (readWord cs)).map fun x => if negative then -x else x

/-- Reads a whole number with an optional sign. -/
def readInteger? (text : String) : Option Int :=
  let (negative, digits) := splitSign text.toList
  if digits.isEmpty || !digits.all Char.isDigit then none
  else
    let value : Int := Text.decimalValue digits
    some (if negative then -value else value)

/-- Reads a whole number below `2 ^ 8`; a plus may stand before it, a minus may not. -/
def readByte? (text : String) : Option Nat :=
  let digits :=
    match text.toList with
    | '+' :: cs => cs
    | cs => cs
  if digits.isEmpty || !digits.all Char.isDigit || 256 ≤ Text.decimalValue digits then none
  else some (Text.decimalValue digits)

end Reckon.Number
