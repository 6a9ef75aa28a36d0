import Reckon.Number.Shortest

/-!
# Arithmetic on numbers

Operations that refuse what has no finite or no real result, instead of going on with infinities.
-/

namespace Reckon.Number

def infinity : Float := 1.0 / 0.0

def finite (x : Float) (what : String) : Except String Float :=
  if x.isFinite then .ok x else .error s!"{what} is not a finite number"

def divide (x y : Float) : Except String Float :=
  if y == 0.0 then .error "division by zero" else .ok (x / y)

/-- The remainder with the sign of `x`, computed without rounding; `y` is not zero. -/
def modulo (x y : Float) : Float :=
  if x.isNaN || y.isNaN || x.isInf then 0.0 / 0.0
  else if y.isInf then x
  else
    let p := parts x
    let q := parts y
    let exponent := min p.exponent q.exponent
    let rest := (p.mantissa * Nat.pow 2 (p.exponent - exponent).toNat) %
      (q.mantissa * Nat.pow 2 (q.exponent - exponent).toNat)
    let size := (Float.ofNat rest).scaleB exponent
    if p.negative then -size else size

def remainder (x y : Float) : Except String Float :=
  if y == 0.0 then .error "remainder by zero" else .ok (modulo x y)

/-- Whether a number has no fraction; infinities and what is no number do not count. -/
def isWhole (x : Float) : Bool := x.isFinite && x.floor == x

/-- The product of the numbers from one to `n`, the smallest first. -/
def productTo (n : Nat) : Float :=
  (List.range n).foldl (fun product i => product * Float.ofNat (i + 1)) 1.0

/-- The factorial.  From 171 on the product is infinite, so no more factors are taken. -/
def factorial (x : Float) : Except String Float :=
  if x < 0.0 || !isWhole x then
    .error s!"factorial needs a whole non-negative number, got {text x}"
  else finite (productTo (min x.toUInt64.toNat 171)) "factorial"

def squareRoot (x : Float) : Except String Float :=
  if x < 0.0 then .error s!"square root of negative number {text x}" else .ok x.sqrt

def logarithm (x : Float) : Except String Float :=
  if x <= 0.0 then .error s!"logarithm of non-positive number {text x}" else .ok x.log

def power (x y : Float) : Except String Float := finite (x.pow y) "power"

/-- A whole power of `x`, by squaring; the fuel bounds the bits of the exponent. -/
def wholePowerFrom (result x : Float) (n : Nat) : Nat → Float
  | 0 => result
  | fuel + 1 =>
    let result := if n % 2 = 1 then result * x else result
    if n / 2 = 0 then result else wholePowerFrom result (x * x) (n / 2) fuel

def wholePower (x : Float) (n : Int) : Float :=
  let size := wholePowerFrom 1.0 x n.natAbs 64
  if n < 0 then 1.0 / size else size

/-- The whole part as a signed number of 32 bits; out of range it stops at the ends. -/
def toWhole32 (x : Float) : Int :=
  if x.isNaN then 0
  else if x ≤ -2147483648.0 then -2147483648
  else if x ≥ 2147483647.0 then 2147483647
  else if x < 0.0 then -((-x).toUInt64.toNat : Int)
  else (x.toUInt64.toNat : Int)

/-- Rounds to a number of decimal places, halves away from zero. -/
def roundTo (x digits : Float) : Float :=
  let scale := wholePower 10.0 (toWhole32 digits)
  (x * scale).round / scale

/-- The smaller of two; what is no number loses. -/
def smaller (x y : Float) : Float := if y < x || x.isNaN then y else x

/-- The larger of two; what is no number loses. -/
def larger (x y : Float) : Float := if x < y || x.isNaN then y else x

def smallest (xs : List Float) : Float := xs.foldl smaller infinity

def largest (xs : List Float) : Float := xs.foldl larger (-infinity)

/-- The sum from left to right; of nothing it is minus zero, which adding leaves unseen. -/
def sum (xs : List Float) : Float := xs.foldl (· + ·) (-0.0)

def mean (xs : List Float) : Float := sum xs / Float.ofNat xs.length

end Reckon.Number
