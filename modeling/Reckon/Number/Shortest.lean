import Reckon.Number.Parts

/-!
# Shortest decimals

The decimal with the fewest digits among those that round to a given floating-point number, and of
these the one nearest to it.  Grids of decimals are tried from coarse to fine: if some point of a
grid rounds to the number, then so does one of the two points next to the number.
-/

namespace Reckon.Number

/-- The decimals that round to a number, as the ratios between `low / den` and `high / den`; the
ends belong to it if `closed`. -/
structure Rounding where
  low : Nat
  value : Nat
  high : Nat
  den : Nat
  closed : Bool

/-- Half of the way to each neighbour; the ends round to the number if its mantissa is even. -/
def Parts.rounding (p : Parts) : Rounding :=
  let up := Nat.pow 2 (p.exponent - 2).toNat
  ⟨(4 * p.mantissa - if p.isNarrow then 1 else 2) * up, 4 * p.mantissa * up,
    (4 * p.mantissa + 2) * up, Nat.pow 2 (2 - p.exponent).toNat, p.mantissa % 2 == 0⟩

/-- A non-negative decimal, `digits * 10 ^ exponent`. -/
structure Decimal where
  digits : Nat
  exponent : Int
deriving DecidableEq

/-- The same decimal without zeros at the end of its digits. -/
def Decimal.stripped (digits : Nat) (exponent : Int) : Decimal :=
  if 0 < digits ∧ digits % 10 = 0 then stripped (digits / 10) (exponent + 1)
  else ⟨digits, exponent⟩
termination_by digits
decreasing_by omega

namespace Rounding

/-- Whether a decimal rounds to the number. -/
def holds (r : Rounding) (d : Decimal) : Bool :=
  let point := d.digits * Nat.pow 10 d.exponent.toNat * r.den
  let scale := Nat.pow 10 (-d.exponent).toNat
  if r.closed then decide (r.low * scale ≤ point) && decide (point ≤ r.high * scale)
  else decide (r.low * scale < point) && decide (point < r.high * scale)

/-- The largest decimal of the grid with this exponent that is not above the number. -/
def below (r : Rounding) (exponent : Int) : Decimal :=
  ⟨r.value * Nat.pow 10 (-exponent).toNat / (r.den * Nat.pow 10 exponent.toNat), exponent⟩

/-- Whether the number lies nearer to `d` than to the next decimal of the same grid. -/
def isNearer (r : Rounding) (d : Decimal) : Bool :=
  let scale := Nat.pow 10 (-d.exponent).toNat
  let step := Nat.pow 10 d.exponent.toNat * r.den
  decide (2 * (r.value * scale) < (2 * d.digits + 1) * step)

/-- Tries ever finer grids; a number halfway between two decimals goes up. -/
def search (r : Rounding) (exponent : Int) : Nat → Decimal
  | 0 => r.below exponent
  | fuel + 1 =>
    let d := r.below exponent
    let e : Decimal := ⟨d.digits + 1, exponent⟩
    match r.holds d, r.holds e with
    | true, true => if r.isNearer d then d else e
    | true, false => d
    | false, true => e
    | false, false => search r (exponent - 1) fuel

/-- The place of the first digit of the number. -/
def leading (r : Rounding) : Int :=
  if r.den ≤ r.value then ((Nat.toDigits 10 (r.value / r.den)).length : Int) - 1
  else -((Nat.toDigits 10 (r.den / r.value)).length : Int)

end Rounding

/-- The shortest decimal of a positive number.  Seventeen digits always suffice. -/
def Parts.shortest (p : Parts) : Decimal :=
  let r := p.rounding
  let d := r.search r.leading 18
  .stripped d.digits d.exponent

/-- The decimal without an exponent: as many zeros as it takes. -/
def Decimal.positional (d : Decimal) : String :=
  let written := Nat.toDigits 10 d.digits
  if 0 ≤ d.exponent then
    String.ofList (written ++ List.replicate d.exponent.toNat '0')
  else
    let places := (-d.exponent).toNat
    let padded := List.replicate (places + 1 - written.length) '0' ++ written
    let whole := padded.length - places
    String.ofList (padded.take whole ++ '.' :: padded.drop whole)

/-- How a number is written: shortest digits, never an exponent, and words for what is not
finite. -/
def text (x : Float) : String :=
  if x.isNaN then "NaN"
  else
    let p := parts x
    let sign := if p.negative then "-" else ""
    if x.isInf then sign ++ "inf"
    else if p.mantissa = 0 then sign ++ "0"
    else sign ++ p.shortest.positional

end Reckon.Number
