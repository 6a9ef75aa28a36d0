/-!
# Parts of a floating-point number

A finite number is a sign and `mantissa * 2 ^ exponent`.
-/

namespace Reckon.Number

structure Parts where
  negative : Bool
  mantissa : Nat
  exponent : Int
deriving DecidableEq

/-- The parts that 64 bits encode, if they encode a finite number. -/
def partsOfBits (bits : UInt64) : Parts :=
  let n := bits.toNat
  let exponent : Nat := n / Nat.pow 2 52 % Nat.pow 2 11
  let fraction : Nat := n % Nat.pow 2 52
  let negative := decide (Nat.pow 2 63 ≤ n)
  if exponent = 0 then ⟨negative, fraction, -1074⟩
  else ⟨negative, fraction + Nat.pow 2 52, (exponent : Int) - 1075⟩

def parts (x : Float) : Parts := partsOfBits x.toBits

/-- Whether the neighbour towards zero is only half as far as the one away from it. -/
def Parts.isNarrow (p : Parts) : Bool := p.mantissa == Nat.pow 2 52 && decide (-1074 < p.exponent)

end Reckon.Number
