/-!
# Arities

How many arguments a call may have.  `merge` gives the narrowest arity that allows what either of
two arities allows.
-/

namespace Reckon

inductive Arity where
  | fixed (count : Nat)
  | atLeast (least : Nat)
  /-- Nothing is accepted if `most` is below `least`. -/
  | between (least most : Nat)
deriving DecidableEq

namespace Arity

def accepts : Arity → Nat → Bool
  | fixed n, count => count == n
  | atLeast least, count => decide (least ≤ count)
  | between least most, count => decide (least ≤ count) && decide (count ≤ most)

def minimum : Arity → Nat
  | fixed n => n
  | atLeast least => least
  | between least _ => least

/-- The largest count, if there is one. -/
def maximum : Arity → Option Nat
  | fixed n => some n
  | atLeast _ => none
  | between _ most => some most

def merge (a b : Arity) : Arity :=
  let least := min a.minimum b.minimum
  match a.maximum, b.maximum with
  | some m, some n => if max m n = least then fixed least else between least (max m n)
  | _, _ => atLeast least

instance : ToString Arity :=
  ⟨fun
    | fixed n => s!"{n}"
    | atLeast least => s!"at least {least}"
    | between least most => s!"{least} to {most}"⟩

end Arity

end Reckon
