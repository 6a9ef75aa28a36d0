import Reckon.Call.Arity
import Reckon.OrderedMap

/-!
# Contracts

The arities that names are declared with.  They are kept in four tables, and a name that stands in
several counts as what the first of them says: `custom`, `fixed`, `least`, `bounded`.
-/

namespace Reckon

structure Contracts where
  custom : OrderedMap Nat
  fixed : OrderedMap Nat
  least : OrderedMap Nat
  bounded : OrderedMap (Nat × Nat)

namespace Contracts

def empty : Contracts := ⟨∅, ∅, ∅, ∅⟩

def setCustom (c : Contracts) (name : String) (count : Nat) : Contracts :=
  { c with custom := c.custom.insert name count }

def setFixed (c : Contracts) (name : String) (count : Nat) : Contracts :=
  { c with fixed := c.fixed.insert name count }

def setLeast (c : Contracts) (name : String) (least : Nat) : Contracts :=
  { c with least := c.least.insert name least }

/-- Bounds in the wrong order allow the lower one only. -/
def setBounds (c : Contracts) (name : String) (least most : Nat) : Contracts :=
  { c with bounded := c.bounded.insert name (least, max most least) }

/-- Puts an arity into the table of its sort. -/
def set (c : Contracts) (name : String) : Arity → Contracts
  | .fixed count => c.setFixed name count
  | .atLeast least => c.setLeast name least
  | .between least most => c.setBounds name least most

/-- Takes a name out of every table. -/
def forget (c : Contracts) (name : String) : Contracts :=
  ⟨c.custom.erase name, c.fixed.erase name, c.least.erase name, c.bounded.erase name⟩

def arity? (c : Contracts) (name : String) : Option Arity :=
  ((c.custom.get? name).map Arity.fixed).or <|
    ((c.fixed.get? name).map Arity.fixed).or <|
      ((c.least.get? name).map Arity.atLeast).or <|
        (c.bounded.get? name).map fun b => Arity.between b.1 b.2

/-- The names of all tables, one table after the other. -/
def names (c : Contracts) : List String :=
  c.custom.keys ++ c.fixed.keys ++ c.least.keys ++ c.bounded.keys

def isEmpty (c : Contracts) : Bool :=
  c.custom.isEmpty && c.fixed.isEmpty && c.least.isEmpty && c.bounded.isEmpty

end Contracts

end Reckon
