import Reckon.Call.Catalog
import Reckon.Number.Arithmetic
import Reckon.Number.Reader

/-!
# The domain of scalars

Integers of 64 bits, floating-point numbers and texts, with a few operations on lists of them from
which the functions of a catalog can be made, and objections by which calls can be refused.
-/

namespace Reckon

inductive ScalarKind where
  | int
  | real
  | text
  | any
deriving DecidableEq

namespace ScalarKind

def label : ScalarKind → String
  | int => "int"
  | real => "real"
  | text => "text"
  | any => "any"

def all : List ScalarKind := [int, real, text, any]

def ofLabel? (label : String) : Option ScalarKind := all.find? (·.label == label)

/-- An integer may stand for a number, and everything for anything. -/
def assignable (src target : ScalarKind) : Bool :=
  src == target || target == any || (src == int && target == real)

end ScalarKind

inductive Scalar where
  | int (value : Int)
  | real (value : Float)
  | text (value : String)

namespace Scalar

def kind : Scalar → ScalarKind
  | int _ => .int
  | real _ => .real
  | text _ => .text

def display : Scalar → String
  | int value => toString value
  | real value => Number.text value
  | text value => value

/-- Whether an integer can be kept in 64 bits. -/
def fits (value : Int) : Bool :=
  decide (Int64.minValue.toInt ≤ value) && decide (value ≤ Int64.maxValue.toInt)

/-- Quoted texts, numbers with a point, integers. -/
def read? (written : String) : Option Scalar :=
  let cs := written.toList
  if 2 ≤ written.utf8ByteSize ∧ cs.head? = some '\'' ∧ cs.getLast? = some '\'' then
    some (text (String.ofList (cs.drop 1).dropLast))
  else if '.' ∈ cs then (Number.read? written).map real
  else
    match Number.readInteger? written with
    | some value => if fits value then some (int value) else none
    | none => none

/-- The value of a text that need not be a literal. -/
def ofText (written : String) : Scalar := (read? written).getD (text written)

end Scalar

def scalars : Domain where
  Kind := ScalarKind
  Value := Scalar
  kindsDecidable := inferInstance
  kindLabel := ScalarKind.label
  kindOf := Scalar.kind
  readLiteral := Scalar.read?
  assignable := ScalarKind.assignable

namespace Scalar

/-! ### Operations -/

inductive Operation where
  /-- Tells the call: name, position and arguments. -/
  | tell
  | constant (value : Scalar)
  | first
  | last
  | count
  | sum
  | product
  | negate
  /-- Always fails, under this name. -/
  | fail (name : String)

def integers : List Scalar → Option (List Int)
  | [] => some []
  | int i :: vs => (integers vs).map (i :: ·)
  | _ :: _ => none

def toFloat : Scalar → Except String Float
  | int i => .ok (Float.ofInt i)
  | real x => .ok x
  | text _ => .error "not a number"

/-- Folds integers from left to right; no intermediate result may leave 64 bits. -/
def foldIntegers (op : Int → Int → Int) (start : Int) (is : List Int) : Except String Int :=
  is.foldlM (fun a i => if fits (op a i) then .ok (op a i) else .error "integer overflow") start

/-- Folds integers as such, and anything else as floating-point numbers. -/
def fold (intOp : Int → Int → Int) (intStart : Int) (realOp : Float → Float → Float)
    (realStart : Float) (vs : List Scalar) : Except String Scalar :=
  match integers vs with
  | some is => (foldIntegers intOp intStart is).map int
  | none => (vs.foldlM (fun a v => (toFloat v).map (realOp a)) realStart).map real

def Operation.run : Operation → List Scalar → CallSite → Except String Scalar
  | tell, vs, site =>
    let place := match site.position with
      | some position => toString position
      | none => "-"
    let listing := Text.joinWith ";" (vs.map display)
    .ok (text s!"{site.name}@{place}({listing})")
  | constant v, _, _ => .ok v
  | first, vs, _ => match vs.head? with
    | some v => .ok v
    | none => .error "no arguments"
  | last, vs, _ => match vs.getLast? with
    | some v => .ok v
    | none => .error "no arguments"
  | count, vs, _ => .ok (int vs.length)
  | sum, vs, _ => fold (· + ·) 0 (· + ·) 0.0 vs
  | product, vs, _ => fold (· * ·) 1 (· * ·) 1.0 vs
  | negate, [int i], _ => if fits (-i) then .ok (int (-i)) else .error "integer overflow"
  | negate, [real x], _ => .ok (real (-x))
  | negate, _, _ => .error "not a number"
  | fail name, vs, _ => .error s!"{name} of {vs.length} arguments"

/-! ### Objections -/

inductive Objection where
  /-- Some argument has this text. -/
  | text (text : String)
  /-- Some argument has this kind. -/
  | kind (kind : ScalarKind)
  | moreThan (count : Nat)
  /-- Some argument is neither a literal nor a variable. -/
  | computed

namespace Objection

def applies (arguments : List (Argument ScalarKind)) : Objection → Bool
  | text t => arguments.any fun a => a.text == some t
  | kind k => arguments.any fun a => a.kind == k
  | moreThan count => decide (count < arguments.length)
  | computed => arguments.any fun a => a.text.isNone

def reason : Objection → String
  | text t => s!"text {t}"
  | kind k => s!"kind {k.label}"
  | moreThan count => s!"more than {count}"
  | computed => "computed"

/-- Refuses a call if there is an objection that applies. -/
def validate (objection : Option Objection) (arguments : List (Argument ScalarKind)) :
    Except String Unit :=
  match objection with
  | some o => if o.applies arguments then .error o.reason else .ok ()
  | none => .ok ()

end Objection

end Scalar

end Reckon
