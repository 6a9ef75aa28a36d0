import Reckon.Call.Catalog
import Reckon.Number.Arithmetic
import Reckon.Number.Reader

/-!
# The domain of numbers

Every value is a floating-point number.  The catalog holds the operators of arithmetic and the
functions of a pocket calculator.
-/

namespace Reckon

/-- The one kind of numbers. -/
inductive NumberKind where
  | number
deriving DecidableEq

def numbers : Domain where
  Kind := NumberKind
  Value := Float
  kindsDecidable := inferInstance
  kindLabel := fun _ => "number"
  kindOf := fun _ => .number
  readLiteral := Number.read?
  assignable := fun _ _ => true

namespace Number

def unaryOverload (run : Float → Except String Float) : Overload numbers where
  inputs := .ofPositions [[NumberKind.number]]
  output := NumberKind.number
  run := fun
    | [x], _ => run x
    | _, _ => .error "one argument expected"

def binaryOverload (run : Float → Float → Except String Float) : Overload numbers where
  inputs := .ofPositions [[NumberKind.number], [NumberKind.number]]
  output := NumberKind.number
  run := fun
    | [x, y], _ => run x y
    | _, _ => .error "two arguments expected"

/-- One or more numbers. -/
def listOverload (run : List Float → Float) : Overload numbers where
  inputs := .ofEnds none [NumberKind.number] none 1
  output := NumberKind.number
  run := fun xs _ => .ok (run xs)

def constantOverload (x : Float) : Overload numbers where
  inputs := .nullary
  output := NumberKind.number
  run := fun _ _ => .ok x

def unary (name : String) (run : Float → Except String Float) : Callable numbers :=
  { name := name, overloads := [unaryOverload run] }

def binary (name : String) (run : Float → Float → Except String Float) : Callable numbers :=
  { name := name, overloads := [binaryOverload run] }

/-- Digits that are written as a literal or a variable must be written as a small whole number. -/
def checkDigits (arguments : List (Argument NumberKind)) : Except String Unit :=
  match arguments with
  | _ :: digits :: _ =>
    match digits.text with
    | none => .ok ()
    | some text =>
      match readByte? text with
      | some _ => .ok ()
      | none => .error s!"digits must be a whole number from 0 to 255, got `{text}`"
  | _ => .ok ()

def operators : List (Callable numbers) :=
  [binary "+" fun x y => .ok (x + y),
    binary "-" fun x y => .ok (x - y),
    binary "*" fun x y => .ok (x * y),
    binary "/" divide,
    binary "%" remainder,
    binary "^" power]

def unaries : List (Callable numbers) :=
  [unary "-" fun x => .ok (-x), unary "+" .ok, unary "!" factorial]

def functions : List (Callable numbers) :=
  [unary "abs" fun x => .ok x.abs,
    unary "sqrt" squareRoot,
    { name := "ln", aliases := ["log"], overloads := [unaryOverload logarithm] },
    unary "exp" fun x => finite x.exp "exp",
    unary "sin" fun x => .ok x.sin,
    unary "cos" fun x => .ok x.cos,
    unary "tan" fun x => .ok x.tan,
    unary "floor" fun x => .ok x.floor,
    unary "ceil" fun x => .ok x.ceil,
    { name := "round"
      overloads :=
        [unaryOverload fun x => .ok x.round,
          { binaryOverload (fun x digits => .ok (roundTo x digits)) with
            validate := checkDigits }] },
    binary "pow" power,
    { name := "min", overloads := [listOverload smallest] },
    { name := "max", overloads := [listOverload largest] },
    { name := "sum", overloads := [listOverload sum] },
    { name := "avg", aliases := ["mean"], overloads := [listOverload mean] },
    { name := "pi", overloads := [constantOverload 3.141592653589793] },
    { name := "e", overloads := [constantOverload 2.718281828459045] }]

/-- The catalog of the command line. -/
def catalog : Except CatalogError (Catalog numbers) :=
  Catalog.build ⟨functions, operators, unaries, []⟩

end Number

end Reckon
