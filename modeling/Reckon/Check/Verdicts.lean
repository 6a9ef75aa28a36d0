import Reckon.Diagnostic

/-!
# Verdicts

What a check looked at, sorted into what it found in order, what it found wrong and what it was told
to ignore.
-/

namespace Reckon

/-- The checks that can be run on an expression. -/
inductive Check where
  | parentheses
  | operands
  | emptyArguments
  | argumentCounts
  | separators
  | variableNames
  | functionNames
deriving DecidableEq

namespace Check

def label : Check → String
  | parentheses => "parentheses"
  | operands => "operands"
  | emptyArguments => "empty-arguments"
  | argumentCounts => "argument-counts"
  | separators => "separators"
  | variableNames => "variables"
  | functionNames => "functions"

/-- Every check, in the order in which reports list them. -/
def all : List Check :=
  [parentheses, operands, emptyArguments, argumentCounts, separators, variableNames, functionNames]

theorem mem_all (c : Check) : c ∈ all := by cases c <;> decide

def ofLabel? (text : String) : Option Check := all.find? (·.label == text)

/-- The checks that a list names, each once and in the order of reports. -/
def ordered (cs : List Check) : List Check := all.filter cs.contains

end Check

structure Verdicts (α : Type) where
  valid : List α
  invalid : List α
  ignored : List α
deriving DecidableEq

namespace Verdicts

variable {α : Type}

/-- Nothing was found wrong. -/
def passes (v : Verdicts α) : Bool := v.invalid.isEmpty

/-- Sorts items by a test. -/
def ofTest (test : α → Bool) (items : List α) : Verdicts α :=
  ⟨items.filter test, items.filter (fun a => !test a), []⟩

theorem passes_ofTest {test : α → Bool} {items : List α} :
    (ofTest test items).passes ↔ ∀ a ∈ items, test a := by
  simp [passes, ofTest]

end Verdicts

end Reckon
