import PatternMachine.Program.Label
import PatternMachine.Text.Quoted

/-!
# Instructions

* `Register`, `Operand`, `Comparison`, `Condition` — what instructions speak of.
* `Instruction` — one step of a program.
* `Instruction.text` — its line in the listing.
* `Instruction.target?` — the label that it jumps to; `Instruction.label?` — the one it defines.
-/

set_option autoImplicit false

namespace PatternMachine

/-- The registers of the machine. -/
inductive Register where
  /-- The position in the subject. -/
  | pos
  /-- How often the unit at hand has been repeated. -/
  | rep
  /-- How often the unit at hand can be repeated at most. -/
  | maxrep
  deriving DecidableEq, Repr

/-- The name of a register. -/
def Register.text : Register → String
  | .pos => "pos"
  | .rep => "rep"
  | .maxrep => "maxrep"

/-- A value that an instruction takes. -/
inductive Operand where
  | imm (value : Nat)
  | register (register : Register)
  /-- The length of the subject. -/
  | lastPos
  /-- The length of the subject less the position, zero at least. -/
  | remaining
  deriving DecidableEq, Repr

/-- An operand in the listing. -/
def Operand.text : Operand → String
  | .imm value => toString value
  | .register r => r.text
  | .lastPos => "lastpos"
  | .remaining => "lastpos - pos"

/-- The six ways to compare two numbers. -/
inductive Comparison where
  | eq
  | ne
  | lt
  | le
  | gt
  | ge
  deriving DecidableEq, Repr

namespace Comparison

/-- Whether the comparison holds. -/
def test : Comparison → Nat → Nat → Bool
  | .eq, a, b => decide (a = b)
  | .ne, a, b => decide (a ≠ b)
  | .lt, a, b => decide (a < b)
  | .le, a, b => decide (a ≤ b)
  | .gt, a, b => decide (a > b)
  | .ge, a, b => decide (a ≥ b)

/-- A comparison in the listing. -/
def text : Comparison → String
  | .eq => "=="
  | .ne => "!="
  | .lt => "<"
  | .le => "<="
  | .gt => ">"
  | .ge => ">="

end Comparison

/-- What a branch depends on. -/
inductive Condition where
  | register (register : Register) (comparison : Comparison) (operand : Operand)
  /-- Compares the number of repetitions of a group. -/
  | count (group : NodeId) (comparison : Comparison) (value : Nat)
  /-- Whether the bytes stand at the position, or whether they do not. -/
  | literal (bytes : List UInt8) (expected : Bool)
  /-- Whether the byte at a distance from the position is a newline, or whether it is not. There is
  none outside the subject. -/
  | newline (offset : Int) (expected : Bool)
  deriving DecidableEq, Repr

/-- The sign of a test for equality, or for its opposite. -/
def equalityText (expected : Bool) : String := if expected then "==" else "!="

/-- The position at a distance, in the listing. -/
def offsetText (offset : Int) : String :=
  if offset = 0 then "pos"
  else if offset < 0 then "pos - " ++ toString offset.natAbs
  else "pos + " ++ toString offset.natAbs

/-- A condition in the listing. -/
def Condition.text : Condition → String
  | .register r comparison operand => r.text ++ " " ++ comparison.text ++ " " ++ operand.text
  | .count group comparison value =>
    "gr_rep[" ++ toString group.toNat ++ "] " ++ comparison.text ++ " " ++ toString value
  | .literal bytes expected =>
    "substr(target, pos, " ++ toString bytes.length ++ ") " ++ equalityText expected ++ " " ++
      Quoted.text bytes
  | .newline offset expected =>
    "target[" ++ offsetText offset ++ "] " ++ equalityText expected ++ " \"\\n\""

/-- One step of a program. -/
inductive Instruction where
  /-- Defines a label, and does nothing. -/
  | block (label : Label) (comment : Option String)
  | set (register : Register) (operand : Operand)
  | add (register : Register) (operand : Operand)
  | sub (register : Register) (operand : Operand)
  | branch (condition : Condition) (target : Label)
  | goto (target : Label)
  /-- Keeps the registers and jumps. Control comes back when all that is reachable there has
  failed. -/
  | call (target : Label)
  /-- Takes back the registers of the most recent call and goes on after it. -/
  | ret
  /-- Reports a match that ends at the position, and suspends the search. -/
  | yield
  /-- Reports that there is no further match. -/
  | exhausted
  /-- Puts the state of a group aside and begins a new one. -/
  | enter (group : NodeId) (capturing : Bool)
  /-- Takes back the state of a group that was put aside last. -/
  | leave (group : NodeId)
  | countUp (group : NodeId)
  | countDown (group : NodeId)
  /-- Records the position for a group. -/
  | pushPos (group : NodeId)
  /-- Forgets the position that was recorded last. -/
  | popPos (group : NodeId)
  /-- Sends a message to the journal. -/
  | trace (message : String)
  deriving DecidableEq, Repr

namespace Instruction

/-- A text, made 35 characters wide by spaces behind it. -/
def padded (text : String) : String :=
  text ++ String.ofList (List.replicate (35 - text.length) ' ')

/-- The line that defines a label. A comment begins behind the column of labels. -/
def blockText (label : Label) (comment : Option String) : String :=
  let head := (if label.isInner then "  " else "") ++ label.text ++ ":"
  match comment with
  | some comment => padded head ++ "# " ++ comment
  | none => head

/-- The name of the counter of a group. -/
def counterText (group : NodeId) : String := "gr_rep[" ++ toString group.toNat ++ "]"

/-- The name of the records of a group. -/
def recordText (group : NodeId) : String := "gr_cap[" ++ toString group.toNat ++ "]"

/-- The line of an instruction in the listing. -/
def text : Instruction → String
  | .block label comment => blockText label comment
  | .set r operand => "    " ++ r.text ++ " = " ++ operand.text
  | .add r operand =>
    if operand = .imm 1 then "    inc " ++ r.text
    else "    " ++ r.text ++ " += " ++ operand.text
  | .sub r operand =>
    if operand = .imm 1 then "    dec " ++ r.text
    else "    " ++ r.text ++ " -= " ++ operand.text
  | .branch condition target => "    if " ++ condition.text ++ " goto " ++ target.text
  | .goto target => "    goto " ++ target.text
  | .call target => "    bsr " ++ target.text
  | .ret => "    ret"
  | .yield => "    .yield(pos)"
  | .exhausted => "    .yield(-1)"
  | .enter group true => "    enter " ++ counterText group ++ ", " ++ recordText group
  | .enter group false => "    enter " ++ counterText group
  | .leave group => "    leave " ++ toString group.toNat
  | .countUp group => "    inc " ++ counterText group
  | .countDown group => "    dec " ++ counterText group
  | .pushPos group => "    push " ++ recordText group ++ ", pos"
  | .popPos group => "    pop " ++ recordText group
  | .trace message => "    trace " ++ Quoted.text message.toUTF8.toList

/-- The label that an instruction jumps to. -/
def target? : Instruction → Option Label
  | .branch _ target => some target
  | .goto target => some target
  | .call target => some target
  | _ => none

/-- The label that an instruction defines. -/
def label? : Instruction → Option Label
  | .block label _ => some label
  | _ => none

end Instruction

end PatternMachine
