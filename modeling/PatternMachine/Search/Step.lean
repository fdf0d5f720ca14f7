import PatternMachine.Search.Report

/-!
# One step of the machine

* `RuntimeError` — why a search goes wrong.
* `Operand.eval`, `Condition.eval` — what instructions read.
* `Step`, `Answer` — what one instruction leads to.
* `Cursor.execute`, `Cursor.step` — the effect of one instruction.

The cursor is moved past an instruction before it is carried out, and stays there when the
instruction goes wrong. A search that went wrong is exhausted.

Main statement: `occursAt_iff` says that bytes stand at an offset if the subject has room for them
there and agrees with them one by one.
-/

set_option autoImplicit false

namespace PatternMachine

/-- Why a search goes wrong. -/
inductive RuntimeError where
  /-- The number of steps for one answer is used up. -/
  | fuelExhausted (limit : UInt32)
  /-- More calls are pending than allowed. -/
  | callDepthExceeded (limit : UInt32)
  /-- There is no instruction at this index. -/
  | invalidJump (ip : Nat)
  | returnWithoutCall
  /-- A register would become negative or reach the word size. -/
  | registerOverflow (register : Register)
  /-- A group would have fewer repetitions than none. -/
  | countUnderflow
  /-- A group is used that was not entered, or more often left than entered. -/
  | inactiveGroup (group : NodeId)
  deriving DecidableEq, Repr

/-- The error in words. -/
def RuntimeError.message : RuntimeError → String
  | .fuelExhausted limit =>
    "execution fuel exhausted after " ++ toString limit.toNat ++ " steps"
  | .callDepthExceeded limit => "call depth limit of " ++ toString limit.toNat ++ " exceeded"
  | .invalidJump ip => "instruction pointer " ++ toString ip ++ " is out of range"
  | .returnWithoutCall => "return with an empty call stack"
  | .registerOverflow r => "register `" ++ r.text ++ "` went out of range"
  | .countUnderflow => "register `gr_rep` went out of range"
  | .inactiveGroup group => "group " ++ toString group.toNat ++ " has no active state"

/-- The index at which a jump to a label fails that has no place in the code. -/
def nowhere : Nat := wordSize - 1

/-- What an answer to the question for the next match can be. -/
inductive Answer where
  | found (found : Match)
  /-- There is no further match. -/
  | exhausted
  | failed (error : RuntimeError)
  deriving DecidableEq

/-- What one instruction leads to. -/
inductive Step where
  | running (cursor : Cursor)
  | halted (cursor : Cursor) (answer : Answer)
  deriving DecidableEq

/-! ## What instructions read -/

/-- The value of an operand. -/
def Operand.eval (subject : Subject) (rs : Registers) : Operand → Nat
  | .imm value => value
  | .register r => rs.get r
  | .lastPos => subject.size
  | .remaining => subject.size - rs.pos

/-- Whether bytes stand in the subject from an offset on. -/
def occursAt (subject : Subject) : List UInt8 → Nat → Bool
  | [], offset => decide (offset ≤ subject.size)
  | b :: bytes, offset => subject[offset]? == some b && occursAt subject bytes (offset + 1)

/-- Bytes stand at an offset if there is room for them and they agree with the subject. -/
theorem occursAt_iff {subject : Subject} {bytes : List UInt8} {offset : Nat} :
    occursAt subject bytes offset = true ↔
      offset + bytes.length ≤ subject.size ∧
        ∀ i (hi : i < bytes.length), subject[offset + i]? = some bytes[i] := by
  induction bytes generalizing offset with
  | nil => simp [occursAt]
  | cons b bytes ih =>
    simp only [occursAt, Bool.and_eq_true, beq_iff_eq, ih, List.length_cons]
    constructor
    · rintro ⟨hb, hlen, hall⟩
      refine ⟨by omega, fun i hi => ?_⟩
      cases i with
      | zero => simpa using hb
      | succ i =>
        have := hall i (by omega)
        rw [show offset + (i + 1) = offset + 1 + i by omega]
        simpa using this
    · rintro ⟨hlen, hall⟩
      refine ⟨by simpa using hall 0 (by omega), by omega, fun i hi => ?_⟩
      have := hall (i + 1) (by omega)
      rw [show offset + 1 + i = offset + (i + 1) by omega]
      simpa using this

/-- Whether the byte at a distance from a position is a newline. -/
def newlineAt (subject : Subject) (pos : Nat) (offset : Int) : Bool :=
  match (pos : Int) + offset with
  | .ofNat i => subject[i]? == some 10
  | .negSucc _ => false

/-- Whether a condition holds. -/
def Condition.eval (subject : Subject) (c : Cursor) : Condition → Except RuntimeError Bool
  | .register r comparison operand =>
    .ok (comparison.test (c.registers.get r) (operand.eval subject c.registers))
  | .count group comparison value =>
    match c.group? group with
    | some g => .ok (comparison.test g.current.count value)
    | none => .error (.inactiveGroup group)
  | .literal bytes expected => .ok (occursAt subject bytes c.registers.pos == expected)
  | .newline offset expected => .ok (newlineAt subject c.registers.pos offset == expected)

/-! ## What instructions do -/

namespace Cursor

/-- The search goes wrong. -/
def fail (c : Cursor) (e : RuntimeError) : Step :=
  .halted { c with stage := .exhausted } (.failed e)

/-- Jumps to a label. -/
def jump (c : Cursor) (p : Program) (target : Label) : Step :=
  match p.resolve? target with
  | some ip => .running { c with ip := ip }
  | none => c.fail (.invalidJump nowhere)

/-- Changes a register. -/
def setRegister (c : Cursor) (r : Register) (value : Nat) : Cursor :=
  { c with registers := c.registers.set r value }

/-- Goes on with the new state of a group; without one the group is not active. -/
def withGroup (c : Cursor) (id : NodeId) (g : Option GroupState) (e : RuntimeError) : Step :=
  match g with
  | some g => .running (c.setGroup id g)
  | none => c.fail e

/-- The limit on pending calls, if it is reached. -/
def reachedDepth? (c : Cursor) (depth : Option UInt32) : Option UInt32 :=
  depth.filter fun limit => decide (limit.toNat ≤ c.frames.size)

/-- Carries out the instruction that stood at index `here`, past which the cursor has moved. -/
def execute (p : Program) (subject : Subject) (depth : Option UInt32) (here : Nat) (c : Cursor) :
    Instruction → Step
  | .block _ _ => .running c
  | .trace _ => .running c
  | .set r operand => .running (c.setRegister r (operand.eval subject c.registers))
  | .add r operand =>
    let value := c.registers.get r + operand.eval subject c.registers
    if value < wordSize then .running (c.setRegister r value) else c.fail (.registerOverflow r)
  | .sub r operand =>
    let value := operand.eval subject c.registers
    if value ≤ c.registers.get r then .running (c.setRegister r (c.registers.get r - value))
    else c.fail (.registerOverflow r)
  | .branch condition target =>
    match condition.eval subject c with
    | .ok true => c.jump p target
    | .ok false => .running c
    | .error e => c.fail e
  | .goto target => c.jump p target
  | .call target =>
    match c.reachedDepth? depth with
    | some limit => c.fail (.callDepthExceeded limit)
    | none =>
      let frame : Frame := ⟨c.ip, c.registers⟩
      { c with frames := c.frames.push frame }.jump p target
  | .ret =>
    match c.frames.back? with
    | some frame =>
      .running { c with
        ip := frame.returnTo
        registers := frame.saved
        frames := c.frames.pop }
    | none => c.fail .returnWithoutCall
  | .yield =>
    let found := c.report p.captures
    .halted { c with stage := .suspended } (.found found)
  | .exhausted => .halted { c with ip := here, stage := .exhausted } .exhausted
  | .enter group _ => .running (c.setGroup group ((c.group? group).getD .new).enter)
  | .leave group =>
    c.withGroup group ((c.group? group).bind GroupState.leave?) (.inactiveGroup group)
  | .countUp group =>
    c.withGroup group ((c.group? group).map GroupState.countUp) (.inactiveGroup group)
  | .countDown group =>
    match c.group? group with
    | some g => c.withGroup group g.countDown? .countUnderflow
    | none => c.fail (.inactiveGroup group)
  | .pushPos group =>
    c.withGroup group ((c.group? group).map fun g => g.push c.registers.pos)
      (.inactiveGroup group)
  | .popPos group =>
    c.withGroup group ((c.group? group).bind GroupState.pop?) (.inactiveGroup group)

/-- Carries out the next instruction. -/
def step (p : Program) (subject : Subject) (depth : Option UInt32) (c : Cursor) : Step :=
  let here := c.ip
  match p.code[here]? with
  | some i => execute p subject depth here { c with ip := here + 1 } i
  | none => c.fail (.invalidJump here)

end Cursor

end PatternMachine
