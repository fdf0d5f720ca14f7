import PatternMachine.Program.Link
import Std.Data.ExtTreeMap

/-!
# The state of a search

* `Registers`, `Frame` — the registers, and what a pending call keeps of them.
* `Activation`, `GroupState` — the counter and the records of a group, and those that are put aside
  while the same group is entered again.
* `Cursor` — all of it: two searches of one subject that have the same cursor go on alike.

Main statement: `group?_setGroup` says that setting the state of a group changes that group alone.
-/

set_option autoImplicit false

namespace PatternMachine

/-- The bytes that are searched. -/
abbrev Subject := Array UInt8

/-- Registers hold numbers below this bound, which is `2 ^ 64`. -/
def wordSize : Nat := 0x1_0000_0000_0000_0000

/-- The registers of the machine. -/
structure Registers where
  pos : Nat
  rep : Nat
  maxrep : Nat
  deriving DecidableEq, Repr

namespace Registers

/-- All registers at 0. -/
def zero : Registers := ⟨0, 0, 0⟩

/-- The value of a register. -/
def get (rs : Registers) : Register → Nat
  | .pos => rs.pos
  | .rep => rs.rep
  | .maxrep => rs.maxrep

/-- The registers with another value in one of them. -/
def set (rs : Registers) (r : Register) (value : Nat) : Registers :=
  match r with
  | .pos => { rs with pos := value }
  | .rep => { rs with rep := value }
  | .maxrep => { rs with maxrep := value }

end Registers

/-- A pending call: where to go on, and the registers to take back. -/
structure Frame where
  returnTo : Nat
  saved : Registers
  deriving DecidableEq, Repr

/-- One stay in a group: how many repetitions were begun, and the recorded positions with the latest
first. -/
structure Activation where
  count : Nat
  marks : List Nat
  deriving DecidableEq, Repr

/-- A stay that has just begun. -/
def Activation.new : Activation := ⟨0, []⟩

/-- The state of a group: the stay at hand, and those put aside with the latest first. -/
structure GroupState where
  current : Activation
  outer : List Activation
  deriving DecidableEq, Repr

namespace GroupState

/-- The state of a group that was never entered. -/
def new : GroupState := ⟨.new, []⟩

/-- Puts the stay at hand aside and begins a new one. -/
def enter (g : GroupState) : GroupState := ⟨.new, g.current :: g.outer⟩

/-- Takes back the stay that was put aside last. -/
def leave? (g : GroupState) : Option GroupState :=
  match g.outer with
  | [] => none
  | a :: outer => some ⟨a, outer⟩

/-- One more repetition is begun. -/
def countUp (g : GroupState) : GroupState :=
  { g with current := { g.current with count := (g.current.count + 1) % wordSize } }

/-- One repetition is taken back. -/
def countDown? (g : GroupState) : Option GroupState :=
  match g.current.count with
  | 0 => none
  | n + 1 => some { g with current := { g.current with count := n } }

/-- Records a position. -/
def push (g : GroupState) (pos : Nat) : GroupState :=
  { g with current := { g.current with marks := pos :: g.current.marks } }

/-- Forgets the position that was recorded last. -/
def pop? (g : GroupState) : Option GroupState :=
  match g.current.marks with
  | [] => none
  | _ :: marks => some { g with current := { g.current with marks := marks } }

@[simp] theorem leave?_enter (g : GroupState) : g.enter.leave? = some g := rfl

@[simp] theorem pop?_push (g : GroupState) (pos : Nat) : (g.push pos).pop? = some g := rfl

theorem countDown?_countUp {g : GroupState} (h : g.current.count + 1 < wordSize) :
    g.countUp.countDown? = some g := by
  simp [countUp, countDown?, Nat.mod_eq_of_lt h]

end GroupState

/-- Where a search stands. -/
inductive Stage where
  /-- Not begun. -/
  | fresh
  /-- Stopped at a match; going on means failing there. -/
  | suspended
  /-- There is no further match. -/
  | exhausted
  deriving DecidableEq, Repr

/-- All that is needed to go on with a search. -/
structure Cursor where
  /-- The index of the next instruction. -/
  ip : Nat
  registers : Registers
  /-- The pending calls, the latest last. -/
  frames : Array Frame
  groups : Std.ExtTreeMap NodeId GroupState
  stage : Stage
  deriving DecidableEq

namespace Cursor

/-- The cursor of a search that has not begun. -/
def new : Cursor := ⟨0, .zero, #[], ∅, .fresh⟩

/-- The position in the subject. -/
def position (c : Cursor) : Nat := c.registers.pos

/-- The number of pending calls. -/
def depth (c : Cursor) : Nat := c.frames.size

/-- The state of a group, if the group was ever entered. -/
def group? (c : Cursor) (id : NodeId) : Option GroupState := c.groups[id]?

/-- The cursor with another state of a group. -/
def setGroup (c : Cursor) (id : NodeId) (g : GroupState) : Cursor :=
  { c with groups := c.groups.insert id g }

theorem group?_setGroup (c : Cursor) (id other : NodeId) (g : GroupState) :
    (c.setGroup id g).group? other = if id = other then some g else c.group? other := by
  simp [group?, setGroup, Std.ExtTreeMap.getElem?_insert]

end Cursor

end PatternMachine
