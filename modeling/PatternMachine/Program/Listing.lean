import PatternMachine.Program.Instruction

/-!
# Listings

A listing is written line by line, beside the code.

* `Line` — an instruction, a comment, or a line marker.
* `Directive` — one thing to be written.
* `Listing` — the lines written so far and the place of the latest marker.
* `Assembly` — what a finished listing hands out: code and text.

Main statements: `size_emit`, `size_comment` and `size_mark` say by how much the number of lines
grows.
-/

set_option autoImplicit false

namespace PatternMachine

/-- One line of a listing. -/
inductive Line where
  | instruction (instruction : Instruction)
  | comment (text : String)
  /-- Says how many lines stand above it. -/
  | marker (above : Nat)
  deriving DecidableEq, Repr

namespace Line

/-- The line as text. -/
def text : Line → String
  | .instruction i => i.text
  | .comment text => text
  | .marker above => "# line " ++ toString above

/-- The instruction on the line, if it holds one. -/
def instruction? : Line → Option Instruction
  | .instruction i => some i
  | _ => none

end Line

/-- One thing to be written to a listing. -/
inductive Directive where
  | instruction (instruction : Instruction)
  | comment (text : String)
  /-- A place where a line marker may stand. -/
  | mark
  deriving DecidableEq, Repr

/-- The instruction that a directive writes. -/
def Directive.instruction? : Directive → Option Instruction
  | .instruction i => some i
  | _ => none

/-- What a finished listing hands out. -/
structure Assembly where
  code : List Instruction
  text : String
  deriving DecidableEq, Repr

/-- A listing that is being written. -/
structure Listing where
  /-- Whether line markers are written. -/
  markers : Bool
  lines : Array Line
  /-- The number of lines above the latest marker; 0 if there is none. -/
  marked : Nat
  deriving DecidableEq, Repr

namespace Listing

/-- The number of lines that may stand between two markers. -/
def markerInterval : Nat := 10

/-- A listing without a line. -/
def new (markers : Bool) : Listing := ⟨markers, #[], 0⟩

/-- The number of lines. -/
def size (l : Listing) : Nat := l.lines.size

/-- One more line. -/
def push (l : Listing) (line : Line) : Listing := { l with lines := l.lines.push line }

/-- Writes an instruction. -/
def emit (l : Listing) (i : Instruction) : Listing := l.push (.instruction i)

/-- Writes a line of text. -/
def comment (l : Listing) (text : String) : Listing := l.push (.comment text)

/-- Writes a line marker if markers are asked for and more lines than the interval have been
written since the latest one. -/
def mark (l : Listing) : Listing :=
  if l.markers = true ∧ l.marked + markerInterval < l.size then
    { l with marked := l.size }.push (.marker l.size)
  else l

/-- Carries out a directive. -/
def write (l : Listing) : Directive → Listing
  | .instruction i => l.emit i
  | .comment text => l.comment text
  | .mark => l.mark

/-- Carries out directives in order. -/
def writeAll (l : Listing) (ds : List Directive) : Listing := ds.foldl write l

/-- The instructions of the listing, in order. -/
def code (l : Listing) : List Instruction := l.lines.toList.filterMap Line.instruction?

/-- The whole text; every line ends in a newline. -/
def text (l : Listing) : String := l.lines.foldl (fun text line => text ++ line.text ++ "\n") ""

/-- Hands out all that was written and begins anew. -/
def take (l : Listing) : Assembly × Listing := (⟨l.code, l.text⟩, new l.markers)

@[simp] theorem size_new (markers : Bool) : (new markers).size = 0 := rfl

@[simp] theorem size_emit (l : Listing) (i : Instruction) : (l.emit i).size = l.size + 1 := by
  simp [emit, push, size]

@[simp] theorem size_comment (l : Listing) (text : String) :
    (l.comment text).size = l.size + 1 := by
  simp [comment, push, size]

theorem size_mark (l : Listing) :
    l.mark.size =
      if l.markers = true ∧ l.marked + markerInterval < l.size then l.size + 1 else l.size := by
  unfold mark
  split <;> simp [push, size]

/-- Directives write the code that they hold. -/
theorem code_writeAll (l : Listing) (ds : List Directive) :
    (l.writeAll ds).code = l.code ++ ds.filterMap Directive.instruction? := by
  induction ds generalizing l with
  | nil => simp [writeAll]
  | cons d ds ih =>
    have hd : (l.write d).code = l.code ++ d.instruction?.toList := by
      cases d with
      | instruction i => simp [write, emit, push, code, Line.instruction?, Directive.instruction?]
      | comment text => simp [write, comment, push, code, Line.instruction?, Directive.instruction?]
      | mark =>
        simp only [write, mark]
        split <;> simp [push, code, Line.instruction?, Directive.instruction?]
    rw [show l.writeAll (d :: ds) = (l.write d).writeAll ds from rfl, ih, hd]
    cases h : d.instruction? <;> simp [h]

end Listing

end PatternMachine
