import PatternMachine.Search.Cursor
import PatternMachine.Compilation.Compile

/-!
# Matches

* `Span` — a part of the subject.
* `spansOf` — the spans that a list of recorded positions stands for.
* `Captures` — the spans of every capture index that has any.
* `Match`, `report` — what a search that stops at a match says.

Main statement: `group_captures` says that the spans of an index are those of its groups, in the
order of the slots.
-/

set_option autoImplicit false

namespace PatternMachine

/-- The part of a subject from offset `start` up to offset `stop`. -/
structure Span where
  start : Nat
  stop : Nat
  deriving DecidableEq, Repr

/-- The spans of recorded positions, the earliest first: each two make a span, and a last one alone
makes none. -/
def spansOf : List Nat → List Span
  | start :: stop :: marks => ⟨start, stop⟩ :: spansOf marks
  | _ => []

/-- The spans of the current stay in a group. -/
def Activation.spans (a : Activation) : List Span := spansOf a.marks.reverse

/-- The spans of every capture index that has any. -/
abbrev Captures := Std.ExtTreeMap UInt32 (List Span)

namespace Captures

/-- The spans of an index. -/
def group (captures : Captures) (index : UInt32) : List Span := captures[index]?.getD []

/-- More spans for an index. -/
def append (captures : Captures) (index : UInt32) (spans : List Span) : Captures :=
  if spans.isEmpty then captures else captures.insert index (captures.group index ++ spans)

theorem group_append (captures : Captures) (index other : UInt32) (spans : List Span) :
    (captures.append index spans).group other =
      captures.group other ++ (if index = other then spans else []) := by
  unfold append
  split
  · next h => simp_all
  · by_cases hi : index = other
    · subst hi
      simp [group]
    · simp [group, Std.ExtTreeMap.getElem?_insert, hi]

/-- When spans are added slot by slot, an index gets those of its groups. -/
theorem group_foldl_append (spans : NodeId → List Span) (slots : List CaptureSlot)
    (start : Captures) (index : UInt32) :
    (slots.foldl (fun captures slot => captures.append slot.index (spans slot.group))
      start).group index =
    start.group index ++
      (slots.filter fun slot => slot.index == index).flatMap fun slot => spans slot.group := by
  induction slots generalizing start with
  | nil => simp
  | cons slot slots ih =>
    rw [List.foldl_cons, ih, group_append]
    by_cases h : slot.index = index <;> simp [h]

end Captures

/-- A match of a pattern. -/
structure Match where
  span : Span
  captures : Captures
  deriving DecidableEq

/-- The spans that the state of a group holds. -/
def Cursor.spans (c : Cursor) (id : NodeId) : List Span :=
  match c.group? id with
  | some g => g.current.spans
  | none => []

/-- The spans of all slots of a program, by index. -/
def Cursor.captures (c : Cursor) (slots : List CaptureSlot) : Captures :=
  slots.foldl (fun captures slot => captures.append slot.index (c.spans slot.group)) ∅

/-- The match at which a search stands. Its span is the last one of the whole match; where a program
records none, it is empty and at the position. -/
def Cursor.report (c : Cursor) (slots : List CaptureSlot) : Match :=
  let captures := c.captures slots
  ⟨(captures.group wholeMatch).getLast?.getD ⟨c.position, c.position⟩, captures⟩

/-- The spans of an index are those of its groups, slot by slot. -/
theorem group_captures (c : Cursor) (slots : List CaptureSlot) (index : UInt32) :
    (c.captures slots).group index =
      (slots.filter fun slot => slot.index == index).flatMap fun slot => c.spans slot.group := by
  have := Captures.group_foldl_append c.spans slots ∅ index
  simpa [Cursor.captures, Captures.group] using this

end PatternMachine
