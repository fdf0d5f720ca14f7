/-!
# The journal

What compiling and searching tell about their doings.

* `Severity`, `Message` — a line of the journal.
-/

set_option autoImplicit false

namespace PatternMachine

/-- How important a message is. -/
inductive Severity where
  | debug
  | trace
  deriving DecidableEq, Repr

/-- A line of the journal. -/
structure Message where
  severity : Severity
  content : String
  deriving DecidableEq, Repr

/-- A message with its severity in front. -/
def Message.text (m : Message) : String :=
  match m.severity with
  | .debug => "DEBUG " ++ m.content
  | .trace => "TRACE " ++ m.content

end PatternMachine
