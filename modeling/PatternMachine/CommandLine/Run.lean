import PatternMachine.CommandLine.Arguments
import PatternMachine.Compilation.Text
import PatternMachine.Search.Run

/-!
# Running the command

* `Outcome` — what a run leaves behind: an exit code and the text on both outputs.
* `Arguments.program` — the part before the subject is read.
* `Arguments.search?` — the part after it.
* `run?` — a whole run.

The exit code is 0 after a match, 1 without one and after an error, and 2 for arguments that have no
meaning.
-/

set_option autoImplicit false

namespace PatternMachine.CommandLine

/-- What a run leaves behind. -/
structure Outcome where
  code : UInt8
  stdout : String
  stderr : String
  deriving DecidableEq, Repr

/-- An error and, if there is one, what it was caused by. -/
def errorText (message : String) (cause : Option String) : String :=
  "Error: " ++ message ++ "\n" ++
  match cause with
  | some cause => "\nCaused by:\n    " ++ cause ++ "\n"
  | none => ""

/-- The run that shows the version. -/
def versionOutcome : Outcome := ⟨0, "rulec 0.1.0\n", ""⟩

/-- The run whose arguments have no meaning. -/
def usageOutcome : Outcome := ⟨2, "", ""⟩

namespace Arguments

/-- The choices for compiling. -/
def options (a : Arguments) : CompileOptions where
  lineMarkers := !a.noLineMarkers
  trace := a.trace

/-- The limits of the search. -/
def limits (a : Arguments) : Limits where
  fuel := a.fuel

/-- The program to search with, unless the run ends before it searches: with an error, or with the
listing if that is asked for. -/
def program (a : Arguments) : Except Outcome Program :=
  match compileText a.dialect a.pattern a.options with
  | .error e =>
    .error ⟨1, "", errorText ("failed to compile `" ++ a.pattern ++ "`") (some e.message)⟩
  | .ok program => if a.emit then .error ⟨0, program.text, ""⟩ else .ok program

end Arguments

/-- The first line of an input, without its newline. -/
def firstLine (input : ByteArray) : List UInt8 := input.toList.takeWhile (· != 10)

/-- A span as the command shows it. -/
def spanLine (s : Span) : String := toString s.start ++ ".." ++ toString s.stop ++ "\n"

/-- The exit code of a run that has found `count` matches. -/
def exitCode (count : Nat) : UInt8 := if count = 0 then 1 else 0

/-- The outcome of a search that showed the matches `found` and stopped. -/
def searchOutcome (all : Bool) (found : Array Match) (stop : Stop) : Outcome :=
  let stdout := if all then found.foldl (fun text m => text ++ spanLine m.span) "" else ""
  match stop with
  | .failed e => ⟨1, stdout, errorText e.message none⟩
  | _ => ⟨exitCode found.size, stdout, ""⟩

/-- The search on the first line of an input, which must be UTF-8: for the first match, or for all
of them. -/
def Arguments.search? (a : Arguments) (patience : Nat) (program : Program) (input : ByteArray) :
    Option Outcome :=
  let line := firstLine input
  match String.fromUTF8? ⟨line.toArray⟩ with
  | none =>
    some ⟨1, "", errorText "failed to read stdin" (some "stream did not contain valid UTF-8")⟩
  | some _ =>
    let search := Search.new program line.toArray a.limits
    (search.collect? patience (if a.all then patience else 1) #[]).map fun r =>
      searchOutcome a.all r.1 r.2.1

/-- A whole run with the given arguments and input; nothing if patience ends before. -/
def run? (patience : Nat) (arguments : List String) (input : ByteArray) : Option Outcome :=
  match Command.ofArguments? arguments with
  | none => some usageOutcome
  | some .version => some versionOutcome
  | some (.run a) =>
    match a.program with
    | .error outcome => some outcome
    | .ok program => a.search? patience program input

end PatternMachine.CommandLine
