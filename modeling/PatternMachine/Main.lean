import PatternMachine.CommandLine.Run

/-!
# The command

Reads its arguments and the first line of standard input, and shows what `CommandLine.run?` says.
-/

set_option autoImplicit false

namespace PatternMachine.CommandLine

/-- Reads standard input up to the first newline, or to its end. -/
partial def readLine (input : IO.FS.Stream) (read : ByteArray) : IO ByteArray := do
  let chunk ← input.read 4096
  if chunk.isEmpty then return read
  let read := read ++ chunk
  if chunk.toList.contains 10 then return read
  readLine input read

/-- The number of steps after which the command gives up; no machine gets there. -/
def patience : Nat := UInt64.size / 4

/-- Shows an outcome. -/
def finish (outcome : Outcome) : IO UInt32 := do
  IO.print outcome.stdout
  IO.eprint outcome.stderr
  return outcome.code.toUInt32

end PatternMachine.CommandLine

open PatternMachine.CommandLine in
/-- The command. -/
def main (arguments : List String) : IO UInt32 := do
  match Command.ofArguments? arguments with
  | some (.run a) =>
    match a.program with
    | .error outcome => finish outcome
    | .ok program =>
      let input ← readLine (← IO.getStdin) ByteArray.empty
      finish ((a.search? patience program input).getD usageOutcome)
  | some .version => finish versionOutcome
  | none => finish usageOutcome
