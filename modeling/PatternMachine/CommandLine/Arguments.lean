import PatternMachine.Syntax.Error

/-!
# Command line arguments

* `Arguments` — what a run of the command is asked to do.
* `Piece` — what one argument says by itself.
* `Command.ofArguments?` — the meaning of a list of arguments, if it has one.

An option takes its value from the same argument, or else from the next one, which must not look
like an option. No option may be given twice.
-/

set_option autoImplicit false

namespace PatternMachine.CommandLine

/-- What a run is asked to do. -/
structure Arguments where
  pattern : String
  dialect : Dialect
  /-- Show the listing instead of searching. -/
  emit : Bool
  /-- Show the span of every match. -/
  all : Bool
  /-- Have the entered blocks told to the journal. -/
  trace : Bool
  /-- Leave line markers out of the listing. -/
  noLineMarkers : Bool
  /-- The number of steps for each match. -/
  fuel : Option UInt32
  deriving DecidableEq, Repr

/-- The meaning of a list of arguments. -/
inductive Command where
  /-- Show the version. -/
  | version
  | run (arguments : Arguments)
  deriving DecidableEq, Repr

/-- The options that take a value. -/
inductive ValueOption where
  | pattern
  | dialect
  | fuel
  deriving DecidableEq, Repr

/-- The options without a value. -/
inductive Flag where
  | emit
  | all
  | trace
  | noLineMarkers
  deriving DecidableEq, Repr

/-- What one argument says by itself. -/
inductive Piece where
  | valueOption (option : ValueOption) (attached : Option String)
  | flag (flag : Flag)
  | version
  /-- Two hyphens: there are no options behind them. -/
  | separator
  deriving DecidableEq, Repr

/-- The piece that a long option is, given its name and the value attached to it. Only options that
take a value may have one attached. -/
def longPiece? (name : String) (attached : Option String) : Option Piece :=
  if name = "pattern" then some (.valueOption .pattern attached)
  else if name = "syntax" then some (.valueOption .dialect attached)
  else if name = "fuel" then some (.valueOption .fuel attached)
  else if attached.isSome then none
  else if name = "emit" then some (.flag .emit)
  else if name = "all" then some (.flag .all)
  else if name = "trace" then some (.flag .trace)
  else if name = "no-line-markers" then some (.flag .noLineMarkers)
  else if name = "version" then some .version
  else none

/-- The value attached to an option: what follows an equals sign. -/
def attachedValue? : List Char → Option String
  | '=' :: value => some (String.ofList value)
  | _ => none

/-- The piece that an argument is; nothing for stray and unknown arguments. -/
def piece? (argument : String) : Option Piece :=
  match argument.toList with
  | ['-', '-'] => some .separator
  | '-' :: '-' :: long =>
    longPiece? (String.ofList (long.takeWhile (· != '=')))
      (attachedValue? (long.dropWhile (· != '=')))
  | ['-', 'E'] => some (.valueOption .pattern none)
  | '-' :: 'E' :: '=' :: value => some (.valueOption .pattern (some (String.ofList value)))
  | '-' :: 'E' :: value => some (.valueOption .pattern (some (String.ofList value)))
  | '-' :: 'V' :: _ => some .version
  | _ => none

/-- Whether an argument can be the value of the option before it: a single hyphen can, anything else
that begins with a hyphen cannot. -/
def isValue (argument : String) : Bool :=
  match argument.toList with
  | '-' :: _ :: _ => false
  | _ => true

/-- The dialect of a name. -/
def dialect? (value : String) : Option Dialect :=
  if value = "perl5" then some .perl5 else if value = "perl6" then some .perl6 else none

/-- The value of decimal digits, one or more. -/
def digits? (cs : List Char) : Option Nat :=
  if cs.isEmpty || !cs.all Char.isDigit then none
  else some (cs.foldl (fun n c => 10 * n + (c.toNat - 48)) 0)

/-- A number of steps: decimal digits behind an optional sign, with a value of 32 bits. The only
number that may be written with a minus sign is 0. -/
def steps? (value : String) : Option UInt32 :=
  match value.toList with
  | '+' :: cs => (digits? cs).bind fun n => if n < UInt32.size then some (UInt32.ofNat n) else none
  | '-' :: cs => (digits? cs).bind fun n => if n = 0 then some 0 else none
  | cs => (digits? cs).bind fun n => if n < UInt32.size then some (UInt32.ofNat n) else none

/-- The arguments read so far. -/
structure Given where
  pattern : Option String := none
  dialect : Option Dialect := none
  fuel : Option UInt32 := none
  flags : List Flag := []
  deriving DecidableEq, Repr

namespace Given

/-- With the value of one more option, if the value is one and the option is new. -/
def setValue? (g : Given) (option : ValueOption) (value : String) : Option Given :=
  match option with
  | .pattern => if g.pattern.isSome then none else some { g with pattern := some value }
  | .dialect =>
    if g.dialect.isSome then none else (dialect? value).map fun d => { g with dialect := some d }
  | .fuel => if g.fuel.isSome then none else (steps? value).map fun n => { g with fuel := some n }

/-- With one more flag, if it is new. -/
def setFlag? (g : Given) (flag : Flag) : Option Given :=
  if g.flags.contains flag then none else some { g with flags := flag :: g.flags }

/-- The whole request; a pattern must have been given. -/
def finish? (g : Given) : Option Command :=
  g.pattern.map fun pattern => .run {
    pattern := pattern
    dialect := g.dialect.getD .perl5
    emit := g.flags.contains .emit
    all := g.flags.contains .all
    trace := g.flags.contains .trace
    noLineMarkers := g.flags.contains .noLineMarkers
    fuel := g.fuel }

/-- The request after further arguments, which are read in order: the first one that asks for the
version, or that has no meaning, decides. -/
def read? (g : Given) : List String → Option Command
  | [] => g.finish?
  | argument :: rest =>
    match piece? argument with
    | none => none
    | some .separator => if rest.isEmpty then g.finish? else none
    | some .version => some .version
    | some (.flag flag) =>
      match g.setFlag? flag with
      | some g => g.read? rest
      | none => none
    | some (.valueOption option (some value)) =>
      match g.setValue? option value with
      | some g => g.read? rest
      | none => none
    | some (.valueOption option none) =>
      match rest with
      | [] => none
      | value :: rest =>
        if isValue value then
          match g.setValue? option value with
          | some g => g.read? rest
          | none => none
        else none

end Given

/-- The meaning of a list of arguments, if it has one. -/
def Command.ofArguments? (arguments : List String) : Option Command :=
  Given.read? {} arguments

end PatternMachine.CommandLine
