import PatternMachine.Compilation.Compile
import PatternMachine.Journal
import PatternMachine.Syntax.Reader

/-!
# Programs of pattern texts

* `PatternError` — why a text has no program.
* `compileText` — the program of a text.
* `compileJournal`, `compileTextJournal` — what compiling tells about its doings.
-/

set_option autoImplicit false

namespace PatternMachine

/-- Why a text has no program. -/
inductive PatternError where
  | syntaxError (error : SyntaxError)
  | compilation (error : CompileError)
  deriving DecidableEq, Repr

/-- The error in words. -/
def PatternError.message : PatternError → String
  | .syntaxError e => e.message
  | .compilation e => e.message

/-- The program that searches for the pattern of a text. -/
def compileText (dialect : Dialect) (text : String) (options : CompileOptions) :
    Except PatternError Program :=
  match parse dialect text with
  | .error e => .error (.syntaxError e)
  | .ok pattern =>
    match compile pattern options with
    | .error e => .error (.compilation e)
    | .ok program => .ok program

/-- What compiling a pattern tells: one message when the tree has no fault, and one when there is a
program. -/
def compileJournal (p : Pattern) (options : CompileOptions) : List Message :=
  match p.firstFault? options.maxLiteral with
  | some _ => []
  | none =>
    ⟨.debug, "compiling pattern R" ++ toString p.id.toNat ++ ", start anchored: " ++
      (if p.startAnchored then "true" else "false")⟩ ::
    match compile p options with
    | .error _ => []
    | .ok program =>
      [⟨.debug, "emitted " ++ toString program.code.size ++ " instructions, " ++
        toString program.captures.length ++ " capture groups"⟩]

/-- What compiling a text tells. -/
def compileTextJournal (dialect : Dialect) (text : String) (options : CompileOptions) :
    List Message :=
  match parse dialect text with
  | .error _ => []
  | .ok pattern => compileJournal pattern options

end PatternMachine
