import PatternMachine.Compilation.Text
import PatternMachine.Search.Run

/-!
# Whether a text matches

* `MatchError` — why there is no answer.
* `isMatch?` — whether a Perl 5 pattern matches somewhere in a subject.
-/

set_option autoImplicit false

namespace PatternMachine

/-- Why it cannot be said whether a pattern matches. -/
inductive MatchError where
  | pattern (error : PatternError)
  | runtime (error : RuntimeError)
  deriving DecidableEq, Repr

/-- The error in words. -/
def MatchError.message : MatchError → String
  | .pattern e => e.message
  | .runtime e => e.message

/-- Whether a Perl 5 pattern matches somewhere in a subject; nothing if patience ends before. -/
def isMatch? (patience : Nat) (subject : Subject) (text : String) (limits : Limits) :
    Option (Except MatchError Bool) :=
  match compileText .perl5 text {} with
  | .error e => some (.error (.pattern e))
  | .ok program =>
    ((Search.new program subject limits).next? patience).map fun r =>
      match r.1 with
      | .found _ => .ok true
      | .exhausted => .ok false
      | .failed e => .error (.runtime e)

end PatternMachine
