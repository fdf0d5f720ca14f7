/-!
# Errors of a pattern text

* `Dialect` — the two notations for patterns.
* `Expected` — what a text that ends too early lacks.
* `SyntaxError` — why a text is no pattern; offsets are in bytes.
-/

set_option autoImplicit false

namespace PatternMachine

/-- The notation of a pattern text. -/
inductive Dialect where
  /-- `a(?:b|c)*?d{2,3}$`: every character counts. -/
  | perl5
  /-- `a [ b | c ]*? d**{2..3} $$`: blanks and comments do not count. -/
  | perl6
  deriving DecidableEq, Repr

/-- What a text that ends too early lacks. -/
inductive Expected where
  | closingParenthesis
  | closingBracket
  | closingQuote
  | escapedCharacter
  deriving DecidableEq, Repr

/-- What is lacking, in words. -/
def Expected.text : Expected → String
  | .closingParenthesis => "`)`"
  | .closingBracket => "`]`"
  | .closingQuote => "`'`"
  | .escapedCharacter => "an escaped character"

/-- Notations that are known but not supported. -/
inductive Unsupported where
  /-- A parenthesis with a question mark that opens something other than a plain group. -/
  | groupModifier
  | characterClass
  /-- A backslash before an ASCII letter or digit that has no meaning. -/
  | escape (letter : Char)
  deriving DecidableEq, Repr

/-- The notation as messages show it. -/
def Unsupported.text : Unsupported → String
  | .groupModifier => "(?"
  | .characterClass => "character class"
  | .escape letter => "\\" ++ String.singleton letter

/-- Why a text is no pattern. -/
inductive SyntaxError where
  /-- A character that closes or follows nothing. -/
  | unexpected (found : Char) (offset : Nat)
  | unexpectedEnd (expected : Expected)
  /-- A quantifier with impossible bounds, or with nothing before it that can be repeated. -/
  | invalidQuantifier (offset : Nat)
  | unsupported (construct : Unsupported) (offset : Nat)
  deriving DecidableEq, Repr

/-- The error in words. -/
def SyntaxError.message : SyntaxError → String
  | .unexpected found offset =>
    "unexpected `" ++ String.singleton found ++ "` at offset " ++ toString offset
  | .unexpectedEnd expected => "unexpected end of pattern, expected " ++ expected.text
  | .invalidQuantifier offset => "invalid quantifier at offset " ++ toString offset
  | .unsupported construct offset =>
    "`" ++ construct.text ++ "` at offset " ++ toString offset ++ " is not supported"

end PatternMachine
