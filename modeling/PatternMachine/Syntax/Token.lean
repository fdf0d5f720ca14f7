import PatternMachine.Pattern.Basic

/-!
# Tokens of a pattern text

* `Bracket` — round or square; a group is closed by the kind that opened it.
* `Atom`, `Token` — the smallest meaningful pieces of a pattern, the same for both dialects.
* `Lexeme` — a token and the bytes of the text that it takes.
* `Token.endsUnit` — whether a quantifier may follow.
-/

set_option autoImplicit false

namespace PatternMachine

/-- The two kinds of group delimiters. -/
inductive Bracket where
  | round
  | square
  deriving DecidableEq, Repr

/-- The closing delimiter. -/
def Bracket.closer : Bracket → Char
  | .round => ')'
  | .square => ']'

/-- A unit of a pattern that is no group. -/
inductive Atom where
  /-- A quoted literal without a character. -/
  | empty
  | wildcard
  | literal (bytes : List UInt8)
  | anchor (kind : Anchor)
  deriving DecidableEq, Repr

/-- The node of an atom, matched once. -/
def Atom.toPattern (id : NodeId) : Atom → Pattern
  | .empty => .empty id
  | .wildcard => .wildcard id .once
  | .literal bytes => .literal id bytes .once
  | .anchor kind => .anchor id kind

/-- The literal that stands for one character: its bytes in UTF-8. -/
def Atom.ofChar (c : Char) : Atom := .literal (String.utf8EncodeChar c)

/-- A meaningful piece of a pattern text. -/
inductive Token where
  | atom (atom : Atom)
  | quantifier (quantifier : Quantifier)
  | openGroup (capturing : Bool) (bracket : Bracket)
  | closeGroup (bracket : Bracket)
  | bar
  deriving DecidableEq, Repr

/-- Whether the token completes a unit, so that a quantifier may follow it. -/
def Token.endsUnit : Token → Bool
  | .atom _ => true
  | .closeGroup _ => true
  | _ => false

/-- A token and the bytes that it takes: from offset `start` up to offset `stop`. -/
structure Lexeme where
  token : Token
  start : Nat
  stop : Nat
  deriving DecidableEq, Repr

end PatternMachine
