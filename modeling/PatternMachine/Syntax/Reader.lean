import PatternMachine.Syntax.Draft

/-!
# Reading patterns

* `Reader` — a text, the position in it, and the numbers that have not been handed out.
* `Reader.read` — reads from the position to the end of the text.
* `parse` — reads a whole text.

A reader may be asked again after it has answered. It goes on from where it stopped, and no number
is handed out twice.
-/

set_option autoImplicit false

namespace PatternMachine

/-- A text that is being read. -/
structure Reader where
  dialect : Dialect
  text : String
  /-- The byte offset of the first character that has not been read. -/
  offset : Nat
  supply : Supply
  deriving DecidableEq, Repr

namespace Reader

/-- At the beginning of a text. -/
def new (dialect : Dialect) (text : String) : Reader := ⟨dialect, text, 0, .initial⟩

/-- What has not been read. -/
def unread (r : Reader) : Unread := (Unread.ofChars r.text.toList).dropTo r.offset

/-- Reads a pattern that extends to the end of the text; the items of every sequence pass through
`join` first. A reader that fails stays where it stopped. -/
def readWith (join : List Pattern → List Pattern) (r : Reader) :
    Except SyntaxError Pattern × Reader :=
  let (lexemes, ending) := r.unread.lexemes r.dialect false
  match (Draft.new r.supply).assemble join ending lexemes with
  | .ok (pattern, supply) =>
    (.ok pattern, { r with offset := r.unread.finish.offset, supply := supply })
  | .error (failure, supply) =>
    (.error failure.error, { r with offset := failure.offset, supply := supply })

/-- Reads a pattern that extends to the end of the text. -/
def read (r : Reader) : Except SyntaxError Pattern × Reader := r.readWith joinLiterals

end Reader

/-- The pattern that a text stands for. -/
def parse (dialect : Dialect) (text : String) : Except SyntaxError Pattern :=
  (Reader.new dialect text).read.1

end PatternMachine
