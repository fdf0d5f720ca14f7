import PatternMachine.Proofs.Escaping

/-!
# Patterns that both dialects can write

* `Outline`, `Row`, `Piece` — a pattern before it is written: alternatives, the items of each of
  them, and what may be repeated.
* `Count`, `Times` — how often a piece is repeated.
* `Outline.text`, `Outline.written` — the pattern as it is written in a dialect.

Groups that do not capture, bounds of repetitions and the characters behind backslashes look
different in the two dialects, and in Perl 6 rules a space keeps neighbouring anchors apart.

Principal results: `Times.repetition`, `literal_charText`, `Edge.position` — repetitions, characters
and anchors are spelled as the grammar of the dialect says.  `Outline.unrepeated` — what is written
does not begin with a sign of repetition.
-/

set_option autoImplicit false

namespace PatternMachine

open Grammar

/-! ## Outlines -/

/-- The characters that are written with a letter or a digit. -/
inductive Control where
  | newline
  | tab
  | carriageReturn
  | zero
  deriving DecidableEq, Repr

/-- The letter or digit behind the backslash. -/
def Control.letter : Control → Char
  | .newline => 'n'
  | .tab => 't'
  | .carriageReturn => 'r'
  | .zero => '0'

/-- The byte that is meant. -/
def Control.byte : Control → UInt8
  | .newline => 10
  | .tab => 9
  | .carriageReturn => 13
  | .zero => 0

/-- An anchor at the start or at the end of the subject. -/
inductive Edge where
  | start
  | finish
  deriving DecidableEq, Repr

/-- The sign of an anchor. -/
def Edge.sign : Edge → Char
  | .start => '^'
  | .finish => '$'

/-- The condition of an anchor. -/
def Edge.anchor : Edge → Anchor
  | .start => .start
  | .finish => .finish

/-- How often a piece may be repeated. -/
inductive Count where
  | star
  | plus
  | optional
  | exactly (n : UInt32)
  | atLeast (n : UInt32)
  | between (n m : UInt32) (h : n ≤ m)

/-- How often a piece is repeated, and which counts are tried first. -/
structure Times where
  count : Count
  lazy : Bool

mutual

/-- A pattern: an alternative, and perhaps more of them. -/
inductive Outline where
  | last (row : Row)
  | either (row : Row) (others : Outline)

/-- The items of an alternative, perhaps none. -/
inductive Row where
  | nil
  | anchor (edge : Edge) (later : Row)
  | piece (piece : Piece) (times : Option Times) (later : Row)

/-- What may be repeated. -/
inductive Piece where
  | char (c : Char)
  | control (control : Control)
  | wildcard
  | group (capturing : Bool) (body : Outline)

end

/-! ## How they are written -/

/-- A character, behind a backslash if it does not stand for itself. -/
def Dialect.charText (d : Dialect) (c : Char) : List Char :=
  if c ∈ specials d ∨ (d = .perl6 ∧ isBlank c = true) then ['\\', c] else [c]

/-- A number in decimal digits. -/
def decimal (n : UInt32) : List Char := Nat.toDigits 10 n.toNat

/-- Bounds between braces. -/
def Dialect.braced : Dialect → List Char → List Char
  | .perl5, bounds => '\x7b' :: (bounds ++ ['\x7d'])
  | .perl6, bounds => '*' :: '*' :: '\x7b' :: (bounds ++ ['\x7d'])

/-- What stands between two bounds. -/
def Dialect.upTo : Dialect → List Char
  | .perl5 => [',']
  | .perl6 => ['.', '.']

/-- What stands for the bound that is missing. -/
def Dialect.unlimited : Dialect → List Char
  | .perl5 => [',']
  | .perl6 => ['.', '.', '*']

/-- A count as it is written. -/
def Count.text (d : Dialect) : Count → List Char
  | .star => ['*']
  | .plus => ['+']
  | .optional => ['?']
  | .exactly n => d.braced (decimal n)
  | .atLeast n => d.braced (decimal n ++ d.unlimited)
  | .between n m _ => d.braced (decimal n ++ (d.upTo ++ decimal m))

/-- A repetition as it is written. -/
def Times.text (d : Dialect) (times : Times) : List Char :=
  times.count.text d ++ (if times.lazy then ['?'] else [])

/-- What stands behind a piece: its repetition, if it has one. -/
def suffix (d : Dialect) : Option Times → List Char
  | none => []
  | some times => times.text d

/-- The delimiters of a group. Without a capture they are brackets in Perl 6 rules. -/
def Dialect.delimiter : Dialect → (capturing : Bool) → Bracket
  | .perl6, false => .square
  | _, _ => .round

/-- What a group begins with. -/
def Dialect.opener : Dialect → (capturing : Bool) → List Char
  | _, true => ['(']
  | .perl5, false => ['(', '?', ':']
  | .perl6, false => ['[']

/-- The space that keeps an anchor from being read together with the next one. -/
def Dialect.gap : Dialect → Row → List Char
  | .perl6, .anchor _ _ => [' ']
  | _, _ => []

mutual

/-- A pattern as it is written. -/
def Outline.text (d : Dialect) : Outline → List Char
  | .last row => row.text d
  | .either row others => row.text d ++ '|' :: others.text d

/-- The items of an alternative as they are written. -/
def Row.text (d : Dialect) : Row → List Char
  | .nil => []
  | .anchor edge later => edge.sign :: (d.gap later ++ later.text d)
  | .piece piece times later => piece.text d ++ (suffix d times ++ later.text d)

/-- A piece as it is written. -/
def Piece.text (d : Dialect) : Piece → List Char
  | .char c => d.charText c
  | .control control => ['\\', control.letter]
  | .wildcard => ['.']
  | .group capturing body =>
    d.opener capturing ++ (body.text d ++ [(d.delimiter capturing).closer])

end

/-- The text of a pattern in a dialect. -/
def Outline.written (outline : Outline) (d : Dialect) : String := String.ofList (outline.text d)

/-- Two anchors, and a group of two alternatives with a group in the second one. -/
example :
    let outline : Outline := .last (.anchor .start (.anchor .start (.piece (.group true
      (.either (.piece (.char 'a') (some ⟨.star, false⟩) .nil)
        (.last (.piece (.control .newline) none (.piece (.group false (.last (.piece (.char 'é')
          (some ⟨.between 2 3 (by decide), true⟩) .nil))) none .nil))))) none .nil)))
    outline.written .perl5 = "^^(a*|\\n(?:é\x7b2,3\x7d?))" ∧
      outline.written .perl6 = "^ ^(a*|\\n[é**\x7b2..3\x7d?])" := by
  decide

/-! ## How it is spelled -/

variable {d : Dialect} {rest : List Char}

theorem literal_charText (c : Char) :
    Literal d (String.utf8EncodeChar c) (d.charText c ++ rest) rest := by
  unfold Dialect.charText
  split
  · rename_i hescaped
    apply Literal.escaped
    rcases hescaped with hspecial | ⟨_, hblank⟩
    · exact isAlphanum_of_special hspecial
    · exact isAlphanum_of_isBlank hblank
  · rename_i hplain
    rw [not_or, not_and, Bool.not_eq_true] at hplain
    exact .char ⟨hplain.1, hplain.2⟩

theorem Control.literal (control : Control) :
    Literal d [control.byte] ('\\' :: control.letter :: rest) rest := by
  cases control with
  | newline => exact .newline
  | tab => exact .tab
  | carriageReturn => exact .carriageReturn
  | zero => exact .zero

theorem Edge.position (edge : Edge) (h : d = .perl6 → rest.head? ≠ some edge.sign) :
    Position d edge.anchor (edge.sign :: rest) rest := by
  cases edge with
  | start => exact .start h
  | finish => exact .finish h

theorem number_decimal (n : UInt32) : Number n (decimal n ++ rest) rest := by
  have hvalue : Unread.decimalValue (decimal n) = n.toNat :=
    Nat.ofDigitChars_toDigits (by decide) (by decide)
  have hnumber : Number (UInt32.ofNat (Unread.decimalValue (decimal n))) (decimal n ++ rest) rest :=
    .mk Nat.toDigits_ne_nil
      (fun c hc => Nat.isDigit_of_mem_toDigits (by decide) (by decide) hc)
      (by rw [hvalue]; exact n.toNat_lt)
  rwa [hvalue, UInt32.ofNat_toNat] at hnumber

/-- The bounds of a count. -/
def Count.quantifier : Count → Quantifier
  | .star => ⟨0, .unbounded, true⟩
  | .plus => ⟨1, .unbounded, true⟩
  | .optional => ⟨0, .finite 1, true⟩
  | .exactly n => ⟨n, .finite n, true⟩
  | .atLeast n => ⟨n, .unbounded, true⟩
  | .between n m _ => ⟨n, .finite m, true⟩

/-- The bounds of a repetition. -/
def Times.quantifier (times : Times) : Quantifier :=
  if times.lazy then times.count.quantifier.toLazy else times.count.quantifier

/-- Braces around counts are bounds. -/
theorem bounds_braced {q : Quantifier} {counts : List Char}
    (h : Counts d q (counts ++ '\x7d' :: rest) ('\x7d' :: rest)) :
    Bounds d q (d.braced counts ++ rest) rest := by
  cases d with
  | perl5 => simpa [Dialect.braced] using Bounds.braces h
  | perl6 => simpa [Dialect.braced] using Bounds.starredBraces .none h

theorem Count.bounds (count : Count) : Bounds d count.quantifier (count.text d ++ rest) rest := by
  cases count with
  | star => exact .star
  | plus => exact .plus
  | optional => exact .optional
  | exactly n => exact bounds_braced (.exactly (number_decimal n))
  | atLeast n =>
    apply bounds_braced
    rw [List.append_assoc]
    cases d with
    | perl5 => exact .comma (number_decimal n)
    | perl6 => exact .dots (number_decimal n)
  | between n m h =>
    apply bounds_braced
    rw [List.append_assoc, List.append_assoc]
    cases d with
    | perl5 => exact .commaUpTo (number_decimal n) (number_decimal m) h
    | perl6 => exact .dotsUpTo (number_decimal n) (number_decimal m) h

/-- **A repetition is spelled as the grammar says.** -/
theorem Times.repetition (times : Times) :
    Repetition d times.quantifier (times.text d ++ rest) rest := by
  obtain ⟨count, lazy⟩ := times
  cases lazy with
  | false => simpa [text, quantifier] using Repetition.greedy count.bounds
  | true => simpa [text, quantifier] using Repetition.lazy count.bounds

theorem spelled_open (capturing : Bool) :
    Spelled d (.openGroup capturing (d.delimiter capturing)) (d.opener capturing ++ rest) rest := by
  cases d <;> cases capturing
  · exact ⟨rfl, rfl⟩
  · rfl
  · exact ⟨rfl, rfl⟩
  · rfl

theorem spelled_close (capturing : Bool) :
    Spelled d (.closeGroup (d.delimiter capturing)) ((d.delimiter capturing).closer :: rest)
      rest := by
  cases d <;> cases capturing
  · rfl
  · rfl
  · exact ⟨rfl, rfl⟩
  · rfl

/-! ## How it begins -/

/-- The text begins neither with a sign of repetition nor with an anchor. -/
def Signless (cs : List Char) : Prop := ∀ c ∈ cs.head?, c ∉ ['*', '+', '?', '^', '$']

theorem Signless.unrepeated {cs : List Char} (h : Signless cs) : Unrepeated cs := by
  intro c hc
  have hnone := h c hc
  simp only [List.mem_cons, not_or] at hnone
  exact ⟨hnone.1, hnone.2.1, hnone.2.2.1⟩

theorem Signless.head? {cs : List Char} (h : Signless cs) (edge : Edge) :
    cs.head? ≠ some edge.sign := by
  intro hhead
  apply h _ hhead
  cases edge <;> decide

theorem signless_cons {c : Char} (hc : c ∉ ['*', '+', '?', '^', '$']) (cs : List Char) :
    Signless (c :: cs) := by
  rintro _ ⟨⟩
  exact hc

theorem signless_charText (c : Char) : Signless (d.charText c ++ rest) := by
  unfold Dialect.charText
  split
  · exact signless_cons (by decide) _
  · rename_i hplain
    apply signless_cons
    intro hc
    refine hplain (Or.inl ?_)
    have hsigns : ['*', '+', '?', '^', '$'].all (specials d).contains = true := by
      cases d <;> decide
    simpa using List.all_eq_true.mp hsigns c hc

/-- A piece begins with something else than a sign of repetition or an anchor. -/
theorem Piece.signless (piece : Piece) : Signless (piece.text d ++ rest) := by
  cases piece with
  | char c => exact signless_charText c
  | control control => exact signless_cons (by decide) _
  | wildcard => exact signless_cons (by decide) _
  | group capturing body =>
    cases d <;> cases capturing <;> exact signless_cons (by decide) _

theorem Row.unrepeated (row : Row) (hrest : Signless rest) :
    Unrepeated (row.text d ++ rest) := by
  cases row with
  | nil => exact hrest.unrepeated
  | anchor edge later =>
    apply unrepeated_cons
    cases edge <;> decide
  | piece piece times later =>
    rw [Row.text, List.append_assoc]
    exact piece.signless.unrepeated

/-- **What is written does not begin with a sign of repetition.** -/
theorem Outline.unrepeated (outline : Outline) (hrest : Signless rest) :
    Unrepeated (outline.text d ++ rest) := by
  cases outline with
  | last row => exact row.unrepeated hrest
  | either row others =>
    rw [Outline.text, List.append_assoc]
    exact row.unrepeated (signless_cons (by decide) _)

/-- In Perl 6 rules an anchor is kept apart from the next one. -/
theorem Row.head?_gap (row : Row) (edge : Edge) (hrest : Signless rest) (hd : d = .perl6) :
    (d.gap row ++ (row.text d ++ rest)).head? ≠ some edge.sign := by
  subst hd
  cases row with
  | nil => exact hrest.head? edge
  | anchor edge' later =>
    have hspace : ' ' ≠ edge.sign := by cases edge <;> decide
    exact fun hhead => hspace (Option.some.inj hhead)
  | piece piece times later =>
    rw [Row.text, List.append_assoc]
    exact piece.signless.head? edge

theorem trivia_gap (row : Row) : Trivia d (d.gap row ++ rest) rest := by
  cases d with
  | perl5 => exact .none
  | perl6 =>
    cases row with
    | anchor edge later => exact .blank (by decide) .none
    | nil | piece piece times later => exact .none

end PatternMachine
