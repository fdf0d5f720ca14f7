import PatternMachine.Syntax.Error
import PatternMachine.Text.Blank

/-!
# The unread part of a text

* `utf8Length` — the number of bytes of a list of characters in UTF-8.
* `Unread` — what is left of a text, and the byte offset at which it begins.
* `Unread.number?` — a decimal number at the front.
* `Unread.quoted?` — the rest of a quoted literal.
* `Unread.skipTrivia` — leaves out the blanks and comments at the front.

Main statements: each of these leaves a suffix of what it was given, and moves the offset by the
bytes that it passed (`Follows`).
-/

set_option autoImplicit false

namespace PatternMachine

/-- The number of bytes of a list of characters in UTF-8. -/
def utf8Length (cs : List Char) : Nat := cs.foldr (fun c n => c.utf8Size + n) 0

@[simp] theorem utf8Length_nil : utf8Length [] = 0 := rfl

@[simp] theorem utf8Length_cons (c : Char) (cs : List Char) :
    utf8Length (c :: cs) = c.utf8Size + utf8Length cs := rfl

@[simp] theorem utf8Length_append (cs ds : List Char) :
    utf8Length (cs ++ ds) = utf8Length cs + utf8Length ds := by
  induction cs with
  | nil => simp
  | cons c cs ih => simp [ih, Nat.add_assoc]

/-- What is left of a text, and the byte offset at which it begins. -/
structure Unread where
  offset : Nat
  chars : List Char
  deriving DecidableEq, Repr

namespace Unread

/-- A whole text. -/
def ofChars (cs : List Char) : Unread := ⟨0, cs⟩

/-- What is left after the first character, if there is one. -/
def next (u : Unread) : Unread :=
  match u.chars with
  | [] => u
  | c :: cs => ⟨u.offset + c.utf8Size, cs⟩

/-- What is left after everything. -/
def finish (u : Unread) : Unread := ⟨u.offset + utf8Length u.chars, []⟩

/-- What is left from a byte offset on. -/
def dropTo (offset : Nat) (u : Unread) : Unread :=
  go u.offset u.chars
where
  /-- Passes characters until the offset is reached. -/
  go (here : Nat) : List Char → Unread
    | [] => ⟨here, []⟩
    | c :: cs => if offset ≤ here then ⟨here, c :: cs⟩ else go (here + c.utf8Size) cs

/-- Whether `v` is what is left of `u` after some characters, with the offset moved accordingly. -/
def Follows (v u : Unread) : Prop :=
  ∃ passed, u.chars = passed ++ v.chars ∧ v.offset = u.offset + utf8Length passed

theorem Follows.refl (u : Unread) : Follows u u := ⟨[], by simp⟩

theorem Follows.trans {u v w : Unread} (hwv : Follows w v) (hvu : Follows v u) : Follows w u := by
  obtain ⟨p, hp, hpo⟩ := hvu
  obtain ⟨q, hq, hqo⟩ := hwv
  exact ⟨p ++ q, by simp [hp, hq], by simp [hpo, hqo]; omega⟩

theorem Follows.length_le {u v : Unread} (h : Follows v u) : v.chars.length ≤ u.chars.length := by
  obtain ⟨p, hp, -⟩ := h
  simp [hp]

theorem next_follows (u : Unread) : Follows u.next u := by
  unfold next
  split
  · exact .refl u
  · next c cs h => exact ⟨[c], by simp [h]⟩

theorem finish_follows (u : Unread) : Follows u.finish u := ⟨u.chars, by simp [finish]⟩

theorem next_length {u : Unread} (h : u.chars ≠ []) :
    u.next.chars.length < u.chars.length := by
  unfold next
  split
  · next hn => exact absurd hn h
  · next c cs hc => simp [hc]

/-! ## Numbers -/

/-- The value of a list of decimal digits. -/
def decimalValue (digits : List Char) : Nat :=
  digits.foldl (fun n c => 10 * n + (c.toNat - 48)) 0

/-- The decimal number at the front: one digit or more, and a value that fits 32 bits. -/
def number? (u : Unread) : Option (UInt32 × Unread) :=
  let digits := u.chars.takeWhile Char.isDigit
  if digits.isEmpty || decide (UInt32.size ≤ decimalValue digits) then none
  else some (UInt32.ofNat (decimalValue digits),
    ⟨u.offset + utf8Length digits, u.chars.dropWhile Char.isDigit⟩)

theorem number?_follows {u v : Unread} {n : UInt32} (h : u.number? = some (n, v)) :
    Follows v u := by
  unfold number? at h
  simp only at h
  split at h
  · simp at h
  · simp only [Option.some.injEq, Prod.mk.injEq] at h
    obtain ⟨-, rfl⟩ := h
    exact ⟨u.chars.takeWhile Char.isDigit, by simp⟩

/-! ## Quoted literals -/

/-- Reads the text up to the closing quote, where a backslash takes the next character as it is;
nothing if there is no closing quote. The flag says whether a backslash came right before. -/
def readQuoted? : Bool → Nat → List Char → Option (List Char × Unread)
  | _, _, [] => none
  | true, here, c :: cs =>
    (readQuoted? false (here + c.utf8Size) cs).map fun r => (c :: r.1, r.2)
  | false, here, c :: cs =>
    if c = '\'' then some ([], ⟨here + c.utf8Size, cs⟩)
    else if c = '\\' then readQuoted? true (here + c.utf8Size) cs
    else (readQuoted? false (here + c.utf8Size) cs).map fun r => (c :: r.1, r.2)

/-- The text of a quoted literal whose opening quote has been passed. -/
def quoted? (u : Unread) : Option (List Char × Unread) :=
  readQuoted? false u.offset u.chars

theorem readQuoted?_follows {escaped : Bool} {here : Nat} {cs text : List Char} {v : Unread}
    (h : readQuoted? escaped here cs = some (text, v)) : Follows v ⟨here, cs⟩ := by
  induction cs generalizing escaped here text v with
  | nil => cases escaped <;> simp [readQuoted?] at h
  | cons c cs ih =>
    have passed : Follows ⟨here + c.utf8Size, cs⟩ ⟨here, c :: cs⟩ := ⟨[c], by simp⟩
    have rest : ∀ {text : List Char} {v : Unread},
        (readQuoted? false (here + c.utf8Size) cs).map (fun r => (c :: r.1, r.2)) = some (text, v) →
          Follows v ⟨here, c :: cs⟩ := by
      intro text v hr
      obtain ⟨⟨t, w⟩, ht, he⟩ := Option.map_eq_some_iff.1 hr
      simp only [Prod.mk.injEq] at he
      obtain ⟨-, rfl⟩ := he
      exact (ih ht).trans passed
    cases escaped with
    | true => exact rest h
    | false =>
      unfold readQuoted? at h
      split at h
      · simp only [Option.some.injEq, Prod.mk.injEq] at h
        obtain ⟨-, rfl⟩ := h
        exact passed
      · split at h
        · exact (ih h).trans passed
        · exact rest h

theorem quoted?_follows {u v : Unread} {text : List Char} (h : u.quoted? = some (text, v)) :
    Follows v u :=
  readQuoted?_follows h

/-! ## Blanks and comments -/

/-- Leaves out blanks, and comments from a number sign to the end of the line. The flag says
whether the text begins inside a comment. -/
def dropTrivia : Bool → Nat → List Char → Unread
  | _, here, [] => ⟨here, []⟩
  | true, here, c :: cs => dropTrivia (c != '\n') (here + c.utf8Size) cs
  | false, here, c :: cs =>
    if isBlank c then dropTrivia false (here + c.utf8Size) cs
    else if c = '#' then dropTrivia true (here + c.utf8Size) cs
    else ⟨here, c :: cs⟩

theorem dropTrivia_follows (inComment : Bool) (here : Nat) (cs : List Char) :
    Follows (dropTrivia inComment here cs) ⟨here, cs⟩ := by
  induction cs generalizing inComment here with
  | nil => cases inComment <;> exact .refl _
  | cons c cs ih =>
    have passed : Follows ⟨here + c.utf8Size, cs⟩ ⟨here, c :: cs⟩ := ⟨[c], by simp⟩
    cases inComment with
    | true => exact (ih _ _).trans passed
    | false =>
      unfold dropTrivia
      split
      · exact (ih _ _).trans passed
      · split
        · exact (ih _ _).trans passed
        · exact .refl _

/-- Leaves out what does not count at the front: blanks and comments in Perl 6 rules, nothing in
Perl 5 patterns. -/
def skipTrivia (dialect : Dialect) (u : Unread) : Unread :=
  match dialect with
  | .perl5 => u
  | .perl6 => dropTrivia false u.offset u.chars

theorem skipTrivia_follows (dialect : Dialect) (u : Unread) : Follows (u.skipTrivia dialect) u := by
  cases dialect
  · exact .refl u
  · exact dropTrivia_follows false u.offset u.chars

end Unread

end PatternMachine
