import PatternMachine.Proofs.Places

/-!
# Reading with slices

Scanning is told once more in terms of bytes.  All that is known is a byte offset.  The text is
looked at by taking the slice that begins there, and one moves on by the bytes of a character, by a
fixed number of bytes, or by as many bytes as digits have been counted.

* `Slicing` — a computation that takes slices of a text; nothing comes of it if one is not there.
* `Slicing.scan` — one token read with slices.

Principal result: `Slicing.scan_eq` — between characters all slices are there, and the token that is
read is the one that is read without slices.
-/

set_option autoImplicit false

namespace PatternMachine

/-- A computation that takes slices of a text and can refuse it.  Nothing at all comes of it if a
slice is not there, or if its patience does not suffice. -/
abbrev Slicing := ExceptT Failure Option

namespace Slicing

variable {text : String} {u v : Unread} {α : Type}

/-! ## Slices and characters -/

/-- What stands from one offset to another. -/
def slice (text : String) (start stop : Nat) : Slicing (List Char) :=
  ExceptT.lift (slice? text start stop)

/-- Nothing comes of a computation that takes a slice which leaves the text or cuts a character. -/
theorem slice_refused (text : String) {start stop : Nat}
    (h : ¬ ((⟨start⟩ : String.Pos.Raw).IsValid text ∧ (⟨stop⟩ : String.Pos.Raw).IsValid text ∧
      start ≤ stop)) (next : List Char → Slicing α) :
    slice text start stop >>= next = ExceptT.mk none := by
  rw [← isSome_slice?_iff, Option.not_isSome_iff_eq_none] at h
  rw [slice, h]
  rfl

/-- What is left of a text can be sliced between characters. -/
theorem slice_eq (h : u.Follows (.ofChars text.toList)) {mid after : List Char}
    (hchars : u.chars = mid ++ after) :
    slice text u.offset (u.offset + utf8Length mid) = pure mid := by
  obtain ⟨passed, htext, hoffset⟩ := h
  rw [hchars, ← List.append_assoc] at htext
  have hslice : slice? text _ _ = some mid := slice?_eq htext
  rw [utf8Length_append] at hslice
  rw [slice, show u.offset = utf8Length passed from hoffset.trans (Nat.zero_add _), hslice]
  rfl

/-- The slice from an offset up to the end of the text. -/
def rest (text : String) (pos : Nat) : Slicing (List Char) := slice text pos text.utf8ByteSize

theorem rest_eq (h : u.Follows (.ofChars text.toList)) :
    rest text u.offset = pure u.chars := by
  have hsize : text.utf8ByteSize = u.offset + utf8Length u.chars := h.utf8ByteSize_eq
  rw [rest, hsize]
  exact slice_eq h (List.append_nil _).symm

/-- The character at an offset, if the text does not end there. -/
def peek (text : String) (pos : Nat) : Slicing (Option Char) := do
  return (← rest text pos).head?

theorem peek_eq (h : u.Follows (.ofChars text.toList)) :
    peek text u.offset = pure u.chars.head? := by
  rw [peek, rest_eq h, pure_bind]

/-- Whether some characters stand at an offset. -/
def startsWith (text : String) (front : List Char) (pos : Nat) : Slicing Bool := do
  return front.isPrefixOf (← rest text pos)

theorem startsWith_eq (h : u.Follows (.ofChars text.toList)) (front : List Char) :
    startsWith text front u.offset = pure (front.isPrefixOf u.chars) := by
  rw [startsWith, rest_eq h, pure_bind]

/-- Two characters stand at the front if the first of them does and the second behind it. -/
theorem isPrefixOf_pair (c c' : Char) (u : Unread) :
    [c, c'].isPrefixOf u.chars = true ↔
      u.chars.head? = some c ∧ u.next.chars.head? = some c' := by
  obtain ⟨o, cs⟩ := u
  match cs with
  | [] => simp [Unread.next]
  | [d] => simp [List.isPrefixOf]
  | d :: d' :: cs =>
    rw [List.isPrefixOf_cons_cons, List.isPrefixOf_cons_cons, List.isPrefixOf_nil_left,
      Bool.and_true, Bool.and_eq_true, beq_iff_eq, beq_iff_eq, eq_comm, @eq_comm _ c']
    exact and_congr Option.some_inj.symm Option.some_inj.symm

/-- The character at an offset, and the offset behind it. -/
def advance (text : String) (pos : Nat) : Slicing (Option Char × Nat) := do
  match ← peek text pos with
  | some c => return (some c, pos + c.utf8Size)
  | none => return (none, pos)

theorem advance_eq (h : u.Follows (.ofChars text.toList)) :
    advance text u.offset = pure (u.chars.head?, u.next.offset) := by
  rw [advance, peek_eq h, pure_bind]
  obtain ⟨o, cs⟩ := u
  cases cs <;> rfl

/-- A character moves the offset by its bytes. -/
theorem offset_next {c : Char} (h : u.chars.head? = some c) :
    u.offset + c.utf8Size = u.next.offset := by
  rw [Unread.next, Unread.chars_eq_cons h]

/-- Two characters of one byte each move the offset by two bytes. -/
theorem offset_next_next {c c' : Char} (h : [c, c'].isPrefixOf u.chars = true)
    (hc : c.utf8Size = 1) (hc' : c'.utf8Size = 1) : u.offset + 2 = u.next.next.offset := by
  obtain ⟨hfirst, hsecond⟩ := (isPrefixOf_pair c c' u).mp h
  rw [← offset_next hsecond, ← offset_next hfirst, hc, hc']

/-! ## Blanks and comments -/

/-- The offset behind the blanks and comments at an offset. The flag says whether the offset is
inside a comment. -/
def dropTrivia (text : String) : (patience : Nat) → Bool → Nat → Slicing Nat
  | 0, _, _ => ExceptT.lift none
  | patience + 1, inComment, pos => do
    match ← advance text pos with
    | (none, _) => return pos
    | (some c, next) =>
      if inComment then dropTrivia text patience (c != '\n') next
      else if isBlank c then dropTrivia text patience false next
      else if c = '#' then dropTrivia text patience true next
      else return pos

theorem dropTrivia_eq {patience : Nat} {cs : List Char} {o : Nat}
    (h : Unread.Follows ⟨o, cs⟩ (.ofChars text.toList)) (hpatience : cs.length < patience)
    (inComment : Bool) :
    dropTrivia text patience inComment o = pure (Unread.dropTrivia inComment o cs).offset := by
  induction cs generalizing patience inComment o with
  | nil =>
    obtain ⟨patience, rfl⟩ := Nat.exists_eq_add_of_lt hpatience
    rw [dropTrivia, advance_eq h, pure_bind]
    cases inComment <;> rfl
  | cons c cs ih =>
    obtain ⟨patience, rfl⟩ := Nat.exists_eq_add_of_lt hpatience
    have hnext := (Unread.next_follows _).trans h
    have hrest : ∀ inComment,
        dropTrivia text (cs.length + 1 + patience) inComment (o + c.utf8Size) =
          pure (Unread.dropTrivia inComment (o + c.utf8Size) cs).offset :=
      ih hnext (by omega)
    rw [List.length_cons, dropTrivia, advance_eq h, pure_bind]
    cases inComment with
    | true => exact hrest _
    | false =>
      simp only [List.head?_cons, Unread.dropTrivia, Bool.false_eq_true, if_false]
      split
      · exact hrest _
      · split
        · exact hrest _
        · rfl

def skipTrivia (text : String) (patience : Nat) (dialect : Dialect) (pos : Nat) : Slicing Nat :=
  match dialect with
  | .perl5 => return pos
  | .perl6 => dropTrivia text patience false pos

theorem skipTrivia_eq {patience : Nat} (h : u.Follows (.ofChars text.toList))
    (hpatience : u.chars.length < patience) (dialect : Dialect) :
    skipTrivia text patience dialect u.offset = pure (u.skipTrivia dialect).offset := by
  cases dialect with
  | perl5 => rfl
  | perl6 => exact dropTrivia_eq h hpatience false

/-! ## Quantifiers -/

/-- What an outcome of reading what is left of a text comes to in terms of offsets. -/
def outcome (r : Except Failure (α × Unread)) : Slicing (α × Nat) :=
  ExceptT.mk (some (r.map fun p => (p.1, p.2.offset)))

/-- What an outcome of reading a token that need not be there comes to in terms of offsets. -/
def outcome? : Option (Except Failure (α × Unread)) → Slicing (Option (α × Nat))
  | none => pure none
  | some r => some <$> outcome r

/-- The failure of a quantifier that begins at `start`, when the offset `pos` has been reached. -/
def badQuantifier {α : Type} (start pos : Nat) : Slicing α :=
  throw ⟨.invalidQuantifier start, pos⟩

/-- The number at an offset, and the offset behind it: as many bytes further on as there are digits.
The digits are looked at a second time, as a slice of their own. -/
def number (text : String) (pos : Nat) : Slicing (Option (UInt32 × Nat)) := do
  let count := ((← rest text pos).takeWhile Char.isDigit).length
  let digits ← slice text pos (pos + count)
  if digits.isEmpty || decide (UInt32.size ≤ Unread.decimalValue digits) then return none
  else return some (UInt32.ofNat (Unread.decimalValue digits), pos + count)

/-- Digits have one byte each. -/
theorem utf8Length_digits {digits : List Char} (h : ∀ c ∈ digits, c.isDigit = true) :
    utf8Length digits = digits.length := by
  induction digits with
  | nil => rfl
  | cons c digits ih =>
    obtain ⟨hc, hdigits⟩ := List.forall_mem_cons.mp h
    have hsize : c.utf8Size = 1 := by
      rw [Char.isDigit_iff_toNat] at hc
      rw [Char.utf8Size_eq_one_iff, UInt32.le_iff_toNat_le]
      exact Nat.le_trans hc.2 (by decide)
    rw [utf8Length_cons, ih hdigits, hsize, List.length_cons, Nat.add_comm]

theorem number_eq (h : u.Follows (.ofChars text.toList)) :
    number text u.offset = pure (u.number?.map fun p => (p.1, p.2.offset)) := by
  have hsize := utf8Length_digits fun c hc => List.mem_takeWhile_imp (p := Char.isDigit)
    (l := u.chars) hc
  have hdigits := slice_eq h (List.takeWhile_append_dropWhile (p := Char.isDigit)).symm
  rw [hsize] at hdigits
  -- The digits that have been counted are the slice that is taken, as each of them is one byte.
  rw [number, rest_eq h, pure_bind]
  dsimp only
  rw [hdigits, pure_bind, Unread.number?, ← hsize]
  split <;> rfl

def closeBrace (text : String) (start : Nat) (min : UInt32) (max : Bound) (pos : Nat) :
    Slicing (Quantifier × Nat) := do
  let (c, next) ← advance text pos
  if c = some '\x7d' then return (⟨min, max, true⟩, next) else badQuantifier start next

theorem closeBrace_eq (h : u.Follows (.ofChars text.toList)) (start : Nat) (min : UInt32)
    (max : Bound) :
    closeBrace text start min max u.offset = outcome (Unread.closeBrace start min max u) := by
  rw [closeBrace, advance_eq h, pure_bind, Unread.closeBrace]
  dsimp only
  split <;> rfl

def commaBounds (text : String) (start pos : Nat) : Slicing (Quantifier × Nat) := do
  match ← number text pos with
  | none => badQuantifier start pos
  | some (min, pos) =>
    if (← peek text pos) = some ',' then
      let pos := pos + 1
      match ← number text pos with
      | some (max, pos) => closeBrace text start min (.finite max) pos
      | none => closeBrace text start min .unbounded pos
    else closeBrace text start min (.finite min) pos

theorem commaBounds_eq (h : u.Follows (.ofChars text.toList)) (start : Nat) :
    commaBounds text start u.offset = outcome (Unread.commaBounds start u) := by
  rw [commaBounds, number_eq h, pure_bind, Unread.commaBounds]
  cases hmin : u.number? with
  | none => rfl
  | some p =>
    obtain ⟨min, v⟩ := p
    have hv := (Unread.number?_follows hmin).trans h
    dsimp only [Option.map_some]
    rw [peek_eq hv, pure_bind]
    split
    · rename_i hcomma
      have hnext := v.next_follows.trans hv
      rw [show v.offset + 1 = v.next.offset from offset_next hcomma, number_eq hnext, pure_bind]
      cases hmax : v.next.number? with
      | none => exact closeBrace_eq hnext _ _ _
      | some p => exact closeBrace_eq ((Unread.number?_follows hmax).trans hnext) _ _ _
    · exact closeBrace_eq hv _ _ _

def rangeBounds (text : String) (start pos : Nat) : Slicing (Quantifier × Nat) := do
  match ← number text pos with
  | none => badQuantifier start pos
  | some (min, pos) =>
    if ← startsWith text ['.', '.'] pos then
      let pos := pos + 2
      if (← peek text pos) = some '*' then closeBrace text start min .unbounded (pos + 1)
      else match ← number text pos with
        | some (max, pos) => closeBrace text start min (.finite max) pos
        | none => badQuantifier start pos
    else closeBrace text start min (.finite min) pos

theorem rangeBounds_eq (h : u.Follows (.ofChars text.toList)) (start : Nat) :
    rangeBounds text start u.offset = outcome (Unread.rangeBounds start u) := by
  rw [rangeBounds, number_eq h, pure_bind, Unread.rangeBounds]
  cases hmin : u.number? with
  | none => rfl
  | some p =>
    obtain ⟨min, v⟩ := p
    have hv := (Unread.number?_follows hmin).trans h
    dsimp only [Option.map_some]
    rw [startsWith_eq hv, pure_bind]
    have hdots : (v.chars.take 2 = ['.', '.']) ↔ ['.', '.'].isPrefixOf v.chars = true := by
      rw [List.isPrefixOf_iff_prefix, List.prefix_iff_eq_take, eq_comm]
      rfl
    split
    · rename_i hprefix
      have hnext := (v.next.next_follows.trans v.next_follows).trans hv
      rw [if_pos (hdots.mpr hprefix), offset_next_next hprefix rfl rfl, peek_eq hnext, pure_bind]
      split
      · rename_i hstar
        rw [show v.next.next.offset + 1 = v.next.next.next.offset from offset_next hstar]
        exact closeBrace_eq (v.next.next.next_follows.trans hnext) _ _ _
      · rw [number_eq hnext, pure_bind]
        cases hmax : v.next.next.number? with
        | none => rfl
        | some p => exact closeBrace_eq ((Unread.number?_follows hmax).trans hnext) _ _ _
    · rename_i hprefix
      rw [if_neg (mt hdots.mp hprefix)]
      exact closeBrace_eq hv _ _ _

def starredBounds (text : String) (patience start pos : Nat) : Slicing (Quantifier × Nat) := do
  let (c, next) ← advance text (← skipTrivia text patience .perl6 pos)
  if c = some '\x7b' then rangeBounds text start next else badQuantifier start next

theorem starredBounds_eq {patience : Nat} (h : u.Follows (.ofChars text.toList))
    (hpatience : u.chars.length < patience) (start : Nat) :
    starredBounds text patience start u.offset = outcome (Unread.starredBounds start u) := by
  have hskip := (u.skipTrivia_follows .perl6).trans h
  rw [starredBounds, skipTrivia_eq h hpatience, pure_bind, advance_eq hskip, pure_bind,
    Unread.starredBounds]
  dsimp only
  split
  · exact rangeBounds_eq ((Unread.next_follows _).trans hskip) _
  · rfl

def bounds (text : String) (patience : Nat) (dialect : Dialect) (pos : Nat) :
    Slicing (Option (Quantifier × Nat)) := do
  match ← peek text pos with
  | some '*' =>
    if dialect = .perl6 then
      if ← startsWith text ['*', '*'] pos then
        some <$> starredBounds text patience pos (pos + 2)
      else return some (⟨0, .unbounded, true⟩, pos + 1)
    else return some (⟨0, .unbounded, true⟩, pos + 1)
  | some '+' => return some (⟨1, .unbounded, true⟩, pos + 1)
  | some '?' => return some (⟨0, .finite 1, true⟩, pos + 1)
  | some '\x7b' =>
    if dialect = .perl5 then some <$> commaBounds text pos (pos + 1) else return none
  | _ => return none

theorem bounds_eq {patience : Nat} (h : u.Follows (.ofChars text.toList))
    (hpatience : u.chars.length < patience) (dialect : Dialect) :
    bounds text patience dialect u.offset = outcome? (u.bounds? dialect) := by
  rw [bounds, peek_eq h, pure_bind, Unread.bounds?]
  generalize hhead : u.chars.head? = head
  split
  -- One looks for two stars at once where the other looks for a second star behind the first.
  · by_cases hsecond : u.next.chars.head? = some '*'
    · have hprefix := (isPrefixOf_pair _ _ _).mpr ⟨hhead, hsecond⟩
      have hfollows := u.next.next_follows.trans u.next_follows
      have hshorter := Nat.lt_of_le_of_lt hfollows.length_le hpatience
      cases dialect with
      | perl5 =>
        rw [show u.offset + 1 = u.next.offset from offset_next hhead]
        rfl
      | perl6 =>
        rw [if_pos rfl, startsWith_eq h, pure_bind, if_pos hprefix, if_pos ⟨rfl, hsecond⟩,
          offset_next_next hprefix rfl rfl, starredBounds_eq (hfollows.trans h) hshorter]
        rfl
    · have hprefix := mt (isPrefixOf_pair '*' '*' u).mp fun hpair => hsecond hpair.2
      have hstarred : ¬ (dialect = .perl6 ∧ u.next.chars.head? = some '*') :=
        fun hstarred => hsecond hstarred.2
      rw [startsWith_eq h, pure_bind, if_neg hprefix, ite_self, if_neg hstarred,
        show u.offset + 1 = u.next.offset from offset_next hhead]
      rfl
  · rw [show u.offset + 1 = u.next.offset from offset_next hhead]
    rfl
  · rw [show u.offset + 1 = u.next.offset from offset_next hhead]
    rfl
  · split
    · rw [show u.offset + 1 = u.next.offset from offset_next hhead,
        commaBounds_eq (u.next_follows.trans h)]
      rfl
    · rfl
  · simp [outcome?]

def laziness (text : String) (start : Nat) (q : Quantifier) (pos : Nat) :
    Slicing (Quantifier × Nat) := do
  if q.isValid then
    if (← peek text pos) = some '?' then return (q.toLazy, pos + 1) else return (q, pos)
  else badQuantifier start pos

theorem laziness_eq (h : v.Follows (.ofChars text.toList)) (start : Nat) (q : Quantifier) :
    laziness text start q v.offset = outcome (Unread.laziness start (q, v)) := by
  rw [laziness, Unread.laziness]
  split
  · rw [peek_eq h, pure_bind]
    split
    · rename_i hquestion
      rw [show v.offset + 1 = v.next.offset from offset_next hquestion]
      rfl
    · rfl
  · rfl

def quantifier (text : String) (patience : Nat) (dialect : Dialect) (pos : Nat) :
    Slicing (Option (Quantifier × Nat)) := do
  match ← bounds text patience dialect pos with
  | none => return none
  | some (q, next) => some <$> laziness text pos q next

theorem quantifier_eq {patience : Nat} (h : u.Follows (.ofChars text.toList))
    (hpatience : u.chars.length < patience) (dialect : Dialect) :
    quantifier text patience dialect u.offset = outcome? (u.quantifier? dialect) := by
  rw [quantifier, bounds_eq h hpatience, Unread.quantifier?]
  cases hbounds : u.bounds? dialect with
  | none => rfl
  | some r =>
    cases r with
    | error f => rfl
    | ok p =>
      have hfollows := (Unread.bounds?_leaves hbounds).follows _ _ rfl
      exact congrArg (some <$> ·) (laziness_eq ((hfollows.trans u.next_follows).trans h) _ _)

/-! ## All other tokens -/

def unsupported {α : Type} (construct : Unsupported) (start pos : Nat) : Slicing α :=
  throw ⟨.unsupported construct start, pos⟩

def parenthesis (text : String) (dialect : Dialect) (start pos : Nat) : Slicing (Token × Nat) := do
  if dialect = .perl5 then
    if ← startsWith text ['?', ':'] pos then return (.openGroup false .round, pos + 2)
    else if (← peek text pos) = some '?' then unsupported .groupModifier start pos
    else return (.openGroup true .round, pos)
  else return (.openGroup true .round, pos)

theorem parenthesis_eq (h : u.Follows (.ofChars text.toList)) (dialect : Dialect) (start : Nat) :
    parenthesis text dialect start u.offset = outcome (Unread.parenthesis dialect start u) := by
  rw [parenthesis, Unread.parenthesis]
  cases dialect with
  | perl6 => rfl
  | perl5 =>
    rw [if_pos (α := Slicing _) rfl, startsWith_eq h, pure_bind, peek_eq h]
    by_cases hquestion : u.chars.head? = some '?'
    · have hmodified : Dialect.perl5 = .perl5 ∧ u.chars.head? = some '?' := ⟨rfl, hquestion⟩
      rw [if_pos hmodified]
      by_cases hcolon : u.next.chars.head? = some ':'
      · have hprefix := (isPrefixOf_pair _ _ _).mpr ⟨hquestion, hcolon⟩
        rw [if_pos hprefix, if_pos hcolon, offset_next_next hprefix rfl rfl]
        rfl
      · have hprefix := mt (isPrefixOf_pair '?' ':' u).mp fun hpair => hcolon hpair.2
        rw [if_neg hprefix, if_neg hcolon, pure_bind, if_pos hquestion]
        rfl
    · have hprefix := mt (isPrefixOf_pair '?' ':' u).mp fun hpair => hquestion hpair.1
      rw [if_neg hprefix, pure_bind, if_neg hquestion, if_neg fun hpair => hquestion hpair.2]
      rfl

def escape (text : String) (dialect : Dialect) (start pos : Nat) : Slicing (Token × Nat) := do
  match ← advance text pos with
  | (none, next) => throw ⟨.unexpectedEnd .escapedCharacter, next⟩
  | (some c, next) =>
    if c = 'n' then return (.atom (.literal [10]), next)
    else if c = 't' then return (.atom (.literal [9]), next)
    else if c = 'r' then return (.atom (.literal [13]), next)
    else if c = '0' then return (.atom (.literal [0]), next)
    else if dialect = .perl5 ∧ c = 'A' then return (.atom (.anchor .start), next)
    else if dialect = .perl5 ∧ c = 'z' then return (.atom (.anchor .finish), next)
    else if c.isAlphanum then unsupported (.escape c) start next
    else return (.atom (.ofChar c), next)

theorem escape_eq (h : u.Follows (.ofChars text.toList)) (dialect : Dialect) (start : Nat) :
    escape text dialect start u.offset = outcome (Unread.escape dialect start u) := by
  rw [escape, advance_eq h, pure_bind, Unread.escape]
  cases hhead : u.chars.head? with
  | none =>
    have hnext : u.next = u := by
      rw [Unread.next, List.head?_eq_none_iff.mp hhead]
    rw [hnext]
    rfl
  | some c =>
    dsimp only
    split_ifs <;> rfl

def quoted (text : String) : (patience : Nat) → Bool → Nat → Slicing (List Char × Nat)
  | 0, _, _ => ExceptT.lift none
  | patience + 1, escaped, pos => do
    match ← advance text pos with
    | (none, next) => throw ⟨.unexpectedEnd .closingQuote, next⟩
    | (some c, next) =>
      if escaped then
        let (cs, stop) ← quoted text patience false next
        return (c :: cs, stop)
      else if c = '\'' then return ([], next)
      else if c = '\\' then quoted text patience true next
      else
        let (cs, stop) ← quoted text patience false next
        return (c :: cs, stop)

/-- What a quoted literal comes to in terms of offsets, in a text that ends at `size`. -/
def closed (size : Nat) : Option (List Char × Unread) → Slicing (List Char × Nat)
  | some (cs, v) => pure (cs, v.offset)
  | none => throw ⟨.unexpectedEnd .closingQuote, size⟩

theorem closed_map (size : Nat) (c : Char) (r : Option (List Char × Unread)) :
    (do let (cs, stop) ← closed size r; return (c :: cs, stop)) =
      closed size (r.map fun p => (c :: p.1, p.2)) := by
  cases r <;> rfl

theorem quoted_eq {patience : Nat} {cs : List Char} {o : Nat}
    (h : Unread.Follows ⟨o, cs⟩ (.ofChars text.toList)) (hpatience : cs.length < patience)
    (escaped : Bool) :
    quoted text patience escaped o =
      closed (o + utf8Length cs) (Unread.readQuoted? escaped o cs) := by
  induction cs generalizing patience escaped o with
  | nil =>
    obtain ⟨patience, rfl⟩ := Nat.exists_eq_add_of_lt hpatience
    rw [quoted, advance_eq h, pure_bind]
    cases escaped <;> rfl
  | cons c cs ih =>
    obtain ⟨patience, rfl⟩ := Nat.exists_eq_add_of_lt hpatience
    have hnext := (Unread.next_follows _).trans h
    have hrest : ∀ escaped, quoted text (cs.length + 1 + patience) escaped (o + c.utf8Size) =
        closed (o + utf8Length (c :: cs)) (Unread.readQuoted? escaped (o + c.utf8Size) cs) := by
      rw [utf8Length_cons, ← Nat.add_assoc]
      exact ih hnext (by omega)
    have hmore := (congrArg (· >>= fun p => pure (c :: p.1, p.2)) (hrest false)).trans
      (closed_map _ c _)
    rw [List.length_cons, quoted, advance_eq h, pure_bind]
    cases escaped with
    | true => exact hmore
    | false =>
      simp only [List.head?_cons, Unread.readQuoted?, Bool.false_eq_true, if_false]
      split
      · rfl
      · split
        · exact hrest true
        · exact hmore

def quotedLiteral (text : String) (patience pos : Nat) : Slicing (Token × Nat) := do
  match ← quoted text patience false pos with
  | ([], next) => return (.atom .empty, next)
  | (c :: cs, next) =>
    return (.atom (.literal ((c :: cs).flatMap String.utf8EncodeChar)), next)

theorem quotedLiteral_eq {patience : Nat} (h : u.Follows (.ofChars text.toList))
    (hpatience : u.chars.length < patience) :
    quotedLiteral text patience u.offset = outcome (Unread.quotedLiteral u) := by
  rw [quotedLiteral, quoted_eq h hpatience, Unread.quotedLiteral, Unread.quoted?]
  cases Unread.readQuoted? false u.offset u.chars with
  | none => rfl
  | some p =>
    obtain ⟨chars, v⟩ := p
    cases chars <;> rfl

/-- The anchor `twice` if the character stands at the offset once more, else `once`. -/
def doubled (text : String) (dialect : Dialect) (c : Char) (twice once : Anchor) (pos : Nat) :
    Slicing (Token × Nat) := do
  if dialect = .perl6 then
    if (← peek text pos) = some c then return (.atom (.anchor twice), pos + c.utf8Size)
    else return (.atom (.anchor once), pos)
  else return (.atom (.anchor once), pos)

theorem doubled_eq (h : u.Follows (.ofChars text.toList)) (dialect : Dialect) (c : Char)
    (twice once : Anchor) :
    doubled text dialect c twice once u.offset =
      outcome (if dialect = .perl6 ∧ u.chars.head? = some c then .ok (.atom (.anchor twice), u.next)
        else .ok (.atom (.anchor once), u)) := by
  rw [doubled, peek_eq h, pure_bind]
  cases dialect with
  | perl5 => rfl
  | perl6 =>
    rw [if_pos (α := Slicing _) rfl]
    by_cases hhead : u.chars.head? = some c
    · rw [if_pos hhead, if_pos ⟨rfl, hhead⟩, offset_next hhead]
      rfl
    · rw [if_neg hhead, if_neg fun hpair => hhead hpair.2]
      rfl

def unit (text : String) (patience : Nat) (dialect : Dialect) (start : Nat) (c : Char) (pos : Nat) :
    Slicing (Token × Nat) := do
  match c with
  | '|' => return (.bar, pos)
  | '(' => parenthesis text dialect start pos
  | ')' => return (.closeGroup .round, pos)
  | '[' =>
    if dialect = .perl6 then return (.openGroup false .square, pos)
    else unsupported .characterClass start pos
  | ']' => return (if dialect = .perl6 then .closeGroup .square else .atom (.ofChar c), pos)
  | '.' => return (.atom .wildcard, pos)
  | '^' => doubled text dialect '^' .lineStart .start pos
  | '$' => doubled text dialect '$' .lineEnd .finish pos
  | '\\' => escape text dialect start pos
  | '\'' =>
    if dialect = .perl6 then quotedLiteral text patience pos else return (.atom (.ofChar c), pos)
  | '*' => badQuantifier start pos
  | '+' => badQuantifier start pos
  | '?' => badQuantifier start pos
  | '\x7b' => if dialect = .perl5 then badQuantifier start pos else return (.atom (.ofChar c), pos)
  | c => return (.atom (.ofChar c), pos)

theorem unit_eq {patience : Nat} (h : u.Follows (.ofChars text.toList))
    (hpatience : u.chars.length < patience) (dialect : Dialect) (start : Nat) (c : Char) :
    unit text patience dialect start c u.offset = outcome (Unread.unit dialect start c u) := by
  unfold unit Unread.unit
  split
  · rfl
  · exact parenthesis_eq h dialect start
  · rfl
  · split <;> rfl
  · rfl
  · rfl
  · exact doubled_eq h dialect '^' .lineStart .start
  · exact doubled_eq h dialect '$' .lineEnd .finish
  · exact escape_eq h dialect start
  · split
    · exact quotedLiteral_eq h hpatience
    · rfl
  · rfl
  · rfl
  · rfl
  · split <;> rfl
  · simp only [outcome]
    rfl

/-! ## One token -/

def scan (text : String) (patience : Nat) (dialect : Dialect) (afterUnit : Bool) (pos : Nat) :
    Slicing (Option (Token × Nat)) := do
  match ← (if afterUnit then quantifier text patience dialect pos else return none) with
  | some (q, next) => return some (.quantifier q, next)
  | none =>
    match ← advance text pos with
    | (none, _) => return none
    | (some c, next) => some <$> unit text patience dialect pos c next

theorem scan_eq {patience : Nat} (h : u.Follows (.ofChars text.toList))
    (hpatience : u.chars.length < patience) (dialect : Dialect) (afterUnit : Bool) :
    scan text patience dialect afterUnit u.offset = outcome? (u.scan dialect afterUnit) := by
  have hquantifier : (if afterUnit then quantifier text patience dialect u.offset else pure none) =
      outcome? (if afterUnit then u.quantifier? dialect else none) := by
    cases afterUnit with
    | false => rfl
    | true => exact quantifier_eq h hpatience dialect
  rw [scan, hquantifier, Unread.scan]
  cases (if afterUnit then u.quantifier? dialect else none) with
  | some r => cases r <;> rfl
  | none =>
    have hnext := u.next_follows
    have hunit := fun c => unit_eq (hnext.trans h) (Nat.lt_of_le_of_lt hnext.length_le hpatience)
      dialect u.offset c
    rw [outcome?, pure_bind, advance_eq h]
    cases u.chars.head? with
    | none => rfl
    | some c => exact congrArg (some <$> ·) (hunit c)

end Slicing

end PatternMachine
