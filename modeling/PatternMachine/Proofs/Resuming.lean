import PatternMachine.Proofs.Blaming
import PatternMachine.Proofs.Slicing

/-!
# Readers that take slices

A reader may begin where a character begins, or at the end of its text.  With slices it reads what
it reads without them, and it stops where it can begin again.

* `Slicing.read` — the rest of a text read with slices.
* `Reader.readSlices?` — what a reader does that takes slices.

Principal results: `Slicing.read_eq` — between characters all slices are there that reading takes.
`Reader.Placed.offset_of_error` — the offset of an error is that of a character.
`Reader.reading_keeps_to_characters` — both, for every reader that may begin.
-/

set_option autoImplicit false

namespace PatternMachine

namespace Slicing

variable {text : String} {u : Unread}

/-! ## Whole texts -/

/-- The next token and the offset where it begins. Where there is none, that is the end of the
text. -/
def lexeme (text : String) (patience : Nat) (dialect : Dialect) (afterUnit : Bool) (pos : Nat) :
    Slicing (Nat × Option (Token × Nat)) := do
  let start ← skipTrivia text patience dialect pos
  return (start, ← scan text patience dialect afterUnit start)

theorem lexeme_eq {patience : Nat} (h : u.Follows (.ofChars text.toList))
    (hpatience : u.chars.length < patience) (dialect : Dialect) (afterUnit : Bool) :
    lexeme text patience dialect afterUnit u.offset = (do
      let next ← outcome? ((u.skipTrivia dialect).scan dialect afterUnit)
      return ((u.skipTrivia dialect).offset, next)) := by
  have hskip := u.skipTrivia_follows dialect
  rw [lexeme, skipTrivia_eq h hpatience, pure_bind,
    scan_eq (hskip.trans h) (Nat.lt_of_le_of_lt hskip.length_le hpatience)]

/-- Reads into a draft from an offset to the end of the text, and gives the offset reached. -/
def read (text : String) (dialect : Dialect) :
    (patience : Nat) → (afterUnit : Bool) → Draft → (pos : Nat) →
      ExceptT (Failure × Supply) Option (Pattern × Supply × Nat)
  | 0, _, _, _ => ExceptT.lift none
  | patience + 1, afterUnit, draft, pos => do
    match ← (lexeme text (patience + 1) dialect afterUnit pos).adapt (·, draft.supply) with
    | (start, none) =>
      let (pattern, supply) ← MonadExcept.ofExcept (draft.finish joinLiterals start)
      return (pattern, supply, start)
    | (start, some (token, stop)) =>
      let draft ← MonadExcept.ofExcept (draft.feed joinLiterals ⟨token, start, stop⟩)
      read text dialect patience token.endsUnit draft stop

/-- A token is fed to the draft, and reading goes on behind it. -/
theorem read_token (h : u.Follows (.ofChars text.toList)) {patience : Nat}
    (hpatience : u.chars.length < patience + 1) {dialect : Dialect} {afterUnit : Bool} {t : Token}
    {w : Unread} (hscan : (u.skipTrivia dialect).scan dialect afterUnit = some (.ok (t, w)))
    (draft : Draft) :
    read text dialect (patience + 1) afterUnit draft u.offset =
      (do
        let draft ← MonadExcept.ofExcept
          (draft.feed joinLiterals ⟨t, (u.skipTrivia dialect).offset, w.offset⟩)
        read text dialect patience t.endsUnit draft w.offset) := by
  rw [read, lexeme_eq h hpatience, hscan]
  rfl

/-- Where there is no token, the text is at its end. -/
theorem read_done (h : u.Follows (.ofChars text.toList)) {patience : Nat}
    (hpatience : u.chars.length < patience + 1) {dialect : Dialect} {afterUnit : Bool}
    (hscan : (u.skipTrivia dialect).scan dialect afterUnit = none) (draft : Draft) :
    read text dialect (patience + 1) afterUnit draft u.offset = (do
      let (pattern, supply) ←
        MonadExcept.ofExcept (draft.finish joinLiterals (u.skipTrivia dialect).offset)
      return (pattern, supply, u.finish.offset)) := by
  have hend : (u.skipTrivia dialect).offset = u.finish.offset := by
    rw [← (u.skipTrivia_follows dialect).finish, Unread.finish, Unread.chars_of_scan_none hscan]
    rfl
  rw [read, lexeme_eq h hpatience, hscan, ← hend]
  rfl

/-- **Every text can be read in slices.** -/
theorem read_eq (h : u.Follows (.ofChars text.toList)) {patience : Nat}
    (hpatience : u.chars.length < patience) (dialect : Dialect) (afterUnit : Bool) (draft : Draft) :
    read text dialect patience afterUnit draft u.offset =
      ExceptT.mk (some ((draft.read dialect afterUnit u).map fun p =>
        (p.1, p.2, u.finish.offset))) := by
  revert patience h
  refine Draft.read_induction (d := dialect) (motive := fun afterUnit draft u r =>
    u.Follows (.ofChars text.toList) → ∀ {patience}, u.chars.length < patience →
      read text dialect patience afterUnit draft u.offset =
        ExceptT.mk (some (r.map fun p => (p.1, p.2, u.finish.offset))))
    ?done ?failed ?refused ?fed afterUnit draft u
  case done =>
    intro afterUnit draft u hscan h patience hpatience
    obtain ⟨patience, rfl⟩ := Nat.exists_eq_add_of_lt hpatience
    rw [read_done h hpatience hscan]
    cases draft.finish joinLiterals (u.skipTrivia dialect).offset <;> rfl
  case failed =>
    intro afterUnit draft u failure hscan h patience hpatience
    obtain ⟨patience, rfl⟩ := Nat.exists_eq_add_of_lt hpatience
    rw [read, lexeme_eq h hpatience, hscan]
    rfl
  case refused =>
    intro afterUnit draft u t w e hscan hfeed h patience hpatience
    obtain ⟨patience, rfl⟩ := Nat.exists_eq_add_of_lt hpatience
    rw [read_token h hpatience hscan, hfeed]
    rfl
  case fed =>
    intro afterUnit draft u t w draft' hscan hfeed ih h patience hpatience
    obtain ⟨patience, rfl⟩ := Nat.exists_eq_add_of_lt hpatience
    have hw := Draft.follows_of_scan hscan
    -- One step of patience less is enough, as a token has a character at least.
    have hshorter : w.chars.length < u.chars.length + patience :=
      Nat.lt_add_right patience (Nat.lt_of_lt_of_le (Unread.scan_length hscan)
        (u.skipTrivia_follows dialect).length_le)
    rw [read_token h hpatience hscan, hfeed, ← hw.finish]
    exact ih (hw.trans h) hshorter

end Slicing

/-! ## Readers -/

/-- What a reader does that takes slices: its answer, and the reader where it stopped. -/
def Reader.readSlices? (patience : Nat) (r : Reader) :
    Option (Except SyntaxError Pattern × Reader) :=
  (Slicing.read r.text r.dialect patience false (Draft.new r.supply) r.offset).run.map fun
    | .ok (pattern, supply, pos) => (.ok pattern, { r with offset := pos, supply := supply })
    | .error (failure, supply) =>
      (.error failure.error, { r with offset := failure.offset, supply := supply })

namespace Reader

open Unread

variable {r : Reader}

/-- A reader that is placed well can take slices; it needs no more steps than the text has
characters. -/
theorem Placed.readSlices? (h : r.Placed) {patience : Nat} (hpatience : r.text.length < patience) :
    r.readSlices? patience = some r.read := by
  have hfollows := r.unread_follows
  have hlength : r.unread.chars.length < patience :=
    Nat.lt_of_le_of_lt (hfollows.length_le.trans (Nat.le_of_eq String.length_toList)) hpatience
  have hread := Slicing.read_eq hfollows hlength r.dialect false (Draft.new r.supply)
  rw [show r.unread.offset = r.offset from h] at hread
  rw [Reader.readSlices?, hread, read_eq]
  cases (Draft.new r.supply).read r.dialect false r.unread <;> rfl

/-- A reader that succeeds stops at the end of its text. -/
theorem offset_of_ok {tree : Pattern} (h : r.read.1 = .ok tree) :
    r.read.2.offset = r.text.utf8ByteSize := by
  rw [r.unread_follows.utf8ByteSize_eq]
  rw [read_eq] at h ⊢
  split at h
  · rfl
  · cases h

/-- The offset that an error gives is that of a character which had not been read. -/
theorem Placed.offset_of_error (h : r.Placed) {e : SyntaxError} {offset : Nat}
    (herror : r.read.1 = .error e) (hoffset : e.offset? = some offset) :
    r.offset ≤ offset ∧ (⟨offset⟩ : String.Pos.Raw).IsValid r.text ∧ offset < r.text.utf8ByteSize ∧
      ∃ c, (⟨offset⟩ : String.Pos.Raw).get? r.text = some c ∧
        ∀ found, e = .unexpected found offset → found = c := by
  obtain ⟨v, hv, hpoints⟩ : ∃ v, Follows v r.unread ∧ e.PointsAt v := by
    rw [read_eq] at herror
    split at herror
    · cases herror
    · rename_i hread
      cases herror
      exact Draft.read_blames hread
  obtain ⟨rfl, c, hc, hfound⟩ := hpoints.head? hoffset
  have htext := hv.trans r.unread_follows
  have hchars : v.chars ≠ [] := by
    intro hnil
    rw [hnil] at hc
    cases hc
  have hstart : r.unread.offset = r.offset := h
  have hend : v.offset < r.text.utf8ByteSize := by
    rw [htext.utf8ByteSize_eq]
    exact Nat.lt_of_lt_of_le (next_offset hchars) v.next_follows.offset_le_finish
  exact ⟨hstart ▸ hv.offset_le, htext.isValid, hend, c, htext.get?.trans hc, hfound⟩

/-- **Reading takes no slice that leaves the text or cuts a character.**  Take a reader that may
begin, and more steps than its text has characters.  With slices it comes to an end, and reads what
it reads without them.  It stops where a character begins or at the end of the text, not before it
began, so that it can be asked again; if it succeeds, at the end.  The offset that an error gives is
that of a character from where the reader began on, and this is the character that is called
unexpected, if one is. -/
theorem reading_keeps_to_characters (r : Reader)
    (h : (⟨r.offset⟩ : String.Pos.Raw).IsValid r.text) :
    (∀ patience, r.text.length < patience → r.readSlices? patience = some r.read) ∧
    r.read.2.text = r.text ∧ (⟨r.read.2.offset⟩ : String.Pos.Raw).IsValid r.read.2.text ∧
    r.offset ≤ r.read.2.offset ∧ r.read.2.offset ≤ r.text.utf8ByteSize ∧
    (∀ tree, r.read.1 = .ok tree → r.read.2.offset = r.text.utf8ByteSize) ∧
    ∀ e offset, r.read.1 = .error e → e.offset? = some offset →
      r.offset ≤ offset ∧ (⟨offset⟩ : String.Pos.Raw).IsValid r.text ∧
        offset < r.text.utf8ByteSize ∧ ∃ c, (⟨offset⟩ : String.Pos.Raw).get? r.text = some c ∧
          ∀ found, e = .unexpected found offset → found = c := by
  have hplaced := r.placed_iff_isValid.mpr h
  obtain ⟨hplaced', hle, hfinish⟩ := hplaced.read
  rw [← r.unread_follows.utf8ByteSize_eq] at hfinish
  exact ⟨fun patience => hplaced.readSlices?, r.read_text, r.read.2.placed_iff_isValid.mp hplaced',
    hle, hfinish, fun tree => offset_of_ok, fun e offset => hplaced.offset_of_error⟩

/-- A reader that has read the first of the characters `ü(é)é)`, which has two bytes. -/
def behindUmlaut : Reader := ⟨.perl5, "ü(é)é)", 2, .initial⟩

/-- Reading goes on behind a character of two bytes, and passes others. The last parenthesis closes
nothing. -/
theorem reading_keeps_to_characters_behindUmlaut :
    (⟨2⟩ : String.Pos.Raw).IsValid behindUmlaut.text ∧
      behindUmlaut.read.1 = .error (.unexpected ')' 8) ∧
      behindUmlaut.readSlices? 7 = some behindUmlaut.read ∧
      (⟨8⟩ : String.Pos.Raw).IsValid behindUmlaut.text ∧
      (⟨8⟩ : String.Pos.Raw).get? behindUmlaut.text = some ')' := by
  have hvalid : (⟨2⟩ : String.Pos.Raw).IsValid behindUmlaut.text :=
    String.Pos.Raw.isValid_iff_exists_append.mpr ⟨"ü", "(é)é)", rfl, rfl⟩
  have hread : behindUmlaut.read.1 = .error (.unexpected ')' 8) := by decide +kernel
  obtain ⟨hslices, -, -, -, -, -, herror⟩ := reading_keeps_to_characters behindUmlaut hvalid
  obtain ⟨-, hstop, -, c, hc, hfound⟩ := herror _ 8 hread rfl
  exact ⟨hvalid, hread, hslices 7 (by decide), hstop, hfound ')' rfl ▸ hc⟩

end Reader

end PatternMachine
