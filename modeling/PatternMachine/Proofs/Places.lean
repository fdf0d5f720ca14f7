import Mathlib.Data.String.Basic
import PatternMachine.Proofs.Stopping

/-!
# Byte offsets of characters

What is left of a text behind some characters begins at a byte offset that is valid in the text: it
is in the text and cuts no character.

* `slice?` — what stands in a text between two byte offsets, if both are valid.

Principal results: `isSome_slice?_iff` — a slice is there exactly if its ends are valid.
`Reader.placed_iff_isValid` — a reader is placed well where its offset is valid.
-/

set_option autoImplicit false

namespace PatternMachine

theorem utf8Length_eq_utf8Len (cs : List Char) : utf8Length cs = String.utf8Len cs := by
  induction cs with
  | nil => rfl
  | cons c cs ih => rw [utf8Length_cons, String.utf8Len_cons, ih, Nat.add_comm]

theorem utf8ByteSize_eq (text : String) : text.utf8ByteSize = utf8Length text.toList := by
  rw [utf8Length_eq_utf8Len, String.utf8Len_toList]

theorem rawEndPos_ofList (cs : List Char) : (String.ofList cs).rawEndPos = ⟨utf8Length cs⟩ := by
  rw [String.rawEndPos_ofList, utf8Length_eq_utf8Len]

/-! ## Slices -/

/-- What stands in a text from one byte offset to another. There is nothing if one of them is not in
the text or cuts a character, or if they are in the wrong order. -/
def slice? (text : String) (start stop : Nat) : Option (List Char) := do
  let first ← text.pos? ⟨start⟩
  let last ← text.pos? ⟨stop⟩
  let piece ← text.slice? first last
  return piece.copy.toList

theorem pos?_eq_some {text : String} {offset : String.Pos.Raw} (h : offset.IsValid text) :
    text.pos? offset = some (text.pos offset h) := by
  have hslice : offset.IsValidForSlice text.toSlice :=
    String.Pos.Raw.isValidForSlice_toSlice_iff.mpr h
  simp [String.pos?, String.Slice.pos?, String.pos, hslice]

theorem pos?_eq_none {text : String} {offset : String.Pos.Raw} (h : ¬ offset.IsValid text) :
    text.pos? offset = none := by
  have hslice : ¬ offset.IsValidForSlice text.toSlice :=
    mt String.Pos.Raw.isValidForSlice_toSlice_iff.mp h
  simp [String.pos?, String.Slice.pos?, hslice]

/-- A slice is there exactly if its ends are in the text, cut no character and are in order. -/
theorem isSome_slice?_iff {text : String} {start stop : Nat} :
    (slice? text start stop).isSome ↔
      (⟨start⟩ : String.Pos.Raw).IsValid text ∧ (⟨stop⟩ : String.Pos.Raw).IsValid text ∧
        start ≤ stop := by
  rw [slice?]
  by_cases hstart : (⟨start⟩ : String.Pos.Raw).IsValid text
  · by_cases hstop : (⟨stop⟩ : String.Pos.Raw).IsValid text
    · have hle : text.pos _ hstart ≤ text.pos _ hstop ↔ start ≤ stop := Iff.rfl
      rw [pos?_eq_some hstart, pos?_eq_some hstop]
      simp only [Option.bind_eq_bind, Option.bind_some, String.slice?, hle, hstart, hstop, true_and]
      split <;> simp [*]
    · simp [pos?_eq_none hstop, hstop]
  · simp [pos?_eq_none hstart, hstart]

/-- The slices of a text between characters are there. -/
theorem slice?_eq {text : String} {before mid after : List Char}
    (h : text.toList = before ++ mid ++ after) :
    slice? text (utf8Length before) (utf8Length (before ++ mid)) = some mid := by
  have hfront : text = String.ofList before ++ (String.ofList mid ++ String.ofList after) := by
    rw [← String.ofList_append, ← String.ofList_append, ← List.append_assoc, ← h,
      String.ofList_toList]
  have hback : text = String.ofList (before ++ mid) ++ String.ofList after := by
    rw [← String.ofList_append, ← h, String.ofList_toList]
  have hfirst : String.Pos.Raw.IsValid text ⟨utf8Length before⟩ :=
    String.Pos.Raw.isValid_iff_exists_append.mpr ⟨_, _, hfront, (rawEndPos_ofList _).symm⟩
  have hlast : String.Pos.Raw.IsValid text ⟨utf8Length (before ++ mid)⟩ :=
    String.Pos.Raw.isValid_iff_exists_append.mpr ⟨_, _, hback, (rawEndPos_ofList _).symm⟩
  have hsplits : (text.pos _ hfirst).Splits (String.ofList before)
      (String.ofList mid ++ String.ofList after) := ⟨hfront, (rawEndPos_ofList _).symm⟩
  have hsplits' : (text.pos _ hlast).Splits (String.ofList before ++ String.ofList mid)
      (String.ofList after) := by
    rw [← String.ofList_append]
    exact ⟨hback, (rawEndPos_ofList _).symm⟩
  obtain ⟨hle, hcopy⟩ := String.copy_slice_eq_iff_splits.mpr ⟨_, _, hsplits, hsplits'⟩
  have hslice : text.slice? (text.pos _ hfirst) (text.pos _ hlast) = some (text.slice _ _ hle) :=
    dif_pos hle
  rw [slice?, pos?_eq_some hfirst, pos?_eq_some hlast]
  simp only [Option.bind_eq_bind, Option.bind_some, hslice, hcopy, String.toList_ofList]
  rfl

/-! ## What is left of a text -/

namespace Unread

variable {text : String} {u : Unread}

/-- What is left of a text begins at a character, or at its end. -/
theorem Follows.isValid (h : u.Follows (.ofChars text.toList)) :
    (⟨u.offset⟩ : String.Pos.Raw).IsValid text := by
  obtain ⟨passed, htext, hoffset⟩ := h
  refine String.Pos.Raw.isValid_iff_exists_append.mpr
    ⟨String.ofList passed, String.ofList u.chars, ?_, ?_⟩
  · rw [← String.ofList_append, ← htext]
    exact String.ofList_toList.symm
  · rw [rawEndPos_ofList, hoffset]
    exact congrArg String.Pos.Raw.mk (Nat.zero_add _)

/-- At the offset stands the first character of what is left. -/
theorem Follows.get? (h : u.Follows (.ofChars text.toList)) :
    (⟨u.offset⟩ : String.Pos.Raw).get? text = u.chars.head? := by
  obtain ⟨passed, htext, hoffset⟩ := h
  have hget := String.get?_of_valid passed u.chars
  rw [← show text.toList = passed ++ u.chars from htext, String.ofList_toList,
    ← utf8Length_eq_utf8Len] at hget
  rw [hoffset]
  exact (congrArg (String.Pos.Raw.get? text ⟨·⟩) (Nat.zero_add _)).trans hget

/-- The bytes of what is left go up to the end of the text. -/
theorem Follows.utf8ByteSize_eq (h : u.Follows (.ofChars text.toList)) :
    text.utf8ByteSize = u.finish.offset := by
  rw [h.finish, PatternMachine.utf8ByteSize_eq]
  exact (Nat.zero_add _).symm

end Unread

/-- A reader is placed well where its offset is in the text and cuts no character. -/
theorem Reader.placed_iff_isValid (r : Reader) :
    r.Placed ↔ (⟨r.offset⟩ : String.Pos.Raw).IsValid r.text := by
  constructor
  · intro h
    have hvalid := r.unread_follows.isValid
    rwa [show r.unread.offset = r.offset from h] at hvalid
  · intro h
    obtain ⟨before, after, htext, hoffset⟩ := String.Pos.Raw.isValid_iff_exists_append.mp h
    refine placed_of_follows (v := ⟨r.offset, after.toList⟩) ⟨before.toList, ?_, ?_⟩ rfl
    · exact (congrArg String.toList htext).trans String.toList_append
    · have hbytes := congrArg String.Pos.Raw.byteIdx hoffset
      exact hbytes.trans ((PatternMachine.utf8ByteSize_eq before).trans (Nat.zero_add _).symm)

end PatternMachine
