import Mathlib.Tactic.SplitIfs
import PatternMachine.Program.Listing

/-!
# The lines of a listing

A listing is one text.  That it can be taken apart into its lines again rests on each of them being
one line, although comments and quoted bytes come from the pattern.

* `unlines` — the text of some lines; `textLines` — the lines of a text.
* `markerLead` — how a line marker begins; `withoutMarkers` — a text without its line markers.

Principal results: `textLines_unlines` — lines without newlines are read back.
`newline_not_mem_text` — an instruction is one line in the listing if its comment is one, whatever
bytes it holds.  `markerLead_not_prefix_text` — no instruction looks like a line marker.
-/

set_option autoImplicit false

namespace PatternMachine

/-! ## Lines -/

/-- The text of lines, each of which ends in a newline. -/
def unlines (lines : List String) : String := String.join (lines.map (· ++ "\n"))

/-- The lines of a text, as lists of characters; what stands behind the last newline is a line,
too. -/
def textLines (text : String) : List (List Char) := text.toList.splitOn '\n'

/-- How a line marker begins. -/
def markerLead : List Char := "# line ".toList

/-- A text without its line markers, that is, without the lines that begin like one. -/
def withoutMarkers (text : String) : String :=
  String.ofList (['\n'].intercalate
    ((textLines text).filter fun line => !markerLead.isPrefixOf line))

theorem toList_unlines (lines : List String) :
    (unlines lines).toList = ['\n'].intercalate (lines.map String.toList ++ [[]]) := by
  induction lines with
  | nil => rfl
  | cons line lines ih =>
    have hne : lines.map String.toList ++ [[]] ≠ [] := by simp
    rw [unlines, List.map_cons, String.join_cons, String.toList_append, ← unlines, ih,
      List.map_cons, List.cons_append, List.intercalate_cons_of_ne_nil hne]
    simp

/-- **Lines without newlines are read back.** Behind the newline of the last one stands the empty
line. -/
theorem textLines_unlines {lines : List String} (h : ∀ line ∈ lines, '\n' ∉ line.toList) :
    textLines (unlines lines) = lines.map String.toList ++ [[]] := by
  rw [textLines, toList_unlines]
  apply List.splitOn_intercalate
  · intro line hline
    rcases List.mem_append.mp hline with hline | hline
    · obtain ⟨text, htext, rfl⟩ := List.mem_map.mp hline
      exact h text htext
    · rw [List.mem_singleton.mp hline]
      exact List.not_mem_nil
  · simp

/-- Leaving out line markers is leaving out the lines that begin like one. -/
theorem withoutMarkers_unlines {lines : List String} (h : ∀ line ∈ lines, '\n' ∉ line.toList) :
    withoutMarkers (unlines lines) =
      unlines (lines.filter fun line => !markerLead.isPrefixOf line.toList) := by
  have hmap : (lines.map String.toList).filter (fun line => !markerLead.isPrefixOf line) =
      (lines.filter fun line => !markerLead.isPrefixOf line.toList).map String.toList := by
    rw [List.filter_map]
    rfl
  rw [withoutMarkers, textLines_unlines h, List.filter_append, hmap, ← String.toList_inj,
    String.toList_ofList, toList_unlines]
  rfl

/-! ## What stands on a line -/

@[simp]
theorem newline_not_mem_toDigits (n : Nat) : '\n' ∉ Nat.toDigits 10 n := by
  intro h
  have hdigit := Nat.isDigit_of_mem_toDigits (by decide) (by decide) h
  revert hdigit
  decide

/-- A hexadecimal digit is no newline. -/
theorem newline_ne_hexDigit {n : Nat} (h : n < 16) : '\n' ≠ Quoted.hexDigit n := by
  have hall : ∀ n < 16, '\n' ≠ Quoted.hexDigit n := by decide
  exact hall n h

/-- Every byte is written by characters that are no newline. -/
@[simp]
theorem newline_not_mem_encodeByte (b : UInt8) : '\n' ∉ Quoted.encodeByte b := by
  have hlt := b.toNat_lt
  have hhigh := newline_ne_hexDigit (show b.toNat / 16 < 16 by omega)
  have hlow := newline_ne_hexDigit (show b.toNat % 16 < 16 by omega)
  unfold Quoted.encodeByte
  split_ifs with _ _ _ _ _ _ hprintable
  · decide
  · decide
  · decide
  · decide
  · decide
  · decide
  · have hle : 32 ≤ b.toNat ∧ b.toNat ≤ 126 := hprintable
    have hall : ∀ n < 127, 32 ≤ n → '\n' ≠ Char.ofNat n := by decide
    rw [List.mem_singleton]
    exact hall b.toNat (by omega) hle.1
  · simp [hhigh, hlow]

@[simp]
theorem newline_not_mem_quoted (bytes : List UInt8) : '\n' ∉ (Quoted.text bytes).toList := by
  simp [Quoted.text, Quoted.encode]

@[simp]
theorem newline_not_mem_label (label : Label) : '\n' ∉ label.text.toList := by
  cases label <;> simp [Label.text]

@[simp]
theorem newline_not_mem_register (r : Register) : '\n' ∉ r.text.toList := by
  cases r <;> decide

@[simp]
theorem newline_not_mem_comparison (comparison : Comparison) :
    '\n' ∉ comparison.text.toList := by
  cases comparison <;> decide

@[simp]
theorem newline_not_mem_operand (operand : Operand) : '\n' ∉ operand.text.toList := by
  cases operand <;> simp [Operand.text]

@[simp]
theorem newline_not_mem_condition (condition : Condition) : '\n' ∉ condition.text.toList := by
  unfold Condition.text
  cases condition with
  | register r comparison operand | count group comparison value => simp
  | literal bytes expected => cases expected <;> simp [equalityText]
  | newline offset expected =>
    have hoffset : '\n' ∉ (offsetText offset).toList := by
      unfold offsetText
      split_ifs <;> simp
    cases expected <;> simp [equalityText, hoffset]

/-- **An instruction is one line in the listing** if its comment is one. -/
theorem newline_not_mem_text {i : Instruction}
    (h : ∀ label comment, i = .block label (some comment) → '\n' ∉ comment.toList) :
    '\n' ∉ i.text.toList := by
  cases i with
  | block label comment =>
    cases comment with
    | none =>
      cases hinner : label.isInner <;> simp [Instruction.text, Instruction.blockText, hinner]
    | some comment =>
      have hcomment := h label comment rfl
      cases hinner : label.isInner <;>
        simp [Instruction.text, Instruction.blockText, Instruction.padded, hinner, hcomment]
  | add r operand | sub r operand =>
    by_cases hone : operand = .imm 1 <;> simp [Instruction.text, hone]
  | enter group capturing =>
    cases capturing <;> simp [Instruction.text, Instruction.counterText, Instruction.recordText]
  | _ => simp [Instruction.text, Instruction.counterText, Instruction.recordText]

/-! ## Line markers -/

/-- The line that defines a label begins with the label, or with spaces in front of it. -/
theorem exists_blockText (label : Label) (comment : Option String) :
    ∃ rest, (Instruction.blockText label comment).toList =
      ((if label.isInner then "  " else "") ++ label.text).toList ++ rest := by
  cases comment with
  | none => exact ⟨_, String.toList_append⟩
  | some comment =>
    rw [Instruction.blockText, Instruction.padded]
    simp only [String.toList_append, List.append_assoc]
    exact ⟨_, rfl⟩

/-- **No instruction looks like a line marker**: it begins with a space or as a label does. -/
theorem head?_text_ne (i : Instruction) : i.text.toList.head? ≠ some '#' := by
  cases i with
  | block label comment =>
    obtain ⟨rest, hrest⟩ := exists_blockText label comment
    rw [Instruction.text, hrest]
    cases hinner : label.isInner with
    | true =>
      rw [if_pos rfl]
      simp
    | false =>
      rw [if_neg (by simp)]
      cases label with
      | fail | failForever => cases hinner
      | _ => simp [Label.text]
  | add r operand | sub r operand =>
    by_cases hone : operand = .imm 1 <;> simp [Instruction.text, hone]
  | enter group capturing => cases capturing <;> simp [Instruction.text]
  | _ => simp [Instruction.text]

theorem markerLead_isPrefixOf {line : List Char} (h : line.head? ≠ some '#') :
    markerLead.isPrefixOf line = false := by
  cases line with
  | nil => rfl
  | cons c cs =>
    have hc : ('#' == c) = false := by
      rw [beq_eq_false_iff_ne]
      rintro rfl
      exact h rfl
    have hlead : markerLead = '#' :: [' ', 'l', 'i', 'n', 'e', ' '] := rfl
    rw [hlead, List.isPrefixOf, hc]
    rfl

end PatternMachine
