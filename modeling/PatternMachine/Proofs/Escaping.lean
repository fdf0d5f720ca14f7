import PatternMachine.Proofs.Parsing

/-!
# Plain text as a pattern

A text is made a pattern that stands for the text itself by backslashes in front of all characters
but the letters and digits of ASCII, or in Perl 6 rules by quotes around it.

* `escapedText`, `quotedText` — the two ways to write a text; `textBytes` — its bytes in UTF-8.
* `charLiterals` — the literals of a list of characters, one for each.

Principal results: `Ordinary.of_isAlphanum` — letters and digits stand for themselves.
`parse_escapedText`, `parse_quotedText` — either way of writing is parsed into one literal with the
bytes of the text.
-/

set_option autoImplicit false

namespace PatternMachine

open Grammar

/-! ## Letters and digits -/

theorem toNat_of_isAlphanum {c : Char} (h : c.isAlphanum = true) :
    48 ≤ c.toNat ∧ c.toNat ≤ 122 := by
  delta Char.isAlphanum Char.isAlpha Char.isUpper Char.isLower Char.isDigit at h
  simp only [Bool.or_eq_true, Bool.and_eq_true, decide_eq_true_eq, ge_iff_le,
    UInt32.le_iff_toNat_le] at h
  change ((65 ≤ c.toNat ∧ c.toNat ≤ 90) ∨ (97 ≤ c.toNat ∧ c.toNat ≤ 122)) ∨
    (48 ≤ c.toNat ∧ c.toNat ≤ 57) at h
  omega

theorem isAlphanum_of_special {d : Dialect} {c : Char} (h : c ∈ specials d) :
    c.isAlphanum = false := by
  have hall : (specials d).all (!·.isAlphanum) = true := by cases d <;> decide
  simpa using List.all_eq_true.mp hall c h

theorem isAlphanum_of_isBlank {c : Char} (h : isBlank c = true) : c.isAlphanum = false := by
  rw [← Bool.not_eq_true]
  intro halphanum
  have hrange := toNat_of_isAlphanum halphanum
  simp only [isBlank, blankRanges, List.any_cons, List.any_nil, Bool.or_eq_true, Bool.and_eq_true,
    decide_eq_true_eq, Bool.false_eq_true, or_false] at h
  omega

/-- **Letters and digits stand for themselves.** -/
theorem Grammar.Ordinary.of_isAlphanum (d : Dialect) {c : Char} (h : c.isAlphanum = true) :
    Ordinary d c where
  not_special := by
    intro hspecial
    rw [isAlphanum_of_special hspecial] at h
    cases h
  not_blank := by
    intro _
    rw [← Bool.not_eq_true]
    intro hblank
    rw [isAlphanum_of_isBlank hblank] at h
    cases h

/-! ## The texts -/

/-- A character, behind a backslash unless it is a letter or a digit. -/
def escapedChar (c : Char) : List Char := if c.isAlphanum then [c] else ['\\', c]

/-- The text with a backslash before every character that is no letter or digit of ASCII. -/
def escapedText (text : String) : String := String.ofList (text.toList.flatMap escapedChar)

/-- A character between quotes, behind a backslash if it is a quote or a backslash. -/
def quotedChar (c : Char) : List Char := if c = '\'' ∨ c = '\\' then ['\\', c] else [c]

/-- The text in quotes, with a backslash before every quote and backslash. -/
def quotedText (text : String) : String :=
  String.ofList ('\'' :: (text.toList.flatMap quotedChar ++ ['\'']))

/-- The bytes of a text in UTF-8. -/
def textBytes (text : String) : List UInt8 := text.toUTF8.data.toList

theorem textBytes_eq (text : String) :
    textBytes text = text.toList.flatMap String.utf8EncodeChar := by
  rw [textBytes, String.toUTF8_eq_toByteArray, ← String.utf8Encode_toList, List.utf8Encode,
    List.data_toByteArray]

theorem length_textBytes (text : String) : (textBytes text).length = text.utf8ByteSize := rfl

theorem textBytes_ne_nil {text : String} (h : text ≠ "") : textBytes text ≠ [] := by
  intro hnil
  apply h
  rw [← String.utf8ByteSize_eq_zero_iff, ← length_textBytes, hnil]
  rfl

/-! ## Escaped texts -/

variable {d : Dialect}

/-- The literals of characters, with the numbers from `nextId` on. -/
def charLiterals (nextId : Nat) : List Char → List Pattern
  | [] => []
  | c :: cs =>
    (Atom.ofChar c).toPattern (UInt32.ofNat nextId) :: charLiterals (nextId + 1) cs

theorem literal_escapedChar (c : Char) (rest : List Char) :
    Literal d (String.utf8EncodeChar c) (escapedChar c ++ rest) rest := by
  unfold escapedChar
  split
  · rename_i hc
    exact .char (.of_isAlphanum d hc)
  · rename_i hc
    exact .escaped (Bool.not_eq_true _ ▸ hc)

/-- Escaped characters are read: each of them becomes an item. -/
theorem reads_escaped (cs rest : List Char) (f : Bool) (draft : Draft) :
    ∃ f', draft.Reads d f (cs.flatMap escapedChar ++ rest) f'
      ⟨⟨draft.supply.nextId + cs.length, draft.supply.nextCapture⟩,
        ⟨draft.level.branches,
          (charLiterals draft.supply.nextId cs).reverse ++ draft.level.items⟩,
        draft.outer⟩ rest := by
  induction cs generalizing f draft with
  | nil => exact ⟨f, .trivia .none f draft⟩
  | cons c cs ih =>
    have hchar := reads_atom (Atom.ofChar c)
      (literal_escapedChar (d := d) c (cs.flatMap escapedChar ++ rest)) f draft
    obtain ⟨f', hcs⟩ := ih true ⟨⟨draft.supply.nextId + 1, draft.supply.nextCapture⟩,
      draft.level.add ((Atom.ofChar c).toPattern (UInt32.ofNat draft.supply.nextId)), draft.outer⟩
    have hreads := hchar.trans hcs
    refine ⟨f', ?_⟩
    simpa [charLiterals, Level.add, Nat.add_assoc, Nat.add_comm 1] using hreads

theorem onceLiteral?_charLiterals (nextId : Nat) (cs : List Char) :
    List.Forall₂ (fun p bytes => p.onceLiteral? = some bytes) (charLiterals nextId cs)
      (cs.map String.utf8EncodeChar) := by
  induction cs generalizing nextId with
  | nil => exact .nil
  | cons c cs ih => exact .cons rfl (ih (nextId + 1))

/-- The literals of characters are joined to one. -/
theorem joinLiterals_charLiterals (nextId : Nat) (c : Char) (cs : List Char) :
    joinLiterals (charLiterals nextId (c :: cs)) =
      [.literal (UInt32.ofNat nextId) ((c :: cs).flatMap String.utf8EncodeChar) .once] := by
  have hjoin : joinLiterals (.literal (UInt32.ofNat nextId) (String.utf8EncodeChar c) .once ::
      (charLiterals (nextId + 1) cs ++ [])) = _ :=
    joinLiterals_run rfl _ _ (onceLiteral?_charLiterals (nextId + 1) cs) nofun
  rw [List.append_nil] at hjoin
  exact hjoin

/-- **An escaped text is parsed into one literal**, in both dialects. -/
theorem parse_escapedText (d : Dialect) {text : String} (h : text ≠ "") :
    parse d (escapedText text) = .ok (.literal 1 (textBytes text) .once) := by
  obtain ⟨f, hreads⟩ := reads_escaped (d := d) text.toList [] false (Draft.new .initial)
  rw [List.append_nil, ← String.toList_ofList (l := text.toList.flatMap escapedChar)] at hreads
  refine (parse_of_reads hreads).trans ?_
  cases hcs : text.toList with
  | nil => exact absurd (String.toList_eq_nil_iff.mp hcs) h
  | cons c cs =>
    rw [textBytes_eq, hcs]
    simp [Level.body, Level.branch, Draft.new, Level.new, Supply.initial, nest, sequence,
      joinLiterals_charLiterals]

/-! ## Quoted texts -/

theorem quoted_quotedChars (cs rest : List Char) :
    Quoted cs (cs.flatMap quotedChar ++ '\'' :: rest) rest := by
  induction cs with
  | nil => exact .close
  | cons c cs ih =>
    rw [List.flatMap_cons, quotedChar]
    split
    · exact .escaped ih
    · rename_i hc
      rw [not_or] at hc
      exact .char hc.1 hc.2 ih

/-- **A quoted text is parsed into one literal** as a Perl 6 rule. -/
theorem parse_quotedText {text : String} (h : text ≠ "") :
    parse .perl6 (quotedText text) = .ok (.literal 1 (textBytes text) .once) := by
  have hne : text.toList ≠ [] := fun hnil => h (String.toList_eq_nil_iff.mp hnil)
  have hliteral : Literal .perl6 (textBytes text) (quotedText text).toList [] := by
    rw [textBytes_eq, quotedText, String.toList_ofList]
    exact .quoted hne (quoted_quotedChars text.toList [])
  exact parse_of_reads (reads_atom (.literal (textBytes text)) hliteral false (Draft.new .initial))

end PatternMachine
