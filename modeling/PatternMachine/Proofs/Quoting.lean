import Mathlib.Tactic.SplitIfs
import PatternMachine.Text.Quoted

/-!
# Quoted bytes are read back

The written form of bytes can stand anywhere in a line: it is printable ASCII, and it says by itself
where it ends.

* `Printable` — the printable characters of ASCII.
* `EscapesNext` — a text ends in a backslash that is not itself escaped.
* `Guarded` — every double quote of a text is escaped.

Principal results: `encodeByte_cases` — a byte is written as a short escape, as itself, or by two
digits.  `guarded_encode` — what stands between the quotes is guarded.  `decode?_encode` — reading
gives back the bytes and stops at the closing quote, whatever follows it.  `quoted_reads_back` — all
of it for the quoted text.
-/

set_option autoImplicit false

namespace PatternMachine.Quoted

/-! ## One byte -/

/-- The printable characters of ASCII. -/
def Printable (c : Char) : Prop := 0x20 ≤ c.toNat ∧ c.toNat ≤ 0x7e

instance (c : Char) : Decidable (Printable c) := inferInstanceAs (Decidable (_ ∧ _))

theorem printable_hexDigit {n : Nat} (h : n < 16) : Printable (hexDigit n) := by
  have hall : ∀ n < 16, Printable (hexDigit n) := by decide
  exact hall n h

theorem hexValue?_hexDigit {n : Nat} (h : n < 16) : hexValue? (hexDigit n) = some n := by
  have hall : ∀ n < 16, hexValue? (hexDigit n) = some n := by decide
  exact hall n h

theorem printable_of_shortEscape? {c : Char} {b : UInt8} (h : shortEscape? c = some b) :
    Printable c := by
  unfold shortEscape? at h
  split_ifs at h <;> subst c <;> decide

/-- A printable character other than the quote and the backslash is one byte. -/
theorem plain_ofNat {n : Nat} (hlow : 32 ≤ n) (hhigh : n ≤ 126) (hslash : n ≠ 92)
    (hquote : n ≠ 34) :
    Printable (Char.ofNat n) ∧ Char.ofNat n ≠ '\\' ∧ Char.ofNat n ≠ '"' ∧
      String.utf8EncodeChar (Char.ofNat n) = [UInt8.ofNat n] := by
  have hall : ∀ n < 127, 32 ≤ n ∧ n ≠ 92 ∧ n ≠ 34 →
      Printable (Char.ofNat n) ∧ Char.ofNat n ≠ '\\' ∧ Char.ofNat n ≠ '"' ∧
        String.utf8EncodeChar (Char.ofNat n) = [UInt8.ofNat n] := by decide
  exact hall n (by omega) ⟨hlow, hslash, hquote⟩

/-- **A byte is written as a short escape, as itself, or by two digits.** -/
theorem encodeByte_cases (b : UInt8) :
    (∃ c, encodeByte b = ['\\', c] ∧ shortEscape? c = some b) ∨
    (∃ c, encodeByte b = [c] ∧ Printable c ∧ c ≠ '\\' ∧ c ≠ '"' ∧
      String.utf8EncodeChar c = [b]) ∨
    ∃ high low, encodeByte b = ['\\', 'x', hexDigit high, hexDigit low] ∧ high < 16 ∧ low < 16 ∧
      UInt8.ofNat (16 * high + low) = b := by
  have hlt := b.toNat_lt
  unfold encodeByte
  split_ifs with hslash hquote hnewline hreturn htab hnul hprintable
  · exact .inl ⟨'\\', rfl, by rw [hslash]; rfl⟩
  · exact .inl ⟨'"', rfl, by rw [hquote]; rfl⟩
  · exact .inl ⟨'n', rfl, by rw [hnewline]; rfl⟩
  · exact .inl ⟨'r', rfl, by rw [hreturn]; rfl⟩
  · exact .inl ⟨'t', rfl, by rw [htab]; rfl⟩
  · exact .inl ⟨'0', rfl, by rw [hnul]; rfl⟩
  · have hrange : 32 ≤ b.toNat ∧ b.toNat ≤ 126 := hprintable
    have hslash' : b.toNat ≠ 92 := fun h => hslash (UInt8.toNat_inj.mp h)
    have hquote' : b.toNat ≠ 34 := fun h => hquote (UInt8.toNat_inj.mp h)
    obtain ⟨hc, hne, hne', hbyte⟩ := plain_ofNat hrange.1 hrange.2 hslash' hquote'
    rw [UInt8.ofNat_toNat] at hbyte
    exact .inr (.inl ⟨_, rfl, hc, hne, hne', hbyte⟩)
  · refine .inr (.inr ⟨b.toNat / 16, b.toNat % 16, rfl, by omega, by omega, ?_⟩)
    rw [Nat.div_add_mod, UInt8.ofNat_toNat]

/-- Bytes are written by printable characters. -/
theorem printable_of_mem_encodeByte {b : UInt8} {c : Char} (h : c ∈ encodeByte b) :
    Printable c := by
  have hslash : Printable '\\' := by decide
  rcases encodeByte_cases b with ⟨d, hb, hd⟩ | ⟨d, hb, hd, _⟩ | ⟨high, low, hb, hhigh, hlow, _⟩
  · rw [hb] at h
    rcases List.mem_cons.mp h with rfl | h
    · exact hslash
    · rw [List.mem_singleton.mp h]
      exact printable_of_shortEscape? hd
  · rw [hb] at h
    rwa [List.mem_singleton.mp h]
  · rw [hb] at h
    simp only [List.mem_cons, List.not_mem_nil, or_false] at h
    rcases h with rfl | rfl | rfl | rfl
    · exact hslash
    · decide
    · exact printable_hexDigit hhigh
    · exact printable_hexDigit hlow

/-- A byte is read back, whatever follows it. -/
theorem decodeBody?_encodeByte (b : UInt8) (rest : List Char) :
    decodeBody? (encodeByte b ++ rest) =
      (decodeBody? rest).map fun r => (b :: r.1, r.2) := by
  rcases encodeByte_cases b with
    ⟨c, hb, hc⟩ | ⟨c, hb, _, hslash, hquote, hbyte⟩ | ⟨high, low, hb, hhigh, hlow, hbyte⟩
  · have hx : c ≠ 'x' := by
      rintro rfl
      cases hc
    rw [hb, List.cons_append, List.cons_append, List.nil_append, decodeBody?, hc]
    · cases decodeBody? rest <;> rfl
    · exact fun _ _ _ h _ => hx h
  · rw [hb, List.cons_append, List.nil_append, decodeBody?, hbyte]
    · cases decodeBody? rest <;> rfl
    · exact hquote
    · exact fun _ _ _ h _ => hslash h
    · exact fun _ _ h _ => hslash h
  · simp only [hb, List.cons_append, List.nil_append, decodeBody?, hexValue?_hexDigit hhigh,
      hexValue?_hexDigit hlow, Option.bind_eq_bind, Option.bind_some, hbyte]
    cases decodeBody? rest <;> rfl

/-- **Reading a written form gives back the bytes**, and what follows the closing quote. -/
theorem decode?_encode (bytes : List UInt8) (rest : List Char) :
    decode? (encode bytes ++ rest) = some (bytes, rest) := by
  have hbody : decodeBody? (bytes.flatMap encodeByte ++ '"' :: rest) = some (bytes, rest) := by
    induction bytes with
    | nil => simp [decodeBody?]
    | cons b bytes ih =>
      rw [List.flatMap_cons, List.append_assoc, decodeBody?_encodeByte, ih]
      rfl
  simpa [encode, decode?] using hbody

/-! ## Quotes that are escaped -/

/-- The character behind a text is escaped: an odd number of backslashes ends the text. -/
def EscapesNext (text : List Char) : Prop :=
  (text.reverse.takeWhile (· == '\\')).length % 2 = 1

/-- Every double quote of a text is escaped. -/
def Guarded (text : List Char) : Prop :=
  ∀ before after, text = before ++ '"' :: after → EscapesNext before

theorem escapesNext_snoc_slash {text : List Char} :
    EscapesNext (text ++ ['\\']) ↔ ¬ EscapesNext text := by
  simp only [EscapesNext, List.reverse_append, List.reverse_singleton, List.singleton_append,
    List.takeWhile_cons, beq_self_eq_true, if_true, List.length_cons]
  omega

theorem not_escapesNext_snoc {text : List Char} {c : Char} (h : c ≠ '\\') :
    ¬ EscapesNext (text ++ [c]) := by
  simp [EscapesNext, h]

theorem Guarded.nil : Guarded [] := by
  intro before after h
  simp at h

theorem Guarded.snoc {text : List Char} {c : Char} (h : Guarded text)
    (hc : c = '"' → EscapesNext text) : Guarded (text ++ [c]) := by
  intro before after heq
  rcases List.eq_nil_or_concat after with rfl | ⟨after, d, rfl⟩
  · obtain ⟨rfl, hquote⟩ := List.append_inj' heq rfl
    exact hc (List.singleton_inj.mp hquote)
  · rw [List.concat_eq_append, ← List.cons_append, ← List.append_assoc] at heq
    exact h before after (List.append_inj' heq rfl).1

/-- A byte leaves no quote unescaped, and no backslash open. -/
theorem Guarded.append_encodeByte {text : List Char} (h : Guarded text)
    (hopen : ¬ EscapesNext text) (b : UInt8) :
    Guarded (text ++ encodeByte b) ∧ ¬ EscapesNext (text ++ encodeByte b) := by
  have hslash : Guarded (text ++ ['\\']) ∧ EscapesNext (text ++ ['\\']) :=
    ⟨h.snoc fun heq => absurd heq (by decide), escapesNext_snoc_slash.mpr hopen⟩
  rcases encodeByte_cases b with
    ⟨c, hb, _⟩ | ⟨c, hb, _, hc, hquote, _⟩ | ⟨high, low, hb, hhigh, hlow, _⟩
  · rw [hb, ← List.singleton_append, ← List.append_assoc]
    refine ⟨hslash.1.snoc fun _ => hslash.2, ?_⟩
    by_cases hc : c = '\\'
    · rw [hc, escapesNext_snoc_slash, Classical.not_not]
      exact hslash.2
    · exact not_escapesNext_snoc hc
  · rw [hb]
    exact ⟨h.snoc fun heq => absurd heq hquote, not_escapesNext_snoc hc⟩
  · have hdigit : ∀ n < 16, hexDigit n ≠ '"' ∧ hexDigit n ≠ '\\' := by decide
    have hx : Guarded (text ++ ['\\'] ++ ['x']) := hslash.1.snoc fun heq => absurd heq (by decide)
    have hh := hx.snoc (c := hexDigit high) fun heq => absurd heq (hdigit high hhigh).1
    have hl := hh.snoc (c := hexDigit low) fun heq => absurd heq (hdigit low hlow).1
    rw [show text ++ encodeByte b =
      text ++ ['\\'] ++ ['x'] ++ [hexDigit high] ++ [hexDigit low] by simp [hb]]
    exact ⟨hl, not_escapesNext_snoc (hdigit low hlow).2⟩

/-- **What stands between the quotes is guarded**, and does not escape the closing quote. -/
theorem guarded_encode (bytes : List UInt8) :
    Guarded (bytes.flatMap encodeByte) ∧ ¬ EscapesNext (bytes.flatMap encodeByte) := by
  have hall : ∀ text, Guarded text → ¬ EscapesNext text →
      Guarded (text ++ bytes.flatMap encodeByte) ∧
        ¬ EscapesNext (text ++ bytes.flatMap encodeByte) := by
    induction bytes with
    | nil => exact fun text h hopen => by simpa using ⟨h, hopen⟩
    | cons b bytes ih =>
      intro text h hopen
      obtain ⟨hb, hopen'⟩ := h.append_encodeByte hopen b
      rw [List.flatMap_cons, ← List.append_assoc]
      exact ih _ hb hopen'
  simpa using hall [] .nil (by simp [EscapesNext])

/-! ## The whole text -/

/-- **The quoted text of bytes is read back.**  It consists of printable ASCII characters; it begins
and ends with a double quote, of which the last is not escaped while every one in between is; and
reading it gives back exactly its bytes and stops at the closing quote, whatever text follows. -/
theorem quoted_reads_back (bytes : List UInt8) (rest : List Char) :
    (∀ c ∈ (text bytes).toList, 0x20 ≤ c.toNat ∧ c.toNat ≤ 0x7e) ∧
    (∃ body, (text bytes).toList = '"' :: (body ++ ['"']) ∧ Guarded body ∧
      ¬ EscapesNext body) ∧
    decode? ((text bytes).toList ++ rest) = some (bytes, rest) := by
  rw [text, String.toList_ofList]
  refine ⟨fun c hc => ?_, ⟨_, rfl, guarded_encode bytes⟩, decode?_encode bytes rest⟩
  have hquote : Printable '"' := by decide
  simp only [encode, List.mem_cons, List.mem_append, List.mem_flatMap, List.not_mem_nil,
    or_false] at hc
  rcases hc with rfl | ⟨b, _, hb⟩ | rfl
  · exact hquote
  · exact printable_of_mem_encodeByte hb
  · exact hquote

/-- A null byte in front of a digit, an escape that looks like a hexadecimal one, and a quote. -/
example : decode? "\"\\01\\\\x41\\\"\\xff\" goto fail".toList =
    some ([0, 49, 92, 120, 52, 49, 34, 255], " goto fail".toList) := by
  decide

end PatternMachine.Quoted
