import PatternMachine.Proofs.Escaping
import PatternMachine.Proofs.Grouping
import PatternMachine.Proofs.Labels
import PatternMachine.Compilation.Text

/-!
# Searching for plain text

* `occurrences` — the offsets at which bytes occur in a subject.
* `occurrence` — the match of an occurrence.

Principal results: `matchesIn_literal` — the matches of a literal are its occurrences.
`plain_text_finds_occurrences` — the search for a text that is escaped or quoted finds the
occurrences of the text.
-/

set_option autoImplicit false

namespace PatternMachine

/-- The offsets at which bytes occur in a subject, in ascending order. -/
def occurrences (subject : Subject) (bytes : List UInt8) : List Nat :=
  (List.range (subject.size + 1)).filter fun start => bytes <+: subject.toList.drop start

/-- The match of an occurrence: nothing is captured but the whole match. -/
def occurrence (length start : Nat) : Match :=
  ⟨⟨start, start + length⟩, (∅ : Captures).insert wholeMatch [⟨start, start + length⟩]⟩

/-! ## The matches of a literal -/

/-- Bytes stand at an offset of the subject if what begins there begins with them. -/
theorem occursAt_eq_prefix {subject : Subject} {start : Nat} (bytes : List UInt8)
    (hstart : start ≤ subject.size) :
    occursAt subject bytes start = decide (bytes <+: subject.toList.drop start) := by
  induction bytes generalizing start with
  | nil => simp [occursAt, hstart]
  | cons b bytes ih =>
    rw [occursAt]
    by_cases hlt : start < subject.size
    · have hdrop : subject.toList.drop start = subject[start] :: subject.toList.drop (start + 1) :=
        List.drop_eq_getElem_cons (by simpa using hlt)
      have hget : subject[start]? = some subject[start] := Array.getElem?_eq_getElem hlt
      rw [ih hlt, hdrop, hget, Bool.eq_iff_iff, Bool.and_eq_true, beq_iff_eq, Option.some.injEq,
        decide_eq_true_eq, decide_eq_true_eq, List.cons_prefix_cons, eq_comm]
    · rw [List.drop_eq_nil_of_le (by simpa using hlt)]
      simp [hlt]

/-- A way of a literal makes an occurrence. -/
theorem matchOf_literal (id : NodeId) (bytes : List UInt8) (q : Quantifier) (start length : Nat) :
    (Pattern.literal id bytes q).matchOf start ⟨start + length, .none⟩ =
      occurrence length start := by
  have hslots : Compilation.captureTable (.literal id bytes q) = [] := List.mergeSort_nil
  have hempty : (∅ : Captures).group wholeMatch = [] := by simp [Captures.group]
  rw [Pattern.matchOf, Pattern.capturesOf_eq, hslots, Records.captures, List.foldl_nil,
    Captures.append, hempty]
  rfl

/-- **The matches of a literal that is matched once are its occurrences.** -/
theorem matchesIn_literal (subject : Subject) (id : NodeId) {bytes : List UInt8}
    (hbytes : bytes ≠ []) :
    (Pattern.literal id bytes .once).matchesIn subject =
      (occurrences subject bytes).map (occurrence bytes.length) := by
  have hfrom : ∀ start ∈ List.range (subject.size + 1),
      (Pattern.literal id bytes .once).matchesFrom subject start =
        ([start].filter fun start => bytes <+: subject.toList.drop start).map
          (occurrence bytes.length) := by
    intro start hstart
    have hle : start ≤ subject.size := Nat.lt_succ_iff.mp (List.mem_range.mp hstart)
    rw [Pattern.matchesFrom, Pattern.ways_literal_once id (List.length_pos_iff.mpr hbytes),
      occursAt_eq_prefix bytes hle]
    by_cases hoccurs : bytes <+: subject.toList.drop start
    · simp [hoccurs, matchOf_literal]
    · simp [hoccurs]
  rw [occurrences, ← List.flatMap_singleton' (List.range _), List.filter_flatMap, List.map_flatMap]
  exact List.flatMap_congr hfrom

/-! ## Plain text -/

/-- A literal that is not too long is compiled. -/
theorem compile_literal_isOk {bytes : List UInt8} {options : CompileOptions} (hbytes : bytes ≠ [])
    (hlength : bytes.length ≤ options.maxLiteral) :
    ∃ program, compile (.literal 1 bytes .once) options = .ok program := by
  have hfault : (Pattern.literal 1 bytes .once).firstFault? options.maxLiteral = none := by
    simp [Pattern.firstFault?, Pattern.visit, Pattern.firstFaultOf?, Pattern.faultAt?, hbytes,
      Nat.not_lt.mpr hlength]
    rfl
  exact compile_isOk_of_wellFormed (Pattern.firstFault?_eq_none_iff.mp hfault) rfl

/-- A text that is parsed into the literal of a plain text finds the occurrences of that. -/
theorem compileText_finds_occurrences {d : Dialect} {pattern text : String}
    {options : CompileOptions} (hne : text ≠ "") (hlength : text.utf8ByteSize ≤ options.maxLiteral)
    (hparse : parse d pattern = .ok (.literal 1 (textBytes text) .once)) :
    ∃ program, compileText d pattern options = .ok program ∧
      ∀ subject : Subject, subject.size < 2 ^ 63 → Cursor.new.Answers program subject
        ((occurrences subject (textBytes text)).map (occurrence text.utf8ByteSize)) := by
  have hbytes := textBytes_ne_nil hne
  obtain ⟨program, hcompile⟩ := compile_literal_isOk hbytes hlength
  refine ⟨program, by simp [compileText, hparse, hcompile], ?_⟩
  intro subject hsize
  obtain ⟨_, hstanding⟩ := standing_of_compile hcompile rfl hsize
  rw [← length_textBytes, ← matchesIn_literal subject 1 hbytes]
  exact hstanding.answers

/-- **The search for plain text finds its occurrences.**  Take a text that is not empty, with no
more bytes than a literal may have (256 if nothing else is chosen).  Write it with a backslash
before every character but the letters and digits of ASCII, in either dialect, or in quotes as a
Perl 6 rule: it is compiled, and in every subject the search finds all occurrences of its bytes,
overlapping ones too, in ascending order and each once, with nothing captured but the whole match.
Afterwards it says forever that there is no further one. -/
theorem plain_text_finds_occurrences {text : String} {options : CompileOptions} (hne : text ≠ "")
    (hlength : text.utf8ByteSize ≤ options.maxLiteral) :
    ∀ written ∈ [(Dialect.perl5, escapedText text), (.perl6, escapedText text),
        (.perl6, quotedText text)],
      ∃ program, compileText written.1 written.2 options = .ok program ∧
        ∀ subject : Subject, subject.size < 2 ^ 63 → Cursor.new.Answers program subject
          ((occurrences subject (textBytes text)).map (occurrence text.utf8ByteSize)) := by
  intro written hwritten
  apply compileText_finds_occurrences hne hlength
  simp only [List.mem_cons, List.not_mem_nil, or_false] at hwritten
  rcases hwritten with rfl | rfl | rfl
  · exact parse_escapedText .perl5 hne
  · exact parse_escapedText .perl6 hne
  · exact parse_quotedText hne

/-- A quote between two letters of two bytes, as a quoted rule, and its two occurrences in a subject
in which they overlap. -/
theorem plain_text_finds_occurrences_quoted :
    ∃ program, quotedText "é'é" = "'é\\'é'" ∧
      compileText .perl6 (quotedText "é'é") {} = .ok program ∧
      Cursor.new.Answers program (textBytes "é'é'é").toArray
        [occurrence 5 0, occurrence 5 3] := by
  obtain ⟨program, hcompile, hanswers⟩ := @plain_text_finds_occurrences "é'é" {}
    (by decide) (by decide) (.perl6, quotedText "é'é") (by simp)
  exact ⟨program, by decide, hcompile, hanswers _ (by decide)⟩

end PatternMachine
