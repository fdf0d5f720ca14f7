import PatternMachine.Proofs.Reading

/-!
# The layout of a rule does not matter

In Perl 6 rules blanks and comments do not count.  A rule is told as the list of its signs, and two
texts that write the same signs, with any trivia before, between and behind them, are read alike:
both stand for the same tree, or both are refused for the same reason.

* `Grammar.Measure`, `Grammar.Sign` — the signs of a rule; `Sign.Writes` is their spelling.
* `Grammar.Sign.clashes` — two signs that would be taken for other ones if nothing stood between
  them.
* `Grammar.Lays` — a text writes a list of signs.
* `Alike` — two outcomes that differ only in where they stand in their texts.

Principal results: `Grammar.Sign.Writes.scan_alike` — a sign is read alike wherever it is written.
`Grammar.Lays.read_alike` — so are all signs of a text.  `layout_insignificant` — so two texts with
the same signs have the same tree, numbers included, or the same error.
-/

set_option autoImplicit false

namespace PatternMachine

/-! ## Errors and outcomes -/

/-- The error without the place where it was found. -/
def SyntaxError.unplaced : SyntaxError → SyntaxError
  | .unexpected found _ => .unexpected found 0
  | .unexpectedEnd expected => .unexpectedEnd expected
  | .invalidQuantifier _ => .invalidQuantifier 0
  | .unsupported construct _ => .unsupported construct 0

/-- Two outcomes of reading something, behind which `rest` and `rest'` are left: what was read is
the same, or both were refused for the same reason. -/
inductive Alike {α : Type} (rest rest' : List Char) :
    Except Failure (α × Unread) → Except Failure (α × Unread) → Prop
  | ok (a : α) (o o' : Nat) : Alike rest rest' (.ok (a, ⟨o, rest⟩)) (.ok (a, ⟨o', rest'⟩))
  | error {f f' : Failure} (h : f.error.unplaced = f'.error.unplaced) :
      Alike rest rest' (.error f) (.error f')

theorem Alike.badQuantifier {α : Type} {rest rest' : List Char} (start start' : Nat)
    (u u' : Unread) :
    Alike rest rest' (Unread.badQuantifier start u : Except Failure (α × Unread))
      (Unread.badQuantifier start' u') := .error rfl

/-- What is made of outcomes that are alike is alike. -/
theorem Alike.bind {α β : Type} {mid mid' rest rest' : List Char}
    {r r' : Except Failure (α × Unread)} {f f' : α × Unread → Except Failure (β × Unread)}
    (h : Alike mid mid' r r')
    (hf : ∀ a o o', Alike rest rest' (f (a, ⟨o, mid⟩)) (f' (a, ⟨o', mid'⟩))) :
    Alike rest rest' (r.bind f) (r'.bind f') := by
  cases h with
  | ok a o o' => exact hf a o o'
  | error h => exact .error h

theorem Alike.map {α β : Type} {rest rest' : List Char} {r r' : Except Failure (α × Unread)}
    (h : Alike rest rest' r r') (f : α → β) :
    Alike rest rest' (r.map fun p => (f p.1, p.2)) (r'.map fun p => (f p.1, p.2)) := by
  cases h with
  | ok a o o' => exact .ok _ _ _
  | error h => exact .error h

namespace Grammar

/-! ## Signs -/

/-- How a quantifier says how often. Between braces anything may stand, also what is refused. -/
inductive Measure where
  | star
  | plus
  | optional
  | braces (content : List Char)
  deriving DecidableEq, Repr

/-- A sign of a rule. -/
inductive Sign where
  | char (c : Char)
  /-- A character behind a backslash. -/
  | escaped (c : Char)
  | quoted (text : List Char)
  | wildcard
  | anchor (kind : Anchor)
  | openGroup (bracket : Bracket)
  | closeGroup (bracket : Bracket)
  | bar
  | quantifier (measure : Measure) (lazy : Bool)
  deriving DecidableEq, Repr

/-- The spelling of a measure. Trivia may stand between two stars and the braces. -/
inductive Measure.Writes : Measure → List Char → List Char → Prop
  | star {rest : List Char} : Writes .star ('*' :: rest) rest
  | plus {rest : List Char} : Writes .plus ('+' :: rest) rest
  | optional {rest : List Char} : Writes .optional ('?' :: rest) rest
  | braces {content cs rest : List Char} (hcontent : '\x7d' ∉ content)
      (htrivia : Trivia .perl6 cs ('\x7b' :: (content ++ '\x7d' :: rest))) :
      Writes (.braces content) ('*' :: '*' :: cs) rest

/-- The spelling of a sign: the text that begins with it, and what is left behind it. -/
inductive Sign.Writes : Sign → List Char → List Char → Prop
  | char {c : Char} {rest : List Char} (hc : Ordinary .perl6 c) : Writes (.char c) (c :: rest) rest
  | escaped {c : Char} {rest : List Char} : Writes (.escaped c) ('\\' :: c :: rest) rest
  | quoted {text cs rest : List Char} (h : Quoted text cs rest) :
      Writes (.quoted text) ('\'' :: cs) rest
  | wildcard {rest : List Char} : Writes .wildcard ('.' :: rest) rest
  | start {rest : List Char} : Writes (.anchor .start) ('^' :: rest) rest
  | lineStart {rest : List Char} : Writes (.anchor .lineStart) ('^' :: '^' :: rest) rest
  | finish {rest : List Char} : Writes (.anchor .finish) ('$' :: rest) rest
  | lineEnd {rest : List Char} : Writes (.anchor .lineEnd) ('$' :: '$' :: rest) rest
  | openRound {rest : List Char} : Writes (.openGroup .round) ('(' :: rest) rest
  | closeRound {rest : List Char} : Writes (.closeGroup .round) (')' :: rest) rest
  | openSquare {rest : List Char} : Writes (.openGroup .square) ('[' :: rest) rest
  | closeSquare {rest : List Char} : Writes (.closeGroup .square) (']' :: rest) rest
  | bar {rest : List Char} : Writes .bar ('|' :: rest) rest
  | greedy {measure : Measure} {cs rest : List Char} (h : measure.Writes cs rest) :
      Writes (.quantifier measure false) cs rest
  | lazy {measure : Measure} {cs rest : List Char} (h : measure.Writes cs ('?' :: rest)) :
      Writes (.quantifier measure true) cs rest

/-- Whether the first sign would be taken for another one if the second stood right behind it. -/
def Sign.clashes : Sign → Sign → Bool
  | .anchor .start, .anchor .start | .anchor .start, .anchor .lineStart => true
  | .anchor .finish, .anchor .finish | .anchor .finish, .anchor .lineEnd => true
  | .quantifier _ _, .quantifier _ _ => true
  | _, _ => false

/-- The text begins with a piece of trivia. -/
def BeginsTrivia (cs : List Char) : Prop := ∃ c ∈ cs.head?, isBlank c = true ∨ c = '#'

/-- The text writes the signs, with trivia before, between and behind them. Some trivia stands
between signs that clash. -/
inductive Lays : List Sign → List Char → Prop
  | nil {cs : List Char} (h : Trivia .perl6 cs []) : Lays [] cs
  | cons {s : Sign} {signs : List Sign} {cs mid rest : List Char} (htrivia : Trivia .perl6 cs mid)
      (h : s.Writes mid rest)
      (hapart : ∀ next ∈ signs.head?, s.clashes next = true → BeginsTrivia rest)
      (h' : Lays signs rest) : Lays (s :: signs) cs

/-! ## Where a sign ends -/

/-- Whether the sign would be taken for another one if the character stood right behind it. -/
def Sign.takes : Sign → Char → Bool
  | .anchor .start, c => c == '^'
  | .anchor .finish, c => c == '$'
  | .quantifier _ _, c => c == '*' || c == '+' || c == '?'
  | _, _ => false

/-- What follows the sign does not make another one of it. -/
def Sign.Ended (s : Sign) (rest : List Char) : Prop := ∀ c ∈ rest.head?, s.takes c = false

variable {s : Sign} {signs : List Sign} {measure : Measure} {content : List Char}
variable {c : Char} {cs cs' mid mid' rest rest' : List Char}

theorem Sign.Ended.unrepeated {lazy : Bool} (h : (Sign.quantifier measure lazy).Ended rest) :
    Unrepeated rest := by
  intro c hc
  simpa [takes, and_assoc] using h c hc

/-- What begins trivia never belongs to a sign. -/
theorem Sign.takes_trivia (s : Sign) (hc : isBlank c = true ∨ c = '#') : s.takes c = false := by
  have hne : ∀ {d : Char}, isBlank d = false → d ≠ '#' → (c == d) = false := by
    intro d hblank hsign
    rw [beq_eq_false_iff_ne]
    rintro rfl
    rcases hc with hc | hc
    · rw [hblank] at hc
      cases hc
    · exact hsign hc
  have hcaret : (c == '^') = false := hne (by decide) (by decide)
  have hdollar : (c == '$') = false := hne (by decide) (by decide)
  have hstar : (c == '*') = false := hne (by decide) (by decide)
  have hplus : (c == '+') = false := hne (by decide) (by decide)
  have hquestion : (c == '?') = false := hne (by decide) (by decide)
  unfold takes
  split <;> simp only [hcaret, hdollar, hstar, hplus, hquestion, Bool.or_self]

/-- A text begins with trivia, or with what the trivia stand in front of. -/
theorem Trivia.head?_cases (h : Trivia .perl6 cs rest) (hc : cs.head? = some c) :
    (isBlank c = true ∨ c = '#') ∨ cs = rest := by
  cases h with
  | none => exact .inr rfl
  | blank hblank _ =>
    cases hc
    exact .inl (.inl hblank)
  | comment _ _ | lastComment _ =>
    cases hc
    exact .inl (.inr rfl)

theorem Measure.Writes.head (h : measure.Writes (c :: cs) rest) :
    c = '*' ∨ c = '+' ∨ c = '?' := by
  cases h with
  | star | braces => exact .inl rfl
  | plus => exact .inr (.inl rfl)
  | optional => exact .inr (.inr rfl)

/-- A sign whose first character would be taken by the sign in front of it clashes with that. -/
theorem Sign.Writes.clashes {next : Sign} (h : next.Writes (c :: cs) rest)
    (htakes : s.takes c = true) : s.clashes next = true := by
  unfold Sign.takes at htakes
  split at htakes
  · obtain rfl := eq_of_beq htakes
    cases h with
    | char hc => exact absurd (by decide) hc.not_special
    | greedy h | lazy h => exact absurd h.head (by decide)
    | _ => rfl
  · obtain rfl := eq_of_beq htakes
    cases h with
    | char hc => exact absurd (by decide) hc.not_special
    | greedy h | lazy h => exact absurd h.head (by decide)
    | _ => rfl
  · have hc : c = '*' ∨ c = '+' ∨ c = '?' := by simpa [or_assoc] using htakes
    cases h with
    | char hordinary =>
      refine absurd ?_ hordinary.not_special
      rcases hc with rfl | rfl | rfl <;> decide
    | greedy h | lazy h => rfl
    | _ => exact absurd hc (by decide)
  · cases htakes

theorem Sign.Writes.ne_nil (h : s.Writes cs rest) : cs ≠ [] := by
  cases h with
  | greedy h | lazy h => cases h <;> exact List.cons_ne_nil _ _
  | _ => exact List.cons_ne_nil _ _

theorem Sign.Writes.head_of_quantifier {lazy : Bool}
    (h : (Sign.quantifier measure lazy).Writes (c :: cs) rest) : c = '*' ∨ c = '+' ∨ c = '?' := by
  cases h with
  | greedy h | lazy h => exact h.head

/-- No sign begins like trivia. -/
theorem Sign.Writes.front (h : s.Writes (c :: cs) rest) : isBlank c = false ∧ c ≠ '#' := by
  cases h with
  | char hc =>
    refine ⟨hc.not_blank rfl, ?_⟩
    rintro rfl
    exact hc.not_special (by decide)
  | greedy h | lazy h => rcases h.head with rfl | rfl | rfl <;> decide
  | _ => decide

/-- In a text that writes signs, every sign has ended where the next one begins. -/
theorem Lays.ended (h : Lays signs rest)
    (hapart : ∀ next ∈ signs.head?, s.clashes next = true → BeginsTrivia rest) :
    s.Ended rest := by
  intro c hc
  by_contra htakes
  rw [Bool.not_eq_false] at htakes
  have hsign : ¬ (isBlank c = true ∨ c = '#') := fun htrivia => by
    rw [s.takes_trivia htrivia] at htakes
    cases htakes
  cases h with
  | nil htrivia =>
    rcases htrivia.head?_cases hc with htrivia | rfl
    · exact hsign htrivia
    · cases hc
  | cons htrivia hnext _ _ =>
    rcases htrivia.head?_cases hc with htrivia | rfl
    · exact hsign htrivia
    · obtain ⟨c', hc', htrivia⟩ := hapart _ rfl (by
        obtain ⟨cs, rfl⟩ := List.head?_eq_some_iff.mp hc
        exact hnext.clashes htakes)
      cases hc.symm.trans hc'
      exact hsign htrivia

/-! ## Quantifiers -/

/-- A number in front of a closing brace is read in the same way, whatever is behind the brace. -/
theorem number?_cases (hcontent : '\x7d' ∉ content) :
    (∀ o rest, (⟨o, content ++ '\x7d' :: rest⟩ : Unread).number? = none) ∨
      ∃ n more, '\x7d' ∉ more ∧ ∀ o rest, ∃ o',
        (⟨o, content ++ '\x7d' :: rest⟩ : Unread).number? =
          some (n, ⟨o', more ++ '\x7d' :: rest⟩) := by
  have hdigits : ∀ rest, (content ++ '\x7d' :: rest).takeWhile Char.isDigit =
      content.takeWhile Char.isDigit := by
    intro rest
    clear hcontent
    induction content with
    | nil => rfl
    | cons c content ih => rw [List.cons_append, List.takeWhile_cons, List.takeWhile_cons, ih]
  have hmore : ∀ rest, (content ++ '\x7d' :: rest).dropWhile Char.isDigit =
      content.dropWhile Char.isDigit ++ '\x7d' :: rest := by
    intro rest
    clear hcontent hdigits
    induction content with
    | nil => rfl
    | cons c content ih =>
      rw [List.cons_append, List.dropWhile_cons, List.dropWhile_cons, ih]
      split <;> rfl
  unfold Unread.number?
  simp only [hdigits, hmore]
  split
  · exact .inl fun _ _ => rfl
  · exact .inr ⟨_, content.dropWhile Char.isDigit,
      fun hmem => hcontent ((List.dropWhile_sublist _).subset hmem), fun o rest => ⟨_, rfl⟩⟩

theorem closeBrace_alike (hcontent : '\x7d' ∉ content) (start start' : Nat) (min : UInt32)
    (max : Bound) (o o' : Nat) :
    Alike rest rest' (Unread.closeBrace start min max ⟨o, content ++ '\x7d' :: rest⟩)
      (Unread.closeBrace start' min max ⟨o', content ++ '\x7d' :: rest'⟩) := by
  cases content with
  | nil => exact .ok _ _ _
  | cons c content =>
    have hc : c ≠ '\x7d' := fun h => hcontent (h ▸ List.mem_cons_self)
    simp only [Unread.closeBrace, List.cons_append, List.head?_cons, Option.some.injEq, if_neg hc]
    exact .badQuantifier _ _ _ _

theorem head?_content (content rest : List Char) :
    (content ++ '\x7d' :: rest).head? = some '*' ↔ ∃ more, content = '*' :: more := by
  cases content <;> simp

theorem take_content (content rest : List Char) :
    (content ++ '\x7d' :: rest).take 2 = ['.', '.'] ↔ ∃ more, content = '.' :: '.' :: more := by
  match content with
  | [] | [_] | _ :: _ :: _ => simp

/-- What follows the dots between braces is read in the same way, whatever is behind the braces. -/
theorem upperBound_alike (hcontent : '\x7d' ∉ content) (start start' : Nat) (min : UInt32)
    (o o' : Nat) :
    Alike rest rest'
      (if (content ++ '\x7d' :: rest).head? = some '*' then
        Unread.closeBrace start min .unbounded (Unread.next ⟨o, content ++ '\x7d' :: rest⟩)
      else match (⟨o, content ++ '\x7d' :: rest⟩ : Unread).number? with
        | some (max, w) => Unread.closeBrace start min (.finite max) w
        | none => Unread.badQuantifier start ⟨o, content ++ '\x7d' :: rest⟩)
      (if (content ++ '\x7d' :: rest').head? = some '*' then
        Unread.closeBrace start' min .unbounded (Unread.next ⟨o', content ++ '\x7d' :: rest'⟩)
      else match (⟨o', content ++ '\x7d' :: rest'⟩ : Unread).number? with
        | some (max, w) => Unread.closeBrace start' min (.finite max) w
        | none => Unread.badQuantifier start' ⟨o', content ++ '\x7d' :: rest'⟩) := by
  by_cases hstar : ∃ more, content = '*' :: more
  · obtain ⟨more, rfl⟩ := hstar
    have hmore : '\x7d' ∉ more := by simp_all
    exact closeBrace_alike hmore _ _ _ _ _ _
  · rw [if_neg (mt (head?_content content rest).mp hstar),
      if_neg (mt (head?_content content rest').mp hstar)]
    rcases number?_cases hcontent with hnone | ⟨max, more, hmore, hmax⟩
    · rw [hnone, hnone]
      exact .badQuantifier _ _ _ _
    · obtain ⟨w, hw⟩ := hmax o rest
      obtain ⟨w', hw'⟩ := hmax o' rest'
      rw [hw, hw']
      exact closeBrace_alike hmore _ _ _ _ _ _

/-- What stands between braces is read in the same way, whatever is behind them. -/
theorem rangeBounds_alike (hcontent : '\x7d' ∉ content) (start start' o o' : Nat) :
    Alike rest rest' (Unread.rangeBounds start ⟨o, content ++ '\x7d' :: rest⟩)
      (Unread.rangeBounds start' ⟨o', content ++ '\x7d' :: rest'⟩) := by
  rcases number?_cases hcontent with hnone | ⟨min, more, hmore, hmin⟩
  · simp only [Unread.rangeBounds, hnone]
    exact .badQuantifier _ _ _ _
  obtain ⟨v, hv⟩ := hmin o rest
  obtain ⟨v', hv'⟩ := hmin o' rest'
  simp only [Unread.rangeBounds, hv, hv']
  by_cases hdots : ∃ behind, more = '.' :: '.' :: behind
  · rw [if_pos ((take_content more rest).mpr hdots), if_pos ((take_content more rest').mpr hdots)]
    obtain ⟨behind, rfl⟩ := hdots
    have hbehind : '\x7d' ∉ behind := by simp_all
    exact upperBound_alike hbehind _ _ _ _ _
  · rw [if_neg (mt (take_content more rest).mp hdots),
      if_neg (mt (take_content more rest').mp hdots)]
    exact closeBrace_alike hmore _ _ _ _ _ _

/-- A measure is read in the same way wherever it is written, unless one star is taken for the
first of two. -/
theorem Measure.Writes.bounds_alike (h : measure.Writes cs mid) (h' : measure.Writes cs' mid')
    (hmid : mid.head? ≠ some '*') (hmid' : mid'.head? ≠ some '*') (o o' : Nat) :
    ∃ r r', (⟨o, cs⟩ : Unread).bounds? .perl6 = some r ∧
      (⟨o', cs'⟩ : Unread).bounds? .perl6 = some r' ∧ Alike mid mid' r r' := by
  cases h with
  | star =>
    cases h'
    refine ⟨_, _, ?_, ?_, .ok ⟨0, .unbounded, true⟩ (o + '*'.utf8Size) (o' + '*'.utf8Size)⟩
    · simp [Unread.bounds?, hmid]
    · simp [Unread.bounds?, hmid']
  | plus =>
    cases h'
    exact ⟨_, _, rfl, rfl, .ok _ _ _⟩
  | optional =>
    cases h'
    exact ⟨_, _, rfl, rfl, .ok _ _ _⟩
  | braces hcontent htrivia =>
    cases h' with
    | braces _ htrivia' =>
      have hopen : Dialect.perl6 = .perl6 → isBlank '\x7b' = false ∧ '\x7b' ≠ '#' := by decide
      obtain ⟨v, hskip⟩ := htrivia.skip (o + '*'.utf8Size + '*'.utf8Size)
      obtain ⟨v', hskip'⟩ := htrivia'.skip (o' + '*'.utf8Size + '*'.utf8Size)
      rw [Unread.skipTrivia_eq_self v hopen] at hskip
      rw [Unread.skipTrivia_eq_self v' hopen] at hskip'
      refine ⟨_, _, rfl, rfl, ?_⟩
      simp only [Unread.next_cons, Unread.starredBounds, hskip, hskip', List.head?_cons, if_true]
      exact rangeBounds_alike hcontent _ _ _ _

/-- The bounds become lazy in the same way. -/
theorem laziness_alike {q : Quantifier} {lazy : Bool} (start start' o o' : Nat)
    (hmid : mid = if lazy then '?' :: rest else rest)
    (hmid' : mid' = if lazy then '?' :: rest' else rest')
    (hrest : rest.head? ≠ some '?') (hrest' : rest'.head? ≠ some '?') :
    Alike rest rest' (Unread.laziness start (q, ⟨o, mid⟩))
      (Unread.laziness start' (q, ⟨o', mid'⟩)) := by
  simp only [Unread.laziness]
  split
  · cases lazy with
    | true =>
      subst hmid hmid'
      exact .ok _ _ _
    | false =>
      simp only [Bool.false_eq_true, if_false] at hmid hmid'
      subst hmid hmid'
      rw [if_neg hrest, if_neg hrest']
      exact .ok _ _ _
  · exact .badQuantifier _ _ _ _

/-- A quantifier is read in the same way wherever it is written behind a unit. -/
theorem quantifier?_alike {lazy : Bool} (h : (Sign.quantifier measure lazy).Writes cs rest)
    (h' : (Sign.quantifier measure lazy).Writes cs' rest') (hrest : Unrepeated rest)
    (hrest' : Unrepeated rest') (o o' : Nat) :
    ∃ r r', (⟨o, cs⟩ : Unread).quantifier? .perl6 = some r ∧
      (⟨o', cs'⟩ : Unread).quantifier? .perl6 = some r' ∧ Alike rest rest' r r' := by
  obtain ⟨mid, mid', hmid, hmid', hmeasure, hmeasure'⟩ : ∃ mid mid' : List Char,
      mid = (if lazy then '?' :: rest else rest) ∧ mid' = (if lazy then '?' :: rest' else rest') ∧
      measure.Writes cs mid ∧ measure.Writes cs' mid' := by
    cases h with
    | greedy h =>
      cases h' with
      | greedy h' => exact ⟨_, _, rfl, rfl, h, h'⟩
    | lazy h =>
      cases h' with
      | lazy h' => exact ⟨_, _, rfl, rfl, h, h'⟩
  have hstar : ∀ {rest : List Char}, Unrepeated rest →
      (if lazy then '?' :: rest else rest).head? ≠ some '*' := by
    intro rest hrest
    cases lazy with
    | true => exact fun h => absurd (Option.some.inj h) (by decide)
    | false => exact fun h => (hrest '*' h).1 rfl
  have hquestion : ∀ {rest : List Char}, Unrepeated rest → rest.head? ≠ some '?' :=
    fun hrest h => (hrest '?' h).2.2 rfl
  obtain ⟨r, r', hr, hr', halike⟩ :=
    hmeasure.bounds_alike hmeasure' (hmid ▸ hstar hrest) (hmid' ▸ hstar hrest') o o'
  refine ⟨_, _, congrArg (Option.map _) hr, congrArg (Option.map _) hr', halike.bind ?_⟩
  exact fun q p p' => laziness_alike _ _ _ _ hmid hmid' (hquestion hrest) (hquestion hrest')

/-! ## Signs are read alike -/

/-- A character behind a backslash is read in the same way wherever it stands. -/
theorem escape_alike (c : Char) (start start' o o' : Nat) :
    Alike rest rest' (Unread.escape .perl6 start ⟨o, c :: rest⟩)
      (Unread.escape .perl6 start' ⟨o', c :: rest'⟩) := by
  simp only [Unread.escape, List.head?_cons, Unread.next_cons]
  split_ifs <;> first | exact .ok _ _ _ | exact .error rfl

/-- A quoted text is read in the same way wherever it stands. -/
theorem quotedLiteral_alike {text : List Char} (h : Quoted text cs rest)
    (h' : Quoted text cs' rest') (o o' : Nat) :
    Alike rest rest' (Unread.quotedLiteral ⟨o, cs⟩) (Unread.quotedLiteral ⟨o', cs'⟩) := by
  obtain ⟨v, hread⟩ := h.read o
  obtain ⟨v', hread'⟩ := h'.read o'
  simp only [Unread.quotedLiteral, Unread.quoted?, hread, hread']
  cases text <;> exact .ok _ _ _

theorem unit_start (hend : (Sign.anchor .start).Ended rest) (start o : Nat) :
    Unread.unit .perl6 start '^' ⟨o, rest⟩ = .ok (.atom (.anchor .start), ⟨o, rest⟩) :=
  if_neg fun h => by simpa [Sign.takes] using hend '^' h.2

theorem unit_finish (hend : (Sign.anchor .finish).Ended rest) (start o : Nat) :
    Unread.unit .perl6 start '$' ⟨o, rest⟩ = .ok (.atom (.anchor .finish), ⟨o, rest⟩) :=
  if_neg fun h => by simpa [Sign.takes] using hend '$' h.2

/-- Where no quantifier begins, it is enough that the units are read alike. -/
theorem scan_alike_of_unit (hc : c ≠ '*' ∧ c ≠ '+' ∧ c ≠ '?') (afterUnit : Bool) (o o' : Nat)
    (h : ∀ start start' o o', Alike rest rest' (Unread.unit .perl6 start c ⟨o, cs⟩)
      (Unread.unit .perl6 start' c ⟨o', cs'⟩)) :
    ∃ r r', (⟨o, c :: cs⟩ : Unread).scan .perl6 afterUnit = some r ∧
      (⟨o', c :: cs'⟩ : Unread).scan .perl6 afterUnit = some r' ∧ Alike rest rest' r r' :=
  have hbrace : Dialect.perl6 = .perl5 → c ≠ '\x7b' := by rintro ⟨⟩
  ⟨_, _, Unread.scan_eq_unit afterUnit hc hbrace o cs,
    Unread.scan_eq_unit afterUnit hc hbrace o' cs', h _ _ _ _⟩

/-- A quantifier behind a unit is read in the same way wherever it is written, and elsewhere it is
refused. -/
theorem quantifier_scan_alike {lazy : Bool} (h : (Sign.quantifier measure lazy).Writes cs rest)
    (h' : (Sign.quantifier measure lazy).Writes cs' rest') (hrest : Unrepeated rest)
    (hrest' : Unrepeated rest') (afterUnit : Bool) (o o' : Nat) :
    ∃ r r', (⟨o, cs⟩ : Unread).scan .perl6 afterUnit = some r ∧
      (⟨o', cs'⟩ : Unread).scan .perl6 afterUnit = some r' ∧ Alike rest rest' r r' := by
  cases afterUnit with
  | true =>
    obtain ⟨r, r', hr, hr', halike⟩ := quantifier?_alike h h' hrest hrest' o o'
    exact ⟨_, _, by simp [Unread.scan, hr], by simp [Unread.scan, hr'],
      halike.map Token.quantifier⟩
  | false =>
    have hrefused : ∀ {cs rest : List Char}, (Sign.quantifier measure lazy).Writes cs rest → ∀ o,
        ∃ u, (⟨o, cs⟩ : Unread).scan .perl6 false = some (Unread.badQuantifier o u) := by
      intro cs rest h o
      obtain ⟨c, cs, rfl⟩ := List.exists_cons_of_ne_nil h.ne_nil
      rcases h.head_of_quantifier with rfl | rfl | rfl <;> exact ⟨_, rfl⟩
    obtain ⟨u, hu⟩ := hrefused h o
    obtain ⟨u', hu'⟩ := hrefused h' o'
    exact ⟨_, _, hu, hu', .badQuantifier _ _ _ _⟩

/-- **A sign is read in the same way wherever it is written.** -/
theorem Sign.Writes.scan_alike (h : s.Writes cs rest) (h' : s.Writes cs' rest')
    (hend : s.Ended rest) (hend' : s.Ended rest') (afterUnit : Bool) (o o' : Nat) :
    ∃ r r', (⟨o, cs⟩ : Unread).scan .perl6 afterUnit = some r ∧
      (⟨o', cs'⟩ : Unread).scan .perl6 afterUnit = some r' ∧ Alike rest rest' r r' := by
  cases h with
  | char hc =>
    cases h'
    refine scan_alike_of_unit ?_ afterUnit o o' fun start start' o o' => ?_
    · have hspecial := hc.not_special
      simp_all [specials]
    · rw [hc.unit, hc.unit]
      exact .ok _ _ _
  | escaped =>
    cases h'
    exact scan_alike_of_unit (by decide) afterUnit o o' fun _ _ _ _ => escape_alike _ _ _ _ _
  | quoted h =>
    cases h' with
    | quoted h' =>
      exact scan_alike_of_unit (by decide) afterUnit o o' fun _ _ _ _ =>
        quotedLiteral_alike h h' _ _
  | start =>
    cases h'
    refine scan_alike_of_unit (by decide) afterUnit o o' fun start start' o o' => ?_
    rw [unit_start hend, unit_start hend']
    exact .ok _ _ _
  | finish =>
    cases h'
    refine scan_alike_of_unit (by decide) afterUnit o o' fun start start' o o' => ?_
    rw [unit_finish hend, unit_finish hend']
    exact .ok _ _ _
  | greedy h => exact quantifier_scan_alike (.greedy h) h' hend.unrepeated hend'.unrepeated _ _ _
  | lazy h => exact quantifier_scan_alike (.lazy h) h' hend.unrepeated hend'.unrepeated _ _ _
  | wildcard | lineStart | lineEnd | openRound | closeRound | openSquare | closeSquare | bar =>
    cases h'
    exact scan_alike_of_unit (by decide) afterUnit o o' fun _ _ _ _ => .ok _ _ _

end Grammar

/-! ## Texts are read alike -/

/-- A failure without its place. -/
def unplacedFailure (e : Failure × Supply) : SyntaxError × Supply := (e.1.error.unplaced, e.2)

/-- Two computations that go on alike after results that are alike. -/
theorem mapError_bind_congr {ε ε' α β : Type} {g : ε → ε'} {x x' : Except ε α}
    {k k' : α → Except ε β} (h : x.mapError g = x'.mapError g)
    (hk : ∀ a, (k a).mapError g = (k' a).mapError g) :
    (x.bind k).mapError g = (x'.bind k').mapError g := by
  cases x with
  | ok a =>
    cases x' with
    | ok a' =>
      obtain rfl := Except.ok.inj h
      exact hk a
    | error e' => cases h
  | error e =>
    cases x' with
    | ok a' => cases h
    | error e' => exact congrArg Except.error (Except.error.inj h)

namespace Draft

/-- What a token does to a draft does not depend on where the token stands. -/
theorem feed_unplaced (draft : Draft) (t : Token) (start stop start' stop' : Nat) :
    (draft.feed joinLiterals ⟨t, start, stop⟩).mapError unplacedFailure =
      (draft.feed joinLiterals ⟨t, start', stop'⟩).mapError unplacedFailure := by
  cases t with
  | atom atom => rfl
  | bar => rfl
  | quantifier q =>
    simp only [feed]
    split
    · rfl
    · split <;> rfl
  | openGroup capturing bracket => cases capturing <;> rfl
  | closeGroup bracket =>
    simp only [feed]
    split
    · rfl
    · split <;> rfl

theorem read_token_bind {draft : Draft} {afterUnit : Bool} {u w : Unread} {t : Token}
    (h : (u.skipTrivia .perl6).scan .perl6 afterUnit = some (.ok (t, w))) :
    draft.read .perl6 afterUnit u =
      (draft.feed joinLiterals ⟨t, (u.skipTrivia .perl6).offset, w.offset⟩).bind fun draft =>
        draft.read .perl6 t.endsUnit w := by
  rw [read_token h]
  split <;> rename_i hfeed <;> rw [hfeed] <;> rfl

/-- Nor does what the end of the text does to it. -/
theorem finish_unplaced (draft : Draft) (offset offset' : Nat) :
    (draft.finish joinLiterals offset).mapError unplacedFailure =
      (draft.finish joinLiterals offset').mapError unplacedFailure := by
  simp only [finish]
  split <;> rfl

end Draft

namespace Grammar

/-- Trivia in front of a sign are passed. -/
theorem Sign.Writes.skip {s : Sign} {cs mid rest : List Char} (h : s.Writes mid rest)
    (htrivia : Trivia .perl6 cs mid) (o : Nat) :
    ∃ v, (⟨o, cs⟩ : Unread).skipTrivia .perl6 = ⟨v, mid⟩ := by
  obtain ⟨v, hskip⟩ := htrivia.skip o
  obtain ⟨c, tail, rfl⟩ := List.exists_cons_of_ne_nil h.ne_nil
  exact ⟨v, hskip.trans (Unread.skipTrivia_eq_self v fun _ => h.front)⟩

/-- **The signs of a text are read in the same way however they are laid out.** -/
theorem Lays.read_alike {signs : List Sign} {cs cs' : List Char} (h : Lays signs cs)
    (h' : Lays signs cs') (afterUnit : Bool) (draft : Draft) (o o' : Nat) :
    (draft.read .perl6 afterUnit ⟨o, cs⟩).mapError unplacedFailure =
      (draft.read .perl6 afterUnit ⟨o', cs'⟩).mapError unplacedFailure := by
  induction h generalizing cs' afterUnit draft o o' with
  | nil htrivia =>
    cases h' with
    | nil htrivia' =>
      have hdone : ∀ v, (⟨v, []⟩ : Unread).scan .perl6 afterUnit = none := fun v =>
        Unread.scan_eq_none rfl
      obtain ⟨v, hskip⟩ := htrivia.skip o
      obtain ⟨v', hskip'⟩ := htrivia'.skip o'
      rw [Draft.read_done (hskip ▸ hdone v), Draft.read_done (hskip' ▸ hdone v')]
      exact draft.finish_unplaced _ _
  | cons htrivia hsign hapart hrest ih =>
    cases h' with
    | cons htrivia' hsign' hapart' hrest' =>
      obtain ⟨v, hskip⟩ := hsign.skip htrivia o
      obtain ⟨v', hskip'⟩ := hsign'.skip htrivia' o'
      obtain ⟨r, r', hscan, hscan', halike⟩ := hsign.scan_alike hsign' (hrest.ended hapart)
        (hrest'.ended hapart') afterUnit v v'
      rw [← hskip] at hscan
      rw [← hskip'] at hscan'
      cases halike with
      | error h =>
        rw [Draft.read_failed hscan, Draft.read_failed hscan']
        exact congrArg (fun error => Except.error (error, draft.supply)) h
      | ok t p p' =>
        rw [Draft.read_token_bind hscan, Draft.read_token_bind hscan']
        exact mapError_bind_congr (draft.feed_unplaced t _ p _ p') fun draft =>
          ih hrest' t.endsUnit draft p p'

end Grammar

/-- **The layout of a rule does not matter.**  Two texts that write the same signs, with any blanks
and comments around them, are parsed to the same tree, node numbers and capture indexes included, or
are refused with errors that differ in their offsets alone.  A blank or comment must stand between
two signs that would otherwise be taken for other ones. -/
theorem layout_insignificant {signs : List Grammar.Sign} {text text' : String}
    (h : Grammar.Lays signs text.toList) (h' : Grammar.Lays signs text'.toList) :
    (parse .perl6 text).mapError SyntaxError.unplaced =
      (parse .perl6 text').mapError SyntaxError.unplaced := by
  have hread := h.read_alike h' false (.new .initial) 0 0
  rw [parse_eq_read, parse_eq_read]
  cases hleft : (Draft.new .initial).read .perl6 false ⟨0, text.toList⟩ with
  | ok r =>
    cases hright : (Draft.new .initial).read .perl6 false ⟨0, text'.toList⟩ with
    | ok r' =>
      rw [hleft, hright] at hread
      rw [Except.ok.inj hread]
    | error e' =>
      rw [hleft, hright] at hread
      cases hread
  | error e =>
    cases hright : (Draft.new .initial).read .perl6 false ⟨0, text'.toList⟩ with
    | ok r' =>
      rw [hleft, hright] at hread
      cases hread
    | error e' =>
      rw [hleft, hright] at hread
      exact congrArg Except.error (Prod.mk.inj (Except.error.inj hread)).1

/-- A group, a lazy quantifier with braces, and two anchors. -/
def groupAndAnchors : List Grammar.Sign :=
  [.openGroup .round, .quoted ['b', ' '], .bar, .char 'a', .closeGroup .round,
    .quantifier (.braces ['2', '.', '.', '3']) true, .anchor .start, .anchor .start]

/-- The rule `('b '|a)**{2..3}?^ ^`. -/
def tightRule : String := "(\x27b \x27|a)**\x7b2..3\x7d?^ ^"

/-- The same rule with more blanks, and with a comment in the middle and one at the end. -/
def looseRule : String := " (\x27b \x27#b\n| a )** \x7b2..3\x7d? ^\n^ #"

open Grammar in
/-- The blank between the quotes counts, the other blanks and the comments do not. -/
theorem layout_insignificant_groupAndAnchors :
    Lays groupAndAnchors tightRule.toList ∧
      Lays groupAndAnchors looseRule.toList ∧
      (parse .perl6 tightRule).mapError SyntaxError.unplaced =
        (parse .perl6 looseRule).mapError SyntaxError.unplaced ∧
      (parse .perl6 tightRule).isOk = true := by
  have hquoted : ∀ rest, Quoted ['b', ' '] ('b' :: ' ' :: '\'' :: rest) rest := fun rest =>
    .char (by decide) (by decide) (.char (by decide) (by decide) .close)
  have hordinary : Ordinary .perl6 'a' := ⟨by decide, fun _ => by decide⟩
  have hcontent : '\x7d' ∉ ['2', '.', '.', '3'] := by decide
  have hblank : ∀ rest, Trivia .perl6 (' ' :: rest) rest := fun rest => .blank (by decide) .none
  have hline : ∀ rest, Trivia .perl6 ('\n' :: rest) rest := fun rest => .blank (by decide) .none
  have hcomment : ∀ rest, Trivia .perl6 ('#' :: 'b' :: '\n' :: rest) rest := fun rest =>
    @Trivia.comment ['b'] _ _ (by decide) .none
  have hend : Trivia .perl6 [' ', '#'] [] :=
    .blank (by decide) (@Trivia.lastComment [] (by decide))
  have hfree : ∀ {s next : Sign} {signs : List Sign} {rest : List Char},
      s.clashes next = false →
        ∀ n ∈ (next :: signs).head?, s.clashes n = true → BeginsTrivia rest := by
    rintro s next signs rest hfree _ ⟨⟩ hclash
    rw [hfree] at hclash
    cases hclash
  have htight : Lays groupAndAnchors tightRule.toList := by
    rw [show tightRule.toList = ['(', '\'', 'b', ' ', '\'', '|', 'a', ')', '*', '*',
      '\x7b', '2', '.', '.', '3', '\x7d', '?', '^', ' ', '^'] by decide]
    exact .cons .none .openRound (hfree rfl) <| .cons .none (.quoted (hquoted _)) (hfree rfl) <|
      .cons .none .bar (hfree rfl) <| .cons .none (.char hordinary) (hfree rfl) <|
      .cons .none .closeRound (hfree rfl) <|
      .cons .none (.lazy (.braces hcontent .none)) (hfree rfl) <|
      .cons .none .start (fun _ _ _ => ⟨' ', rfl, .inl (by decide)⟩) <|
      .cons (hblank _) .start nofun (.nil .none)
  have hloose : Lays groupAndAnchors looseRule.toList := by
    rw [show looseRule.toList = [' ', '(', '\'', 'b', ' ', '\'', '#', 'b',
      '\n', '|', ' ', 'a', ' ', ')', '*', '*', ' ', '\x7b', '2', '.', '.', '3', '\x7d', '?', ' ',
      '^', '\n', '^', ' ', '#'] by decide]
    exact .cons (hblank _) .openRound (hfree rfl) <|
      .cons .none (.quoted (hquoted _)) (hfree rfl) <|
      .cons (hcomment _) .bar (hfree rfl) <| .cons (hblank _) (.char hordinary) (hfree rfl) <|
      .cons (hblank _) .closeRound (hfree rfl) <|
      .cons .none (.lazy (.braces hcontent (hblank _))) (hfree rfl) <|
      .cons (hblank _) .start (fun _ _ _ => ⟨'\n', rfl, .inl (by decide)⟩) <|
      .cons (hline _) .start nofun (.nil hend)
  exact ⟨htight, hloose, layout_insignificant htight hloose, by decide +kernel⟩

end PatternMachine
