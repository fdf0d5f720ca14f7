import PatternMachine.Proofs.Spelling

/-!
# Scanning keeps to the grammar

* `Spelled` — the spelling of every token, in terms of the grammar.
* `Scans` — a token is scanned from a text, wherever it stands.

Principal results: `Unread.scan_sound` — a token that is scanned is spelled as the grammar says, and
a repetition is scanned only where a unit has ended.  `Spelled.scans` — a token that the grammar
spells is scanned, with nothing of the text behind it; this comes of `Repetition.scans`,
`Literal.scans` and `Position.scans`.
-/

set_option autoImplicit false

namespace PatternMachine

open Grammar

variable {d : Dialect} {q : Quantifier} {u v : Unread} {cs rest : List Char}

/-! ## Tokens -/

/-- The spelling of a token: the text that begins with it, and what is left behind it. -/
def Spelled (d : Dialect) : Token → List Char → List Char → Prop
  | .atom .empty, cs, rest => d = .perl6 ∧ cs = '\'' :: '\'' :: rest
  | .atom .wildcard, cs, rest => cs = '.' :: rest
  | .atom (.literal bytes), cs, rest => Literal d bytes cs rest
  | .atom (.anchor kind), cs, rest => Position d kind cs rest
  | .quantifier q, cs, rest => Repetition d q cs rest
  | .openGroup true .round, cs, rest => cs = '(' :: rest
  | .openGroup false .round, cs, rest => d = .perl5 ∧ cs = '(' :: '?' :: ':' :: rest
  | .openGroup false .square, cs, rest => d = .perl6 ∧ cs = '[' :: rest
  | .openGroup true .square, _, _ => False
  | .closeGroup .round, cs, rest => cs = ')' :: rest
  | .closeGroup .square, cs, rest => d = .perl6 ∧ cs = ']' :: rest
  | .bar, cs, rest => cs = '|' :: rest

/-- What is read of a quoted literal, and of one behind a backslash. -/
theorem Unread.readQuoted?_sound (o : Nat) (cs text : List Char) (v : Unread) :
    (readQuoted? false o cs = some (text, v) → Quoted text cs v.chars) ∧
      (readQuoted? true o cs = some (text, v) → Quoted text ('\\' :: cs) v.chars) := by
  induction cs generalizing o text v with
  | nil => exact ⟨nofun, nofun⟩
  | cons c cs ih =>
    have hrest : ∀ {text : List Char},
        (readQuoted? false (o + c.utf8Size) cs).map (fun r => (c :: r.1, r.2)) = some (text, v) →
          ∃ tail, text = c :: tail ∧ Quoted tail cs v.chars := by
      intro text h
      obtain ⟨⟨tail, w⟩, hread, heq⟩ := Option.map_eq_some_iff.mp h
      cases heq
      exact ⟨tail, rfl, (ih _ _ _).1 hread⟩
    constructor
    · intro h
      unfold readQuoted? at h
      split at h
      · rename_i hquote
        subst hquote
        cases h
        exact .close
      · rename_i hquote
        split at h
        · rename_i hslash
          subst hslash
          exact (ih _ _ _).2 h
        · rename_i hslash
          obtain ⟨tail, rfl, hquoted⟩ := hrest h
          exact .char hquote hslash hquoted
    · intro h
      obtain ⟨tail, rfl, hquoted⟩ := hrest h
      exact .escaped hquoted

theorem Unread.quotedLiteral_sound {t : Token} (hd : d = .perl6)
    (h : Unread.quotedLiteral u = .ok (t, v)) : Spelled d t ('\'' :: u.chars) v.chars := by
  subst hd
  unfold quotedLiteral at h
  split at h
  · cases h
  · rename_i w hquoted
    cases h
    have hread := (readQuoted?_sound _ _ _ _).1 hquoted
    generalize hchars : u.chars = cs at hread
    cases hread with
    | close => exact ⟨rfl, rfl⟩
  · rename_i c text w hquoted
    cases h
    exact .quoted (List.cons_ne_nil _ _) ((readQuoted?_sound _ _ _ _).1 hquoted)

theorem Unread.escape_sound {start : Nat} {t : Token}
    (h : Unread.escape d start u = .ok (t, v)) : Spelled d t ('\\' :: u.chars) v.chars := by
  unfold escape at h
  split at h
  · cases h
  rename_i c hc
  rw [chars_eq_cons hc]
  split at h
  · rename_i hn
    cases h
    rw [hn]
    exact .newline
  split at h
  · rename_i ht
    cases h
    rw [ht]
    exact .tab
  split at h
  · rename_i hr
    cases h
    rw [hr]
    exact .carriageReturn
  split at h
  · rename_i hzero
    cases h
    rw [hzero]
    exact .zero
  split at h
  · rename_i hA
    cases h
    obtain ⟨rfl, rfl⟩ := hA
    exact .startLetter
  split at h
  · rename_i hz
    cases h
    obtain ⟨rfl, rfl⟩ := hz
    exact .finishLetter
  split at h
  · cases h
  · rename_i halnum
    cases h
    exact .escaped (by simpa using halnum)

theorem Unread.parenthesis_sound {start : Nat} {t : Token}
    (h : Unread.parenthesis d start u = .ok (t, v)) : Spelled d t ('(' :: u.chars) v.chars := by
  unfold parenthesis at h
  split at h
  · rename_i hquestion
    split at h
    · rename_i hcolon
      cases h
      rw [chars_eq_cons hquestion.2, chars_eq_cons hcolon]
      exact ⟨hquestion.1, rfl⟩
    · cases h
  · cases h
    rfl

/-- A token other than a repetition is spelled as the grammar says. -/
theorem Unread.unit_sound {start : Nat} {c : Char} {t : Token}
    (hc : d = .perl6 → isBlank c = false ∧ c ≠ '#')
    (h : Unread.unit d start c u = .ok (t, v)) : Spelled d t (c :: u.chars) v.chars := by
  unfold unit at h
  split at h
  · cases h
    rfl
  · exact parenthesis_sound h
  · cases h
    rfl
  · split at h
    · rename_i hd
      cases h
      exact ⟨hd, rfl⟩
    · cases h
  · cases h
    split
    · rename_i hd
      exact ⟨hd, rfl⟩
    · rename_i hd
      cases d with
      | perl5 => exact .char ⟨by decide, nofun⟩
      | perl6 => exact absurd rfl hd
  · cases h
    rfl
  · split at h
    · rename_i hsign
      cases h
      rw [chars_eq_cons hsign.2, hsign.1]
      exact .lineStart
    · rename_i hsign
      cases h
      exact .start fun hd hhead => hsign ⟨hd, hhead⟩
  · split at h
    · rename_i hsign
      cases h
      rw [chars_eq_cons hsign.2, hsign.1]
      exact .lineEnd
    · rename_i hsign
      cases h
      exact .finish fun hd hhead => hsign ⟨hd, hhead⟩
  · exact escape_sound h
  · split at h
    · rename_i hd
      exact quotedLiteral_sound hd h
    · rename_i hd
      cases h
      cases d with
      | perl5 => exact .char ⟨by decide, nofun⟩
      | perl6 => exact absurd rfl hd
  · cases h
  · cases h
  · cases h
  · split at h
    · cases h
    · rename_i hd
      cases h
      cases d with
      | perl5 => exact absurd rfl hd
      | perl6 => exact .char ⟨by decide, fun _ => by decide⟩
  · cases h
    refine .char ⟨?_, fun hd => (hc hd).1⟩
    cases d with
    | perl5 => simp_all [specials]
    | perl6 => simp_all [specials]

/-- **A token that is scanned is spelled as the grammar says**, and a repetition is scanned only
where a unit has ended. -/
theorem Unread.scan_sound {afterUnit : Bool} {t : Token}
    (hfront : ∀ c ∈ u.chars.head?, d = .perl6 → isBlank c = false ∧ c ≠ '#')
    (h : u.scan d afterUnit = some (.ok (t, v))) :
    Spelled d t u.chars v.chars ∧ ∀ q, t = .quantifier q → afterUnit = true := by
  unfold scan at h
  split at h
  · rename_i r hr
    split at hr
    · rename_i hafter
      cases r with
      | error f => cases h
      | ok p =>
        cases h
        exact ⟨quantifier?_sound hr, fun _ _ => hafter⟩
    · cases hr
  · obtain ⟨c, hc, hunit⟩ := Option.map_eq_some_iff.mp h
    rw [chars_eq_cons hc]
    refine ⟨unit_sound (hfront c hc) hunit, ?_⟩
    rintro q rfl
    -- where a repetition is spelled, no other token is read
    rcases Repetition.head (unit_sound (hfront c hc) hunit) with rfl | rfl | rfl | ⟨rfl, rfl⟩ <;>
      cases hunit

/-- Where no token is scanned, there is no text. -/
theorem Unread.chars_of_scan_none {afterUnit : Bool} (h : u.scan d afterUnit = none) :
    u.chars = [] := by
  unfold scan at h
  split at h
  · cases h
  · simpa using h

/-- Where there is no text, no token is scanned. -/
theorem Unread.scan_eq_none {afterUnit : Bool} (h : u.chars = []) : u.scan d afterUnit = none := by
  obtain ⟨o, cs⟩ := u
  obtain rfl : cs = [] := h
  cases afterUnit <;> rfl

/-! ## What the grammar spells is scanned -/

/-- From a text, wherever it stands, the token is scanned with `rest` left behind it. -/
def Scans (d : Dialect) (afterUnit : Bool) (cs : List Char) (t : Token) (rest : List Char) : Prop :=
  ∀ o, ∃ o', (⟨o, cs⟩ : Unread).scan d afterUnit = some (.ok (t, ⟨o', rest⟩))

/-- A repetition is scanned where a unit has ended, if no sign of repetition follows it. -/
theorem Grammar.Repetition.scans (h : Repetition d q cs rest) (hrest : Unrepeated rest) :
    Scans d true cs (.quantifier q) rest := by
  intro o
  obtain ⟨o', hread⟩ := h.read hrest o
  exact ⟨o', by simp [Unread.scan, hread, Except.map]⟩

/-- Where no repetition begins, another token is read, whether a unit has ended or not. -/
theorem Unread.scan_eq_unit {c : Char} (afterUnit : Bool) (hc : c ≠ '*' ∧ c ≠ '+' ∧ c ≠ '?')
    (hbrace : d = .perl5 → c ≠ '\x7b') (o : Nat) (cs : List Char) :
    (⟨o, c :: cs⟩ : Unread).scan d afterUnit = some (unit d o c ⟨o + c.utf8Size, cs⟩) := by
  have hnone : (⟨o, c :: cs⟩ : Unread).bounds? d = none := by
    unfold Unread.bounds?
    split
    · rename_i hstar
      exact absurd (Option.some.inj hstar) hc.1
    · rename_i hplus
      exact absurd (Option.some.inj hplus) hc.2.1
    · rename_i hquestion
      exact absurd (Option.some.inj hquestion) hc.2.2
    · rename_i hopen
      exact if_neg fun hd => hbrace hd (Option.some.inj hopen)
    · rfl
  simp [Unread.scan, Unread.quantifier?, hnone]

/-- A token that does not begin with a sign of repetition is scanned, whether a unit has ended or
not. -/
theorem scans_of_unit {c : Char} {t : Token} (afterUnit : Bool)
    (hc : c ≠ '*' ∧ c ≠ '+' ∧ c ≠ '?') (hbrace : d = .perl5 → c ≠ '\x7b')
    (h : ∀ start o, ∃ o', Unread.unit d start c ⟨o, cs⟩ = .ok (t, ⟨o', rest⟩)) :
    Scans d afterUnit (c :: cs) t rest := by
  intro o
  obtain ⟨o', hunit⟩ := h o (o + c.utf8Size)
  exact ⟨o', by rw [Unread.scan_eq_unit afterUnit hc hbrace, hunit]⟩

/-- A character that stands for itself is read as a literal. -/
theorem Grammar.Ordinary.unit {c : Char} (hc : Ordinary d c) (start : Nat) (u : Unread) :
    Unread.unit d start c u = .ok (.atom (.ofChar c), u) := by
  have hspecial := hc.not_special
  unfold Unread.unit
  cases d <;> split <;> simp_all [specials]

/-- An escaped character that is no letter or digit of ASCII is read as a literal. -/
theorem Unread.escape_eq {c : Char} (hc : c.isAlphanum = false) (start o : Nat) :
    Unread.escape d start ⟨o, c :: cs⟩ = .ok (.atom (.ofChar c), ⟨o + c.utf8Size, cs⟩) := by
  have hne : ∀ {letter : Char}, letter.isAlphanum = true → c ≠ letter := by
    rintro letter hletter rfl
    simp [hc] at hletter
  have hn : c ≠ 'n' := hne rfl
  have ht : c ≠ 't' := hne rfl
  have hr : c ≠ 'r' := hne rfl
  have hzero : c ≠ '0' := hne rfl
  have hA : c ≠ 'A' := hne rfl
  have hz : c ≠ 'z' := hne rfl
  simp [escape, hn, ht, hr, hzero, hA, hz, hc]

/-- A quoted text is read up to its closing quote. -/
theorem Grammar.Quoted.read {text : List Char} (h : Quoted text cs rest) (o : Nat) :
    ∃ o', Unread.readQuoted? false o cs = some (text, ⟨o', rest⟩) := by
  induction h generalizing o with
  | close => exact ⟨_, rfl⟩
  | @char c text cs rest hquote hslash _ ih =>
    obtain ⟨o', hread⟩ := ih (o + c.utf8Size)
    exact ⟨o', by simp [Unread.readQuoted?, hquote, hslash, hread]⟩
  | @escaped c text cs rest _ ih =>
    obtain ⟨o', hread⟩ := ih (o + '\\'.utf8Size + c.utf8Size)
    exact ⟨o', by simp [Unread.readQuoted?, hread]⟩

/-- A literal is scanned. -/
theorem Grammar.Literal.scans {bytes : List UInt8} (h : Literal d bytes cs rest)
    (afterUnit : Bool) : Scans d afterUnit cs (.atom (.literal bytes)) rest := by
  cases h with
  | @char _ c _ hc =>
    have hspecial := hc.not_special
    refine scans_of_unit _ ?_ ?_ fun start o => ⟨o, hc.unit start _⟩
    · cases d <;> simp_all [specials]
    · rintro rfl
      simp_all [specials]
  | newline | tab | carriageReturn | zero =>
    exact scans_of_unit _ (by decide) (fun _ => by decide) fun start o => ⟨_, rfl⟩
  | escaped hc =>
    exact scans_of_unit _ (by decide) (fun _ => by decide)
      fun start o => ⟨_, Unread.escape_eq hc start o⟩
  | @quoted text _ _ hne h =>
    refine scans_of_unit _ (by decide) nofun fun start o => ?_
    obtain ⟨o', hread⟩ := h.read o
    obtain ⟨c, text, rfl⟩ := List.exists_cons_of_ne_nil hne
    refine ⟨o', ?_⟩
    simp [Unread.unit, Unread.quotedLiteral, Unread.quoted?, hread]

/-- An anchor is scanned. -/
theorem Grammar.Position.scans {kind : Anchor} (h : Position d kind cs rest) (afterUnit : Bool) :
    Scans d afterUnit cs (.atom (.anchor kind)) rest := by
  cases h with
  | start h =>
    refine scans_of_unit _ (by decide) (fun _ => by decide) fun start o => ⟨o, ?_⟩
    exact if_neg fun hsign => h hsign.1 hsign.2
  | finish h =>
    refine scans_of_unit _ (by decide) (fun _ => by decide) fun start o => ⟨o, ?_⟩
    exact if_neg fun hsign => h hsign.1 hsign.2
  | startLetter | finishLetter | lineStart | lineEnd =>
    exact scans_of_unit _ (by decide) (fun _ => by decide) fun start o => ⟨_, rfl⟩

/-- **What the grammar spells is scanned.**  The opening of a capturing group must not be taken for
that of another kind of group, nor a repetition for a shorter one. -/
theorem Spelled.scans {afterUnit : Bool} {t : Token} (h : Spelled d t cs rest)
    (hafter : ∀ q, t = .quantifier q → afterUnit = true)
    (hrest : (∃ q, t = .quantifier q) ∨ t = .openGroup true .round → Unrepeated rest) :
    Scans d afterUnit cs t rest := by
  match t with
  | .atom .empty =>
    obtain ⟨rfl, rfl⟩ := h
    exact scans_of_unit _ (by decide) nofun fun start o => ⟨_, rfl⟩
  | .atom .wildcard =>
    cases h
    exact scans_of_unit _ (by decide) (fun _ => by decide) fun start o => ⟨_, rfl⟩
  | .atom (.literal bytes) => exact Literal.scans h afterUnit
  | .atom (.anchor kind) => exact Position.scans h afterUnit
  | .quantifier q =>
    obtain rfl := hafter q rfl
    exact Repetition.scans h (hrest (Or.inl ⟨q, rfl⟩))
  | .openGroup true .round =>
    cases h
    refine scans_of_unit _ (by decide) (fun _ => by decide) fun start o => ⟨o, ?_⟩
    exact if_neg fun hsign => (hrest (Or.inr rfl) '?' hsign.2).2.2 rfl
  | .openGroup false .round =>
    obtain ⟨rfl, rfl⟩ := h
    exact scans_of_unit _ (by decide) (fun _ => by decide) fun start o => ⟨_, rfl⟩
  | .openGroup false .square =>
    obtain ⟨rfl, rfl⟩ := h
    exact scans_of_unit _ (by decide) nofun fun start o => ⟨_, rfl⟩
  | .closeGroup .round =>
    cases h
    exact scans_of_unit _ (by decide) (fun _ => by decide) fun start o => ⟨_, rfl⟩
  | .closeGroup .square =>
    obtain ⟨rfl, rfl⟩ := h
    exact scans_of_unit _ (by decide) nofun fun start o => ⟨_, rfl⟩
  | .bar =>
    cases h
    exact scans_of_unit _ (by decide) (fun _ => by decide) fun start o => ⟨_, rfl⟩

/-- No token begins like trivia. -/
theorem Spelled.front {t : Token} (h : Spelled d t cs rest) :
    ∀ c ∈ cs.head?, d = .perl6 → isBlank c = false ∧ c ≠ '#' := by
  intro c hc hd
  obtain ⟨cs, rfl⟩ : ∃ cs', cs = c :: cs' := by
    cases cs with
    | nil => cases hc
    | cons c' cs =>
      cases hc
      exact ⟨cs, rfl⟩
  match t with
  | .atom (.literal bytes) =>
    cases h with
    | char hordinary =>
      refine ⟨hordinary.not_blank hd, ?_⟩
      rintro rfl
      exact hordinary.not_special (hd ▸ by decide)
    | _ => exact ⟨by decide, by decide⟩
  | .atom (.anchor kind) => cases h <;> exact ⟨by decide, by decide⟩
  | .quantifier q =>
    rcases Repetition.head h with rfl | rfl | rfl | ⟨rfl, _⟩ <;> exact ⟨by decide, by decide⟩
  | .atom .empty | .openGroup false .round | .openGroup false .square | .closeGroup .square =>
    cases h.2
    exact ⟨by decide, by decide⟩
  | .atom .wildcard | .openGroup true .round | .closeGroup .round | .bar =>
    cases h
    exact ⟨by decide, by decide⟩

end PatternMachine
