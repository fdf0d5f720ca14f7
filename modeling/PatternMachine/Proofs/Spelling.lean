import PatternMachine.Proofs.Grammar
import Mathlib.Data.List.TakeWhile

/-!
# The spelling of trivia, numbers and repetitions

* `Unrepeated` — a text that does not begin with a sign of repetition.

Principal results, for each of them in both directions: `Unread.skipTrivia_sound` and `Trivia.skip`
— what is left out is trivia, and no trivia matter.  `Unread.number?_sound` and `Number.read` — a
number that is read is one, and a number is read up to its last digit.  `Unread.quantifier?_sound`
and `Repetition.read` — so it is with repetitions, where no sign of another one follows.
-/

set_option autoImplicit false

namespace PatternMachine

open Grammar

variable {d : Dialect} {q : Quantifier} {u v : Unread} {cs rest : List Char}

/-- A text begins with the character that it is known to begin with. -/
theorem Unread.chars_eq_cons {c : Char} (h : u.chars.head? = some c) :
    u.chars = c :: u.next.chars := by
  obtain ⟨o, cs⟩ := u
  cases cs with
  | nil => cases h
  | cons c' cs =>
    cases h
    rfl

/-! ## Trivia -/

/-- What is left out, outside of a comment and inside of one. -/
theorem Unread.dropTrivia_sound (o : Nat) (cs : List Char) :
    Trivia .perl6 cs (dropTrivia false o cs).chars ∧
      ((∃ comment cs', '\n' ∉ comment ∧ cs = comment ++ '\n' :: cs' ∧
          Trivia .perl6 cs' (dropTrivia true o cs).chars) ∨
        ('\n' ∉ cs ∧ (dropTrivia true o cs).chars = [])) := by
  induction cs generalizing o with
  | nil => exact ⟨.none, Or.inr ⟨List.not_mem_nil, rfl⟩⟩
  | cons c cs ih =>
    obtain ⟨houtside, hinside⟩ := ih (o + c.utf8Size)
    constructor
    · unfold dropTrivia
      split
      · rename_i hblank
        exact .blank hblank houtside
      · split
        · rename_i hsign
          subst hsign
          rcases hinside with ⟨comment, cs', hline, rfl, htrivia⟩ | ⟨hline, hnil⟩
          · exact .comment hline htrivia
          · rw [hnil]
            exact .lastComment hline
        · exact .none
    · unfold dropTrivia
      by_cases hc : c = '\n'
      · subst hc
        exact Or.inl ⟨[], cs, List.not_mem_nil, rfl, houtside⟩
      · have hne : (c != '\n') = true := by simpa using hc
        rw [hne]
        have hmem : ∀ {cs : List Char}, '\n' ∉ cs → '\n' ∉ c :: cs := fun h => by
          simpa [Ne.symm hc] using h
        rcases hinside with ⟨comment, cs', hline, rfl, htrivia⟩ | ⟨hline, hnil⟩
        · exact Or.inl ⟨c :: comment, cs', hmem hline, rfl, htrivia⟩
        · exact Or.inr ⟨hmem hline, hnil⟩

theorem Unread.skipTrivia_sound (d : Dialect) (u : Unread) :
    Trivia d u.chars (u.skipTrivia d).chars := by
  cases d with
  | perl5 => exact .none
  | perl6 => exact (dropTrivia_sound u.offset u.chars).1

/-- What is left does not begin with trivia. -/
theorem Unread.head?_dropTrivia (inComment : Bool) (o : Nat) (cs : List Char) :
    ∀ c ∈ (dropTrivia inComment o cs).chars.head?, isBlank c = false ∧ c ≠ '#' := by
  induction cs generalizing inComment o with
  | nil =>
    intro c hc
    simp [dropTrivia] at hc
  | cons c cs ih =>
    cases inComment with
    | true => exact ih _ _
    | false =>
      unfold dropTrivia
      split
      · exact ih _ _
      · split
        · exact ih _ _
        · rename_i hblank hsign
          intro c' hc'
          cases hc'
          exact ⟨by simpa using hblank, hsign⟩

theorem Unread.head?_skipTrivia (d : Dialect) (u : Unread) :
    ∀ c ∈ (u.skipTrivia d).chars.head?, d = .perl6 → isBlank c = false ∧ c ≠ '#' := by
  intro c hc hd
  subst hd
  exact head?_dropTrivia false u.offset u.chars c hc

/-- A comment is left out up to the end of its line. -/
theorem Unread.dropTrivia_comment {comment : List Char} (hline : '\n' ∉ comment) (o : Nat)
    (cs : List Char) :
    ∃ o', dropTrivia true o (comment ++ '\n' :: cs) = dropTrivia false o' cs := by
  induction comment generalizing o with
  | nil => exact ⟨_, rfl⟩
  | cons c comment ih =>
    simp only [List.mem_cons, not_or] at hline
    have hne : (c != '\n') = true := by simpa using Ne.symm hline.1
    obtain ⟨o', h⟩ := ih hline.2 (o + c.utf8Size)
    refine ⟨o', ?_⟩
    rw [List.cons_append, dropTrivia, hne, h]

/-- A comment in the last line is left out up to the end of the text. -/
theorem Unread.dropTrivia_lastComment {comment : List Char} (hline : '\n' ∉ comment) (o : Nat) :
    ∃ o', dropTrivia true o comment = ⟨o', []⟩ := by
  induction comment generalizing o with
  | nil => exact ⟨o, rfl⟩
  | cons c comment ih =>
    simp only [List.mem_cons, not_or] at hline
    have hne : (c != '\n') = true := by simpa using Ne.symm hline.1
    obtain ⟨o', h⟩ := ih hline.2 (o + c.utf8Size)
    exact ⟨o', by rw [dropTrivia, hne, h]⟩

/-- Trivia are left out, so what is left of a text does not depend on them. -/
theorem Grammar.Trivia.skip (h : Trivia d cs rest) (o : Nat) :
    ∃ o', (⟨o, cs⟩ : Unread).skipTrivia d = (⟨o', rest⟩ : Unread).skipTrivia d := by
  induction h generalizing o with
  | none => exact ⟨o, rfl⟩
  | @blank c cs rest hc _ ih =>
    obtain ⟨o', ih⟩ := ih (o + c.utf8Size)
    refine ⟨o', ?_⟩
    rw [← ih]
    exact if_pos hc
  | @comment comment cs rest hline _ ih =>
    obtain ⟨o', hskip⟩ := Unread.dropTrivia_comment hline (o + '#'.utf8Size) cs
    obtain ⟨o'', ih⟩ := ih o'
    exact ⟨o'', hskip.trans ih⟩
  | lastComment hline => exact Unread.dropTrivia_lastComment hline _

/-- Nothing is left out in front of a character that does not begin trivia. -/
theorem Unread.skipTrivia_eq_self {c : Char} (o : Nat)
    (hc : d = .perl6 → isBlank c = false ∧ c ≠ '#') :
    (⟨o, c :: cs⟩ : Unread).skipTrivia d = ⟨o, c :: cs⟩ := by
  cases d with
  | perl5 => rfl
  | perl6 =>
    obtain ⟨hblank, hsign⟩ := hc rfl
    simp [skipTrivia, dropTrivia, hblank, hsign]

/-! ## Numbers -/

theorem Unread.number?_sound {n : UInt32} (h : u.number? = some (n, v)) :
    Number n u.chars v.chars := by
  unfold Unread.number? at h
  dsimp only at h
  split at h
  · cases h
  · rename_i hcond
    cases h
    simp only [Bool.or_eq_true, List.isEmpty_iff, decide_eq_true_eq, not_or, UInt32.size] at hcond
    have hnumber : Number (UInt32.ofNat (decimalValue (u.chars.takeWhile Char.isDigit)))
        (u.chars.takeWhile Char.isDigit ++ u.chars.dropWhile Char.isDigit)
        (u.chars.dropWhile Char.isDigit) :=
      .mk hcond.1 (fun c hc => List.mem_takeWhile_imp hc) (by omega)
    rwa [List.takeWhile_append_dropWhile] at hnumber

/-- A number that no digit follows is read. -/
theorem Grammar.Number.read {n : UInt32} {c : Char} (h : Number n cs (c :: rest))
    (hc : c.isDigit = false) (o : Nat) :
    ∃ o', (⟨o, cs⟩ : Unread).number? = some (n, ⟨o', c :: rest⟩) := by
  cases h with
  | @mk digits _ hne hdigits hlt =>
    have hfits : ¬ UInt32.size ≤ Unread.decimalValue digits := by simpa [UInt32.size] using hlt
    refine ⟨o + utf8Length digits, ?_⟩
    simp [Unread.number?, List.takeWhile_append_of_pos hdigits,
      List.dropWhile_append_of_pos hdigits, hc, hne, hfits]

/-- A number begins with a digit. -/
theorem Grammar.Number.head {n : UInt32} {c : Char} (h : Number n cs rest)
    (hc : cs.head? = some c) : c.isDigit = true := by
  cases h with
  | @mk digits _ hne hdigits _ =>
    cases digits with
    | nil => exact absurd rfl hne
    | cons c' digits =>
      cases hc
      exact hdigits c List.mem_cons_self

/-- Where no digit stands, no number is read. -/
theorem Unread.number?_eq_none {c : Char} (hc : c.isDigit = false) (o : Nat) (cs : List Char) :
    (⟨o, c :: cs⟩ : Unread).number? = none := by
  simp [number?, hc]

/-! ## Repetitions -/

theorem Unread.closeBrace_sound {start : Nat} {min : UInt32} {max : Bound}
    (h : Unread.closeBrace start min max u = .ok (q, v)) :
    q = ⟨min, max, true⟩ ∧ u.chars = '\x7d' :: v.chars := by
  unfold closeBrace at h
  split at h
  · rename_i hbrace
    cases h
    exact ⟨rfl, chars_eq_cons hbrace⟩
  · cases h

theorem Quantifier.le_of_isValid {n m : UInt32}
    (h : (⟨n, .finite m, true⟩ : Quantifier).isValid = true) : n ≤ m := of_decide_eq_true h

theorem Unread.commaBounds_sound {start : Nat}
    (h : Unread.commaBounds start u = .ok (q, v)) (hvalid : q.isValid = true) :
    Counts .perl5 q u.chars ('\x7d' :: v.chars) := by
  unfold commaBounds at h
  split at h
  · cases h
  · rename_i min w hmin
    have hnumber := number?_sound hmin
    split at h
    · rename_i hcomma
      rw [chars_eq_cons hcomma] at hnumber
      split at h
      · rename_i max x hmax
        obtain ⟨rfl, hbrace⟩ := closeBrace_sound h
        exact .commaUpTo hnumber (hbrace ▸ number?_sound hmax) (Quantifier.le_of_isValid hvalid)
      · obtain ⟨rfl, hbrace⟩ := closeBrace_sound h
        exact .comma (hbrace ▸ hnumber)
    · obtain ⟨rfl, hbrace⟩ := closeBrace_sound h
      exact .exactly (hbrace ▸ hnumber)

theorem Unread.rangeBounds_sound {start : Nat}
    (h : Unread.rangeBounds start u = .ok (q, v)) (hvalid : q.isValid = true) :
    Counts .perl6 q u.chars ('\x7d' :: v.chars) := by
  unfold rangeBounds at h
  split at h
  · cases h
  · rename_i min w hmin
    have hnumber := number?_sound hmin
    split at h
    · rename_i hdots
      have hchars : w.chars = '.' :: '.' :: w.next.next.chars := by
        obtain ⟨o, cs⟩ := w
        match cs with
        | [] | [_] => cases hdots
        | c :: c' :: cs =>
          cases hdots
          rfl
      rw [hchars] at hnumber
      split at h
      · rename_i hstar
        obtain ⟨rfl, hbrace⟩ := closeBrace_sound h
        rw [chars_eq_cons hstar, hbrace] at hnumber
        exact .dots hnumber
      · split at h
        · rename_i max x hmax
          obtain ⟨rfl, hbrace⟩ := closeBrace_sound h
          exact .dotsUpTo hnumber (hbrace ▸ number?_sound hmax) (Quantifier.le_of_isValid hvalid)
        · cases h
    · obtain ⟨rfl, hbrace⟩ := closeBrace_sound h
      exact .exactly (hbrace ▸ hnumber)

theorem Unread.bounds?_sound (h : u.bounds? d = some (.ok (q, v))) (hvalid : q.isValid = true) :
    Bounds d q u.chars v.chars := by
  unfold bounds? at h
  split at h
  · rename_i hstar
    rw [chars_eq_cons hstar]
    split at h
    · rename_i hstarred
      obtain ⟨rfl, hsecond⟩ := hstarred
      rw [chars_eq_cons hsecond]
      unfold starredBounds at h
      dsimp only at h
      split at h
      · rename_i hbrace
        refine .starredBraces ?_ (rangeBounds_sound (Option.some.inj h) hvalid)
        rw [← chars_eq_cons hbrace]
        exact skipTrivia_sound .perl6 _
      · cases h
    · cases h
      exact .star
  · rename_i hplus
    cases h
    rw [chars_eq_cons hplus]
    exact .plus
  · rename_i hquestion
    cases h
    rw [chars_eq_cons hquestion]
    exact .optional
  · rename_i hbrace
    split at h
    · rename_i hd
      subst hd
      rw [chars_eq_cons hbrace]
      exact .braces (commaBounds_sound (Option.some.inj h) hvalid)
    · cases h
  · cases h

theorem Unread.quantifier?_sound (h : u.quantifier? d = some (.ok (q, v))) :
    Repetition d q u.chars v.chars := by
  unfold quantifier? at h
  obtain ⟨r, hbounds, hr⟩ := Option.map_eq_some_iff.mp h
  cases r with
  | error f => cases hr
  | ok p =>
    obtain ⟨q', w⟩ := p
    change laziness u.offset (q', w) = .ok (q, v) at hr
    unfold laziness at hr
    dsimp only at hr
    split at hr
    · rename_i hvalid
      have hq := bounds?_sound hbounds hvalid
      split at hr
      · rename_i hquestion
        cases hr
        exact .lazy (chars_eq_cons hquestion ▸ hq)
      · cases hr
        exact .greedy hq
    · cases hr

/-- The signs that a repetition begins with. -/
theorem Grammar.Repetition.head {c : Char} (h : Repetition d q (c :: cs) rest) :
    c = '*' ∨ c = '+' ∨ c = '?' ∨ (c = '\x7b' ∧ d = .perl5) := by
  have hbounds : ∀ {q rest}, Bounds d q (c :: cs) rest →
      c = '*' ∨ c = '+' ∨ c = '?' ∨ (c = '\x7b' ∧ d = .perl5) := by
    intro q rest h
    cases h with
    | star | starredBraces => exact Or.inl rfl
    | plus => exact Or.inr (Or.inl rfl)
    | optional => exact Or.inr (Or.inr (Or.inl rfl))
    | braces => exact Or.inr (Or.inr (Or.inr ⟨rfl, rfl⟩))
  cases h with
  | greedy h => exact hbounds h
  | lazy h => exact hbounds h

/-- The text does not begin with a sign of repetition. -/
def Unrepeated (cs : List Char) : Prop := ∀ c ∈ cs.head?, c ≠ '*' ∧ c ≠ '+' ∧ c ≠ '?'

theorem Grammar.Counts.isValid (h : Counts d q cs rest) : q.isValid = true := by
  cases h with
  | exactly => exact decide_eq_true (UInt32.le_refl _)
  | comma => rfl
  | commaUpTo _ _ hle => exact decide_eq_true hle
  | dots => rfl
  | dotsUpTo _ _ hle => exact decide_eq_true hle

theorem Grammar.Bounds.isValid (h : Bounds d q cs rest) : q.isValid = true := by
  cases h with
  | star | plus | optional => rfl
  | braces h => exact h.isValid
  | starredBraces _ h => exact h.isValid

@[simp] theorem Unread.next_cons (o : Nat) (c : Char) (cs : List Char) :
    (⟨o, c :: cs⟩ : Unread).next = ⟨o + c.utf8Size, cs⟩ := rfl

/-- What stands between the braces of Perl 5 patterns is read. -/
theorem Grammar.Counts.commaBounds (h : Counts .perl5 q cs ('\x7d' :: rest)) (start o : Nat) :
    ∃ o', Unread.commaBounds start ⟨o, cs⟩ = .ok (q, ⟨o', rest⟩) := by
  cases h with
  | exactly h =>
    obtain ⟨o₁, hn⟩ := h.read rfl o
    exact ⟨_, by simp [Unread.commaBounds, hn, Unread.closeBrace]; rfl⟩
  | comma h =>
    obtain ⟨o₁, hn⟩ := h.read rfl o
    exact ⟨_, by simp [Unread.commaBounds, hn, Unread.closeBrace, Unread.number?_eq_none]; rfl⟩
  | commaUpTo h h' _ =>
    obtain ⟨o₁, hn⟩ := h.read rfl o
    obtain ⟨o₂, hm⟩ := h'.read rfl (o₁ + ','.utf8Size)
    exact ⟨_, by simp [Unread.commaBounds, hn, hm, Unread.closeBrace]; rfl⟩

/-- What stands between the braces of Perl 6 rules is read. -/
theorem Grammar.Counts.rangeBounds (h : Counts .perl6 q cs ('\x7d' :: rest)) (start o : Nat) :
    ∃ o', Unread.rangeBounds start ⟨o, cs⟩ = .ok (q, ⟨o', rest⟩) := by
  cases h with
  | exactly h =>
    obtain ⟨o₁, hn⟩ := h.read rfl o
    exact ⟨_, by simp [Unread.rangeBounds, hn, Unread.closeBrace]; rfl⟩
  | dots h =>
    obtain ⟨o₁, hn⟩ := h.read rfl o
    exact ⟨_, by simp [Unread.rangeBounds, hn, Unread.closeBrace]; rfl⟩
  | dotsUpTo h h' _ =>
    obtain ⟨o₁, hn⟩ := h.read rfl o
    obtain ⟨o₂, hm⟩ := h'.read rfl (o₁ + '.'.utf8Size + '.'.utf8Size)
    have hstar : ¬ List.head? _ = some '*' := fun h => by simpa using h'.head h
    exact ⟨_, by simp [Unread.rangeBounds, hn, hm, hstar, Unread.closeBrace]; rfl⟩

/-- The bounds of a repetition are read, unless one star is taken for the first of two. -/
theorem Grammar.Bounds.read (h : Bounds d q cs rest) (hrest : ∀ c ∈ rest.head?, c ≠ '*')
    (o : Nat) : ∃ o', (⟨o, cs⟩ : Unread).bounds? d = some (.ok (q, ⟨o', rest⟩)) := by
  cases h with
  | star =>
    have hstar : ¬ rest.head? = some '*' := fun h => hrest '*' h rfl
    exact ⟨_, by simp [Unread.bounds?, hstar]; rfl⟩
  | plus => exact ⟨_, rfl⟩
  | optional => exact ⟨_, rfl⟩
  | braces h =>
    obtain ⟨o', hcounts⟩ := h.commaBounds o (o + '\x7b'.utf8Size)
    exact ⟨o', by simp [Unread.bounds?, hcounts]⟩
  | starredBraces htrivia h =>
    obtain ⟨o₁, hskip⟩ := htrivia.skip (o + '*'.utf8Size + '*'.utf8Size)
    obtain ⟨o', hcounts⟩ := h.rangeBounds o (o₁ + '\x7b'.utf8Size)
    rw [Unread.skipTrivia_eq_self o₁ fun _ => ⟨by decide, by decide⟩] at hskip
    exact ⟨o', by simp [Unread.bounds?, Unread.starredBounds, hskip, hcounts]⟩

/-- A repetition is read if no sign of repetition follows it. -/
theorem Grammar.Repetition.read (h : Repetition d q cs rest) (hrest : Unrepeated rest) (o : Nat) :
    ∃ o', (⟨o, cs⟩ : Unread).quantifier? d = some (.ok (q, ⟨o', rest⟩)) := by
  cases h with
  | greedy h =>
    obtain ⟨o', hbounds⟩ := h.read (fun c hc => (hrest c hc).1) o
    have hquestion : ¬ rest.head? = some '?' := fun h => (hrest '?' h).2.2 rfl
    refine ⟨o', ?_⟩
    simp [Unread.quantifier?, hbounds, Except.bind, Unread.laziness, h.isValid, hquestion]
  | lazy h =>
    obtain ⟨o', hbounds⟩ := h.read (by simp) o
    refine ⟨o' + '?'.utf8Size, ?_⟩
    simp [Unread.quantifier?, hbounds, Except.bind, Unread.laziness, h.isValid]

end PatternMachine
