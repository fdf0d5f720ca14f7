import PatternMachine.Proofs.Reading

/-!
# Where a reading stops

A reading that fails stops at a character of the text, or at its end, so that one can go on there.

* `SyntaxError.About` — an error is about a token that begins at an offset.
* `Unread.Stops` — a failure is about such a token, and stops somewhere in what was there to be
  read.
* `Reader.Placed` — a reader stands before a character of its text, or at its end.

Principal results: `Unread.scan_stops` — a token that is refused stops so.  `Draft.read_stops` — so
does the reading of a text.  `Reader.Placed.read` — a reader that was placed well is so afterwards,
and has not gone back.
-/

set_option autoImplicit false

namespace PatternMachine

/-- The error is about a token that begins at an offset: it gives this offset, or says that the text
ends too early. A token that can be read is unexpected only where it does not fit; this is not said
here. -/
def SyntaxError.About (start : Nat) : SyntaxError → Prop
  | .unexpected _ _ => False
  | .unexpectedEnd _ => True
  | .invalidQuantifier offset => offset = start
  | .unsupported _ offset => offset = start

namespace Unread

/-- A failure is about the token that begins at `start`, and stops somewhere in what was there to be
read. -/
structure Stops {α : Type} (r : Except Failure α) (start : Nat) (u : Unread) : Prop where
  about : ∀ f, r = .error f → f.error.About start
  follows : ∀ f, r = .error f → ∃ v, Follows v u ∧ f.offset = v.offset

variable {α β : Type} {d : Dialect} {u v : Unread} {start : Nat}

theorem Stops.ok {a : α} : Stops (.ok a) start u := ⟨nofun, nofun⟩

theorem Stops.error {f : Failure} (habout : f.error.About start) (h : Follows v u)
    (hf : f.offset = v.offset) : Stops (.error f : Except Failure α) start u where
  about g hg := by
    cases hg
    exact habout
  follows g hg := by
    cases hg
    exact ⟨v, h, hf⟩

theorem Stops.mono {r : Except Failure α} (h : Stops r start v) (hv : Follows v u) :
    Stops r start u where
  about := h.about
  follows f hf := by
    obtain ⟨w, hw, hoffset⟩ := h.follows f hf
    exact ⟨w, hw.trans hv, hoffset⟩

theorem badQuantifier_stops (start : Nat) (h : Follows v u) :
    Stops (badQuantifier start v : Except Failure α) start u := .error rfl h rfl

theorem unsupported_stops (construct : Unsupported) (start : Nat) (h : Follows v u) :
    Stops (unsupported construct start v : Except Failure α) start u := .error rfl h rfl

/-! ## Quantifiers -/

theorem closeBrace_stops (start : Nat) (min : UInt32) (max : Bound) (u : Unread) :
    Stops (closeBrace start min max u) start u := by
  unfold closeBrace
  split
  · exact .ok
  · exact badQuantifier_stops start u.next_follows

theorem commaBounds_stops (start : Nat) (u : Unread) : Stops (commaBounds start u) start u := by
  unfold commaBounds
  split
  · exact badQuantifier_stops start (.refl u)
  · rename_i min v hv
    have hvu := number?_follows hv
    split
    · split
      · rename_i hw
        exact (closeBrace_stops ..).mono
          (((number?_follows hw).trans v.next_follows).trans hvu)
      · exact (closeBrace_stops ..).mono (v.next_follows.trans hvu)
    · exact (closeBrace_stops ..).mono hvu

theorem rangeBounds_stops (start : Nat) (u : Unread) : Stops (rangeBounds start u) start u := by
  unfold rangeBounds
  split
  · exact badQuantifier_stops start (.refl u)
  · rename_i min v hv
    have hvu := number?_follows hv
    have hdots := (v.next.next_follows.trans v.next_follows).trans hvu
    split
    · split
      · exact (closeBrace_stops ..).mono (v.next.next.next_follows.trans hdots)
      · split
        · rename_i hw
          exact (closeBrace_stops ..).mono ((number?_follows hw).trans hdots)
        · exact badQuantifier_stops start hdots
    · exact (closeBrace_stops ..).mono hvu

theorem starredBounds_stops (start : Nat) (u : Unread) : Stops (starredBounds start u) start u := by
  have hbrace := (u.skipTrivia .perl6).next_follows.trans (skipTrivia_follows .perl6 u)
  simp only [starredBounds]
  split
  · exact (rangeBounds_stops ..).mono hbrace
  · exact badQuantifier_stops start hbrace

theorem bounds?_stops {r : Except Failure (Quantifier × Unread)} (h : u.bounds? d = some r) :
    Stops r u.offset u := by
  unfold bounds? at h
  split at h
  · split at h
    · cases h
      exact (starredBounds_stops ..).mono (u.next.next_follows.trans u.next_follows)
    · cases h
      exact .ok
  · cases h
    exact .ok
  · cases h
    exact .ok
  · split at h
    · cases h
      exact (commaBounds_stops ..).mono u.next_follows
    · cases h
  · cases h

theorem laziness_stops (start : Nat) (q : Quantifier) (v : Unread) :
    Stops (laziness start (q, v)) start v := by
  simp only [laziness]
  split
  · split <;> exact .ok
  · exact badQuantifier_stops start (.refl v)

theorem quantifier?_stops {r : Except Failure (Quantifier × Unread)}
    (h : u.quantifier? d = some r) : Stops r u.offset u := by
  obtain ⟨s, hs, rfl⟩ := Option.map_eq_some_iff.mp h
  cases s with
  | error f => exact bounds?_stops hs
  | ok qv =>
    have hfollows := (bounds?_leaves hs).follows _ _ rfl
    exact (laziness_stops ..).mono (hfollows.trans u.next_follows)

/-! ## All other tokens -/

theorem escape_stops (start : Nat) (u : Unread) : Stops (escape d start u) start u := by
  unfold escape
  repeat' split
  all_goals
    first
    | exact .ok
    | exact .error trivial (.refl u) rfl
    | exact unsupported_stops _ start u.next_follows

theorem quotedLiteral_stops (start : Nat) (u : Unread) : Stops (quotedLiteral u) start u := by
  unfold quotedLiteral
  split
  · exact .error trivial u.finish_follows rfl
  · exact .ok
  · exact .ok

theorem parenthesis_stops (start : Nat) (u : Unread) : Stops (parenthesis d start u) start u := by
  unfold parenthesis
  split
  · split
    · exact .ok
    · exact unsupported_stops _ start (.refl u)
  · exact .ok

theorem unit_stops (start : Nat) (c : Char) (u : Unread) : Stops (unit d start c u) start u := by
  unfold unit
  repeat' split
  all_goals
    first
    | exact .ok
    | exact parenthesis_stops start u
    | exact escape_stops start u
    | exact quotedLiteral_stops start u
    | exact unsupported_stops _ start (.refl u)
    | exact badQuantifier_stops start (.refl u)

/-- **A token that is refused stops somewhere in what was there to be read**, and the error is about
this token. -/
theorem scan_stops {afterUnit : Bool} {r : Except Failure (Token × Unread)}
    (h : u.scan d afterUnit = some r) : Stops r u.offset u := by
  unfold scan at h
  split at h
  · rename_i s hs
    have hq : u.quantifier? d = some s := by
      split at hs
      · exact hs
      · cases hs
    cases h
    cases s with
    | error f =>
      have hstops := quantifier?_stops hq
      obtain ⟨v, hv, hoffset⟩ := hstops.follows f rfl
      exact .error (hstops.about f rfl) hv hoffset
    | ok qv => exact .ok
  · obtain ⟨c, -, rfl⟩ := Option.map_eq_some_iff.mp h
    exact (unit_stops ..).mono u.next_follows

/-! ## Places in a text -/

/-- What is passed moves the offset. -/
theorem Follows.offset_le (h : Follows v u) : u.offset ≤ v.offset := by
  obtain ⟨passed, -, hoffset⟩ := h
  omega

/-- The end of what is left is the end of what was left before. -/
theorem Follows.finish (h : Follows v u) : v.finish = u.finish := by
  obtain ⟨passed, hchars, hoffset⟩ := h
  rw [Unread.finish, Unread.finish, hchars, utf8Length_append, hoffset, Nat.add_assoc]

theorem Follows.offset_le_finish (h : Follows v u) : v.offset ≤ u.finish.offset :=
  h.finish ▸ v.finish_follows.offset_le

/-- At least one byte is passed with a character. -/
theorem next_offset (h : u.chars ≠ []) : u.offset < u.next.offset := by
  obtain ⟨c, cs, hchars⟩ := List.exists_cons_of_ne_nil h
  have := c.utf8Size_pos
  simp only [next, hchars]
  omega

/-- What is left from an offset on is what is left behind some characters. -/
theorem dropTo_follows (offset : Nat) (u : Unread) : Follows (u.dropTo offset) u := by
  obtain ⟨here, cs⟩ := u
  unfold dropTo
  dsimp only
  induction cs generalizing here with
  | nil => exact .refl _
  | cons c cs ih =>
    rw [dropTo.go]
    split
    · exact .refl _
    · exact (ih (here + c.utf8Size)).trans ⟨[c], rfl, rfl⟩

/-- What is left behind some characters is found again by its offset. -/
theorem Follows.dropTo (h : Follows v u) : u.dropTo v.offset = v := by
  obtain ⟨passed, hchars, hoffset⟩ := h
  obtain ⟨here, cs⟩ := u
  obtain ⟨there, rest⟩ := v
  simp only at hchars hoffset
  subst hchars
  unfold Unread.dropTo
  dsimp only
  induction passed generalizing here with
  | nil =>
    obtain rfl : there = here := hoffset
    cases rest with
    | nil => rfl
    | cons c rest => exact if_pos (Nat.le_refl _)
  | cons c passed ih =>
    have := c.utf8Size_pos
    rw [utf8Length_cons] at hoffset
    rw [List.cons_append, dropTo.go, if_neg (by omega)]
    exact ih (here + c.utf8Size) (by omega)

end Unread

/-! ## Whole texts -/

open Unread

namespace Draft

variable {d : Dialect} {f : Bool} {draft : Draft} {u : Unread}

/-- A token is refused at its begin or at its end. -/
theorem feed_stops {join : List Pattern → List Pattern} {l : Lexeme} {failure : Failure}
    {supply : Supply} (h : draft.feed join l = .error (failure, supply)) :
    failure.offset = l.start ∨ failure.offset = l.stop := by
  obtain ⟨t, a, b⟩ := l
  cases t with
  | atom atom => cases h
  | bar => cases h
  | openGroup capturing bracket => cases capturing <;> cases h
  | quantifier q =>
    simp only [feed] at h
    split at h
    · cases h
      exact .inr rfl
    · split at h
      · cases h
        exact .inr rfl
      · cases h
  | closeGroup bracket =>
    simp only [feed] at h
    split at h
    · cases h
      exact .inl rfl
    · split at h
      · cases h
      · cases h
        exact .inl rfl

theorem finish_stops {join : List Pattern → List Pattern} {offset : Nat} {failure : Failure}
    {supply : Supply} (h : draft.finish join offset = .error (failure, supply)) :
    failure.offset = offset := by
  simp only [finish] at h
  split at h
  · cases h
  · cases h
    rfl

/-- The reading of a text ends with the text, with a token that is not one or that the draft
refuses, or goes on behind a token that has been fed to the draft. -/
theorem read_induction
    {motive : Bool → Draft → Unread → Except (Failure × Supply) (Pattern × Supply) → Prop}
    (done : ∀ f draft u, (u.skipTrivia d).scan d f = none →
      motive f draft u (draft.finish joinLiterals (u.skipTrivia d).offset))
    (failed : ∀ f draft u failure, (u.skipTrivia d).scan d f = some (.error failure) →
      motive f draft u (.error (failure, draft.supply)))
    (refused : ∀ f draft u t w e, (u.skipTrivia d).scan d f = some (.ok (t, w)) →
      draft.feed joinLiterals ⟨t, (u.skipTrivia d).offset, w.offset⟩ = .error e →
      motive f draft u (.error e))
    (fed : ∀ f draft u t w draft', (u.skipTrivia d).scan d f = some (.ok (t, w)) →
      draft.feed joinLiterals ⟨t, (u.skipTrivia d).offset, w.offset⟩ = .ok draft' →
      motive t.endsUnit draft' w (draft'.read d t.endsUnit w) →
      motive f draft u (draft'.read d t.endsUnit w))
    (f : Bool) (draft : Draft) (u : Unread) : motive f draft u (draft.read d f u) := by
  induction hlength : u.chars.length using Nat.strongRecOn generalizing f draft u with
  | ind length ih =>
    cases hscan : (u.skipTrivia d).scan d f with
    | none =>
      rw [read_done hscan]
      exact done f draft u hscan
    | some r =>
      cases r with
      | error failure =>
        rw [read_failed hscan]
        exact failed f draft u failure hscan
      | ok next =>
        obtain ⟨t, w⟩ := next
        rw [read_token hscan]
        split
        · rename_i draft' hfeed
          have hshorter : w.chars.length < length :=
            hlength ▸ Nat.lt_of_lt_of_le (scan_length hscan) (u.skipTrivia_follows d).length_le
          exact fed f draft u t w draft' hscan hfeed (ih _ hshorter t.endsUnit draft' w rfl)
        · rename_i e hfeed
          exact refused f draft u t w e hscan hfeed

/-- What is left behind a token was left before it. -/
theorem follows_of_scan {t : Token} {w : Unread}
    (hscan : (u.skipTrivia d).scan d f = some (.ok (t, w))) : Follows w u :=
  ((scan_follows hscan).1.trans (u.skipTrivia d).next_follows).trans (u.skipTrivia_follows d)

/-- **A reading that fails stops somewhere in what was there to be read.** -/
theorem read_stops {failure : Failure} {supply : Supply} :
    draft.read d f u = .error (failure, supply) →
      ∃ v, Follows v u ∧ failure.offset = v.offset := by
  refine read_induction (d := d) (motive := fun _ _ u r => r = .error (failure, supply) →
    ∃ v, Follows v u ∧ failure.offset = v.offset) ?done ?failed ?refused ?fed f draft u
  case done =>
    intro f draft u _ hfinish
    exact ⟨_, u.skipTrivia_follows d, finish_stops hfinish⟩
  case failed =>
    intro f draft u failure' hscan heq
    cases heq
    obtain ⟨v, hv, hoffset⟩ := (scan_stops hscan).follows _ rfl
    exact ⟨v, hv.trans (u.skipTrivia_follows d), hoffset⟩
  case refused =>
    intro f draft u t w e hscan hfeed heq
    cases heq
    rcases feed_stops hfeed with hoffset | hoffset
    · exact ⟨_, u.skipTrivia_follows d, hoffset⟩
    · exact ⟨w, follows_of_scan hscan, hoffset⟩
  case fed =>
    intro f draft u t w draft' hscan _ ih hread
    obtain ⟨v, hv, hoffset⟩ := ih hread
    exact ⟨v, hv.trans (follows_of_scan hscan), hoffset⟩

end Draft

namespace Reader

/-- A reader stands before a character of its text, or at its end. -/
def Placed (r : Reader) : Prop := r.unread.offset = r.offset

/-- What a reader does is what reading its text into a new draft comes to. -/
theorem read_eq (r : Reader) :
    r.read = match (Draft.new r.supply).read r.dialect false r.unread with
      | .ok (pattern, supply) =>
        (.ok pattern, { r with offset := r.unread.finish.offset, supply := supply })
      | .error (failure, supply) =>
        (.error failure.error, { r with offset := failure.offset, supply := supply }) := rfl

theorem unread_follows (r : Reader) : Follows r.unread (ofChars r.text.toList) :=
  dropTo_follows r.offset _

/-- A reader that was moved behind some characters of its text is placed there. -/
theorem placed_of_follows {r : Reader} {v : Unread} (h : Follows v (ofChars r.text.toList))
    (hoffset : r.offset = v.offset) : r.Placed := by
  rw [Placed, unread, hoffset, h.dropTo]

theorem placed_new (d : Dialect) (text : String) : (Reader.new d text).Placed :=
  placed_of_follows (.refl _) rfl

/-- A reader keeps its text. -/
theorem read_text (r : Reader) : r.read.2.text = r.text := by
  rw [read_eq]
  split <;> rfl

/-- **A reader that was placed well is so afterwards, and has not gone back.** -/
theorem Placed.read {r : Reader} (h : r.Placed) :
    r.read.2.Placed ∧ r.offset ≤ r.read.2.offset ∧ r.read.2.offset ≤ r.unread.finish.offset := by
  obtain ⟨v, hv, hoffset⟩ : ∃ v, Follows v r.unread ∧ r.read.2.offset = v.offset := by
    rw [read_eq]
    split
    · exact ⟨_, r.unread.finish_follows, rfl⟩
    · rename_i hread
      exact Draft.read_stops hread
  have hstart : r.unread.offset = r.offset := h
  refine ⟨placed_of_follows (v := v) ?_ hoffset, ?_, ?_⟩
  · rw [read_text]
    exact hv.trans r.unread_follows
  · rw [hoffset, ← hstart]
    exact hv.offset_le
  · rw [hoffset]
    exact hv.offset_le_finish

end Reader

end PatternMachine
