import PatternMachine.Proofs.Stopping

/-!
# What an error points at

The error of a text that is refused gives the offset of a character of the text, unless the text
ends too early.

* `SyntaxError.offset?` — the offset that an error gives.
* `SyntaxError.PointsAt` — it is that of the first character of what is left of a text.

Principal results: `Unread.scan_blames`, `Draft.feed_blames` — the error of a token that is refused
points at the token.  `Draft.read_blames` — the error of a text points at a token of it.
-/

set_option autoImplicit false

namespace PatternMachine

/-! ## Offsets of errors -/

/-- The offset that an error gives. -/
def SyntaxError.offset? : SyntaxError → Option Nat
  | .unexpected _ offset => some offset
  | .unexpectedEnd _ => none
  | .invalidQuantifier offset => some offset
  | .unsupported _ offset => some offset

/-- The offset of an error is that of the first character of what is left of a text, and this is the
character that the error names, if it names one. What is lacking at the end of a text has no
offset. -/
def SyntaxError.PointsAt (u : Unread) : SyntaxError → Prop
  | .unexpected found offset => offset = u.offset ∧ u.chars.head? = some found
  | .unexpectedEnd _ => True
  | .invalidQuantifier offset => offset = u.offset ∧ u.chars ≠ []
  | .unsupported _ offset => offset = u.offset ∧ u.chars ≠ []

/-- An error that has an offset points at a character. -/
theorem SyntaxError.PointsAt.head? {e : SyntaxError} {u : Unread} {offset : Nat}
    (h : e.PointsAt u) (hoffset : e.offset? = some offset) :
    offset = u.offset ∧ ∃ c, u.chars.head? = some c ∧
      ∀ found, e = .unexpected found offset → found = c := by
  have hhead : u.chars ≠ [] → ∃ c, u.chars.head? = some c := fun hchars =>
    Option.ne_none_iff_exists'.mp (mt List.head?_eq_none_iff.mp hchars)
  cases e with
  | unexpected found offset =>
    cases hoffset
    exact ⟨h.1, found, h.2, fun found hfound => by cases hfound; rfl⟩
  | unexpectedEnd expected => cases hoffset
  | invalidQuantifier offset =>
    cases hoffset
    obtain ⟨c, hc⟩ := hhead h.2
    exact ⟨h.1, c, hc, nofun⟩
  | unsupported construct offset =>
    cases hoffset
    obtain ⟨c, hc⟩ := hhead h.2
    exact ⟨h.1, c, hc, nofun⟩

/-- An error about a token that begins with a character points there. -/
theorem SyntaxError.About.pointsAt {e : SyntaxError} {u : Unread} (h : e.About u.offset)
    (hu : u.chars ≠ []) : e.PointsAt u := by
  cases e with
  | unexpected found offset => exact h.elim
  | unexpectedEnd expected => trivial
  | invalidQuantifier offset => exact ⟨h, hu⟩
  | unsupported construct offset => exact ⟨h, hu⟩

/-! ## Whole texts -/

open Unread

variable {d : Dialect} {f : Bool} {draft : Draft} {u w : Unread} {t : Token}

/-- The error of a token that is refused points at the token. -/
theorem Unread.scan_blames {failure : Failure} (h : u.scan d f = some (.error failure)) :
    failure.error.PointsAt u := by
  refine ((scan_stops h).about _ rfl).pointsAt fun hnil => ?_
  rw [scan_eq_none hnil] at h
  cases h

namespace Draft

/-- So does the error of a token that the draft refuses: a quantifier that has nothing to repeat, or
a closing delimiter that is not the one of the open group. -/
theorem feed_blames {failure : Failure} {supply : Supply}
    (hfront : ∀ c ∈ u.chars.head?, d = .perl6 → isBlank c = false ∧ c ≠ '#')
    (hscan : u.scan d f = some (.ok (t, w)))
    (h : draft.feed joinLiterals ⟨t, u.offset, w.offset⟩ = .error (failure, supply)) :
    failure.error.PointsAt u := by
  cases t with
  | atom atom => cases h
  | bar => cases h
  | openGroup capturing bracket => cases capturing <;> cases h
  | quantifier q =>
    have hu := (scan_follows hscan).2
    simp only [feed] at h
    split at h
    · cases h
      exact ⟨rfl, hu⟩
    · split at h
      · cases h
        exact ⟨rfl, hu⟩
      · cases h
  | closeGroup bracket =>
    have hcloser : u.chars.head? = some bracket.closer := by
      have hspelled := (scan_sound hfront hscan).1
      cases bracket with
      | round => rw [show u.chars = _ from hspelled]; rfl
      | square => rw [show u.chars = _ from hspelled.2]; rfl
    simp only [feed] at h
    split at h
    · cases h
      exact ⟨rfl, hcloser⟩
    · split at h
      · cases h
      · cases h
        exact ⟨rfl, hcloser⟩

theorem finish_blames {offset : Nat} {failure : Failure} {supply : Supply}
    (h : draft.finish joinLiterals offset = .error (failure, supply)) (u : Unread) :
    failure.error.PointsAt u := by
  simp only [finish] at h
  split at h
  · cases h
  · cases h
    trivial

/-- **The error of a text points at a character of it.** -/
theorem read_blames {failure : Failure} {supply : Supply} :
    draft.read d f u = .error (failure, supply) →
      ∃ v, Follows v u ∧ failure.error.PointsAt v := by
  refine read_induction (d := d) (motive := fun _ _ u r => r = .error (failure, supply) →
    ∃ v, Follows v u ∧ failure.error.PointsAt v) ?done ?failed ?refused ?fed f draft u
  case done =>
    intro f draft u _ hfinish
    exact ⟨u, .refl u, finish_blames hfinish u⟩
  case failed =>
    intro f draft u failure' hscan heq
    cases heq
    exact ⟨_, u.skipTrivia_follows d, scan_blames hscan⟩
  case refused =>
    intro f draft u t w e hscan hfeed heq
    cases heq
    exact ⟨_, u.skipTrivia_follows d, feed_blames (u.head?_skipTrivia d) hscan hfeed⟩
  case fed =>
    intro f draft u t w draft' hscan _ ih hread
    obtain ⟨v, hv, hpoints⟩ := ih hread
    exact ⟨v, hv.trans (follows_of_scan hscan), hpoints⟩

end Draft

end PatternMachine
