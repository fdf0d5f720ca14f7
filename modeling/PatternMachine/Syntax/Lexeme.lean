import PatternMachine.Syntax.Token
import PatternMachine.Syntax.Unread

/-!
# Splitting a text into tokens

* `Failure` — an error and the offset at which reading stopped.
* `Unread.quantifier?` — a quantifier at the front, where one may follow.
* `Unread.unit` — any other token.
* `Unread.lexemes` — all tokens of a text, and how the text ends.

Whether `*`, `+`, `?` and braces are quantifiers depends on the token before them alone, so one
flag is all that is carried from token to token.

Main statement: `scan_follows` says that reading a token passes one character or more and moves the
offset by the bytes passed; this is why `lexemes` ends.
-/

set_option autoImplicit false

namespace PatternMachine

/-- An error in a text, and the offset at which reading stopped. -/
structure Failure where
  error : SyntaxError
  offset : Nat
  deriving DecidableEq, Repr

namespace Unread

/-! ## Quantifiers -/

/-- The failure of a quantifier that begins at `start`, after which `u` is left. -/
def badQuantifier {α : Type} (start : Nat) (u : Unread) : Except Failure α :=
  .error ⟨.invalidQuantifier start, u.offset⟩

/-- The closing brace of a quantifier. Whatever character stands there is passed. -/
def closeBrace (start : Nat) (min : UInt32) (max : Bound) (u : Unread) :
    Except Failure (Quantifier × Unread) :=
  if u.chars.head? = some '\x7d' then .ok (⟨min, max, true⟩, u.next)
  else badQuantifier start u.next

/-- The bounds of a Perl 5 quantifier after its opening brace: `n`, `n,` or `n,m`. A comma that no
number follows leaves the repetition unbounded. -/
def commaBounds (start : Nat) (u : Unread) : Except Failure (Quantifier × Unread) :=
  match u.number? with
  | none => badQuantifier start u
  | some (min, v) =>
    if v.chars.head? = some ',' then
      match v.next.number? with
      | some (max, w) => closeBrace start min (.finite max) w
      | none => closeBrace start min .unbounded v.next
    else closeBrace start min (.finite min) v

/-- The bounds of a Perl 6 quantifier after its opening brace: `n`, `n..m` or `n..*`. -/
def rangeBounds (start : Nat) (u : Unread) : Except Failure (Quantifier × Unread) :=
  match u.number? with
  | none => badQuantifier start u
  | some (min, v) =>
    if v.chars.take 2 = ['.', '.'] then
      if v.next.next.chars.head? = some '*' then
        closeBrace start min .unbounded v.next.next.next
      else match v.next.next.number? with
        | some (max, w) => closeBrace start min (.finite max) w
        | none => badQuantifier start v.next.next
    else closeBrace start min (.finite min) v

/-- What follows the two stars of a Perl 6 quantifier: braces, which trivia may precede. -/
def starredBounds (start : Nat) (u : Unread) : Except Failure (Quantifier × Unread) :=
  let v := u.skipTrivia .perl6
  if v.chars.head? = some '\x7b' then rangeBounds start v.next
  else badQuantifier start v.next

/-- The bounds at the front, if a quantifier begins there. -/
def bounds? (dialect : Dialect) (u : Unread) : Option (Except Failure (Quantifier × Unread)) :=
  match u.chars.head? with
  | some '*' =>
    if dialect = .perl6 ∧ u.next.chars.head? = some '*' then
      some (starredBounds u.offset u.next.next)
    else some (.ok (⟨0, .unbounded, true⟩, u.next))
  | some '+' => some (.ok (⟨1, .unbounded, true⟩, u.next))
  | some '?' => some (.ok (⟨0, .finite 1, true⟩, u.next))
  | some '\x7b' => if dialect = .perl5 then some (commaBounds u.offset u.next) else none
  | _ => none

/-- The bounds that were read, made lazy by a question mark right behind them. -/
def laziness (start : Nat) : Quantifier × Unread → Except Failure (Quantifier × Unread)
  | (q, v) =>
    if q.isValid then
      if v.chars.head? = some '?' then .ok (q.toLazy, v.next) else .ok (q, v)
    else badQuantifier start v

/-- The quantifier at the front, if one begins there. -/
def quantifier? (dialect : Dialect) (u : Unread) :
    Option (Except Failure (Quantifier × Unread)) :=
  (u.bounds? dialect).map fun r => r.bind (laziness u.offset)

/-! ## All other tokens -/

/-- The failure of a construct that begins at `start`, after which `u` is left. -/
def unsupported {α : Type} (construct : Unsupported) (start : Nat) (u : Unread) :
    Except Failure α :=
  .error ⟨.unsupported construct start, u.offset⟩

/-- What an opening parenthesis begins. In Perl 5 patterns a question mark behind it asks for
another kind of group, of which the one that does not capture is supported. -/
def parenthesis (dialect : Dialect) (start : Nat) (u : Unread) :
    Except Failure (Token × Unread) :=
  if dialect = .perl5 ∧ u.chars.head? = some '?' then
    if u.next.chars.head? = some ':' then .ok (.openGroup false .round, u.next.next)
    else unsupported .groupModifier start u
  else .ok (.openGroup true .round, u)

/-- What stands behind a backslash: the letters and digits of ASCII have a meaning or are refused,
and any other character stands for itself. -/
def escape (dialect : Dialect) (start : Nat) (u : Unread) : Except Failure (Token × Unread) :=
  match u.chars.head? with
  | none => .error ⟨.unexpectedEnd .escapedCharacter, u.offset⟩
  | some c =>
    if c = 'n' then .ok (.atom (.literal [10]), u.next)
    else if c = 't' then .ok (.atom (.literal [9]), u.next)
    else if c = 'r' then .ok (.atom (.literal [13]), u.next)
    else if c = '0' then .ok (.atom (.literal [0]), u.next)
    else if dialect = .perl5 ∧ c = 'A' then .ok (.atom (.anchor .start), u.next)
    else if dialect = .perl5 ∧ c = 'z' then .ok (.atom (.anchor .finish), u.next)
    else if c.isAlphanum then unsupported (.escape c) start u.next
    else .ok (.atom (.ofChar c), u.next)

/-- A quoted literal whose opening quote has been passed. -/
def quotedLiteral (u : Unread) : Except Failure (Token × Unread) :=
  match u.quoted? with
  | none => .error ⟨.unexpectedEnd .closingQuote, u.finish.offset⟩
  | some ([], v) => .ok (.atom .empty, v)
  | some (c :: cs, v) => .ok (.atom (.literal ((c :: cs).flatMap String.utf8EncodeChar)), v)

/-- The token that begins with the character `c` at offset `start`, where `u` is what follows that
character. -/
def unit (dialect : Dialect) (start : Nat) (c : Char) (u : Unread) :
    Except Failure (Token × Unread) :=
  match c with
  | '|' => .ok (.bar, u)
  | '(' => parenthesis dialect start u
  | ')' => .ok (.closeGroup .round, u)
  | '[' =>
    if dialect = .perl6 then .ok (.openGroup false .square, u)
    else unsupported .characterClass start u
  | ']' => .ok (if dialect = .perl6 then .closeGroup .square else .atom (.ofChar c), u)
  | '.' => .ok (.atom .wildcard, u)
  | '^' =>
    if dialect = .perl6 ∧ u.chars.head? = some '^' then .ok (.atom (.anchor .lineStart), u.next)
    else .ok (.atom (.anchor .start), u)
  | '$' =>
    if dialect = .perl6 ∧ u.chars.head? = some '$' then .ok (.atom (.anchor .lineEnd), u.next)
    else .ok (.atom (.anchor .finish), u)
  | '\\' => escape dialect start u
  | '\'' => if dialect = .perl6 then quotedLiteral u else .ok (.atom (.ofChar c), u)
  | '*' => badQuantifier start u
  | '+' => badQuantifier start u
  | '?' => badQuantifier start u
  | '\x7b' => if dialect = .perl5 then badQuantifier start u else .ok (.atom (.ofChar c), u)
  | c => .ok (.atom (.ofChar c), u)

/-! ## One token -/

/-- The token at the front; nothing at the end of the text. The flag says whether the token before
it completed a unit. -/
def scan (dialect : Dialect) (afterUnit : Bool) (u : Unread) :
    Option (Except Failure (Token × Unread)) :=
  match (if afterUnit then u.quantifier? dialect else none) with
  | some r => some (r.map fun qv => (.quantifier qv.1, qv.2))
  | none => u.chars.head?.map fun c => unit dialect u.offset c u.next

/-- What a successful reading of `u` leaves follows `u`. -/
structure Leaves {α : Type} (r : Except Failure (α × Unread)) (u : Unread) : Prop where
  follows : ∀ a v, r = .ok (a, v) → Follows v u

theorem Leaves.ok {α : Type} {a : α} {u v : Unread} (h : Follows v u) :
    Leaves (.ok (a, v)) u where
  follows b w hw := by
    simp only [Except.ok.injEq, Prod.mk.injEq] at hw
    exact hw.2 ▸ h

theorem Leaves.error {α : Type} {f : Failure} {u : Unread} :
    Leaves (.error f : Except Failure (α × Unread)) u where
  follows b w hw := by simp at hw

theorem Leaves.mono {α : Type} {r : Except Failure (α × Unread)} {u v : Unread}
    (h : Leaves r v) (hv : Follows v u) : Leaves r u where
  follows a w hw := (h.follows a w hw).trans hv

theorem closeBrace_leaves (start : Nat) (min : UInt32) (max : Bound) (u : Unread) :
    Leaves (closeBrace start min max u) u := by
  unfold closeBrace
  split
  · exact .ok u.next_follows
  · exact .error

theorem commaBounds_leaves (start : Nat) (u : Unread) : Leaves (commaBounds start u) u := by
  unfold commaBounds
  split
  · exact .error
  · next min v hv =>
    have hvu := number?_follows hv
    split
    · split
      · next hw =>
        exact (closeBrace_leaves ..).mono
          (((number?_follows hw).trans v.next_follows).trans hvu)
      · exact (closeBrace_leaves ..).mono (v.next_follows.trans hvu)
    · exact (closeBrace_leaves ..).mono hvu

theorem rangeBounds_leaves (start : Nat) (u : Unread) : Leaves (rangeBounds start u) u := by
  unfold rangeBounds
  split
  · exact .error
  · next min v hv =>
    have hvu := number?_follows hv
    have hdots := (v.next.next_follows.trans v.next_follows).trans hvu
    split
    · split
      · exact (closeBrace_leaves ..).mono (v.next.next.next_follows.trans hdots)
      · split
        · next hw => exact (closeBrace_leaves ..).mono ((number?_follows hw).trans hdots)
        · exact .error
    · exact (closeBrace_leaves ..).mono hvu

theorem starredBounds_leaves (start : Nat) (u : Unread) : Leaves (starredBounds start u) u := by
  simp only [starredBounds]
  split
  · exact (rangeBounds_leaves ..).mono
      ((u.skipTrivia .perl6).next_follows.trans (skipTrivia_follows .perl6 u))
  · exact .error

theorem bounds?_leaves {dialect : Dialect} {u : Unread}
    {r : Except Failure (Quantifier × Unread)} (h : u.bounds? dialect = some r) :
    Leaves r u.next := by
  unfold bounds? at h
  split at h
  · split at h
    · exact Option.some.inj h ▸ (starredBounds_leaves ..).mono u.next.next_follows
    · exact Option.some.inj h ▸ .ok (.refl _)
  · exact Option.some.inj h ▸ .ok (.refl _)
  · exact Option.some.inj h ▸ .ok (.refl _)
  · split at h
    · exact Option.some.inj h ▸ commaBounds_leaves ..
    · simp at h
  · simp at h

theorem laziness_leaves (start : Nat) (q : Quantifier) (v : Unread) :
    Leaves (laziness start (q, v)) v := by
  simp only [laziness]
  split
  · split
    · exact .ok v.next_follows
    · exact .ok (.refl v)
  · exact .error

theorem quantifier?_leaves {dialect : Dialect} {u : Unread}
    {r : Except Failure (Quantifier × Unread)} (h : u.quantifier? dialect = some r) :
    Leaves r u.next := by
  obtain ⟨s, hs, rfl⟩ := Option.map_eq_some_iff.1 h
  cases s with
  | error f => exact .error
  | ok qv => exact (laziness_leaves ..).mono ((bounds?_leaves hs).follows _ _ rfl)

theorem escape_leaves (dialect : Dialect) (start : Nat) (u : Unread) :
    Leaves (escape dialect start u) u := by
  unfold escape
  repeat' split
  all_goals first | exact .ok u.next_follows | exact .error

theorem quotedLiteral_leaves (u : Unread) : Leaves (quotedLiteral u) u := by
  unfold quotedLiteral
  split
  · exact .error
  · next h => exact .ok (quoted?_follows h)
  · next h => exact .ok (quoted?_follows h)

theorem parenthesis_leaves (dialect : Dialect) (start : Nat) (u : Unread) :
    Leaves (parenthesis dialect start u) u := by
  unfold parenthesis
  split
  · split
    · exact .ok (u.next.next_follows.trans u.next_follows)
    · exact .error
  · exact .ok (.refl u)

theorem unit_leaves (dialect : Dialect) (start : Nat) (c : Char) (u : Unread) :
    Leaves (unit dialect start c u) u := by
  unfold unit
  repeat' split
  all_goals
    first
    | exact .ok (.refl u)
    | exact .ok u.next_follows
    | exact .error
    | exact parenthesis_leaves ..
    | exact escape_leaves ..
    | exact quotedLiteral_leaves ..

/-- A token takes the first character and perhaps more. -/
theorem scan_follows {dialect : Dialect} {afterUnit : Bool} {u v : Unread} {t : Token}
    (h : u.scan dialect afterUnit = some (.ok (t, v))) : Follows v u.next ∧ u.chars ≠ [] := by
  unfold scan at h
  split at h
  · next r hr =>
    have hq : u.quantifier? dialect = some r := by
      cases afterUnit <;> simp_all
    cases r with
    | error f => simp [Except.map] at h
    | ok qv =>
      simp only [Except.map, Option.some.injEq, Except.ok.injEq, Prod.mk.injEq] at h
      refine ⟨h.2 ▸ (quantifier?_leaves hq).follows _ _ rfl, fun hn => ?_⟩
      simp [quantifier?, bounds?, hn] at hq
  · obtain ⟨c, hc, hu⟩ := Option.map_eq_some_iff.1 h
    exact ⟨(unit_leaves ..).follows _ _ hu, fun hn => by simp [hn] at hc⟩

theorem scan_length {dialect : Dialect} {afterUnit : Bool} {u v : Unread} {t : Token}
    (h : u.scan dialect afterUnit = some (.ok (t, v))) : v.chars.length < u.chars.length :=
  Nat.lt_of_le_of_lt (scan_follows h).1.length_le (next_length (scan_follows h).2)

/-! ## Whole texts -/

/-- How the reading of a text ends: at its end, or with a failure. -/
inductive Ending where
  | complete (offset : Nat)
  | stopped (failure : Failure)
  deriving DecidableEq, Repr

/-- All tokens of a text up to its end or the first failure. -/
def lexemes (dialect : Dialect) (afterUnit : Bool) (u : Unread) : List Lexeme × Ending :=
  let v := u.skipTrivia dialect
  match _h : v.scan dialect afterUnit with
  | none => ([], .complete v.offset)
  | some (.error failure) => ([], .stopped failure)
  | some (.ok (t, w)) =>
    let rest := lexemes dialect t.endsUnit w
    (⟨t, v.offset, w.offset⟩ :: rest.1, rest.2)
termination_by u.chars.length
decreasing_by exact Nat.lt_of_lt_of_le (scan_length _h) (skipTrivia_follows dialect u).length_le

end Unread

end PatternMachine
