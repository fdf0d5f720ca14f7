import PatternMachine.Syntax.Lexeme

/-!
# Building a tree from tokens

* `Supply` — the node numbers and capture indexes that have not been handed out.
* `joinLiterals` — neighbouring literals that are matched once become one literal.
* `Level`, `Draft` — the branches and items read so far, of the innermost open group and of those
  around it.
* `Draft.feed` — one more token; `Draft.finish` — the end of the text.

Numbers are handed out in reading order: an atom takes one where it stands, a sequence takes one for
each of its joints from the right when it ends, a choice likewise when its group ends, and a group
takes one after its body. Capture indexes are taken where a group opens.

Main statement: `joinLiterals_joined` says that no two neighbours are left to be joined.
-/

set_option autoImplicit false

namespace PatternMachine

/-- The numbers to be handed out next. -/
structure Supply where
  nextId : Nat
  nextCapture : Nat
  deriving DecidableEq, Repr

/-- Node numbers and capture indexes begin at 1; index 0 is the whole match. -/
def Supply.initial : Supply := ⟨1, 1⟩

/-! ## Sequences -/

/-- The bytes of a literal that is matched once. -/
def Pattern.onceLiteral? : Pattern → Option (List UInt8)
  | .literal _ bytes q => if q.isOnce then some bytes else none
  | _ => none

/-- An item in front of a sequence whose literals are joined. A literal that takes over the bytes of
its neighbour keeps its own number and quantifier. -/
def joinItem : Pattern → List Pattern → List Pattern
  | .literal id bytes q, p :: ps =>
    match p.onceLiteral? with
    | some more =>
      if q.isOnce then .literal id (bytes ++ more) q :: ps else .literal id bytes q :: p :: ps
    | none => .literal id bytes q :: p :: ps
  | p, ps => p :: ps

/-- Joins every run of neighbouring literals that are matched once. -/
def joinLiterals (items : List Pattern) : List Pattern := items.foldr joinItem []

/-- No two neighbours are literals that are matched once. -/
def Joined : List Pattern → Prop
  | p :: q :: ps => (p.onceLiteral? = none ∨ q.onceLiteral? = none) ∧ Joined (q :: ps)
  | _ => True

theorem Joined.tail {p : Pattern} {ps : List Pattern} (h : Joined (p :: ps)) : Joined ps := by
  cases ps with
  | nil => trivial
  | cons q ps => exact h.2

theorem Joined.cons {p : Pattern} {ps : List Pattern} (h : Joined ps)
    (hp : p.onceLiteral? = none ∨ ∀ q ∈ ps.head?, q.onceLiteral? = none) : Joined (p :: ps) := by
  cases ps with
  | nil => trivial
  | cons q ps => exact ⟨hp.imp id (fun h => h q rfl), h⟩

theorem joinItem_joined {p : Pattern} {ps : List Pattern} (h : Joined ps) :
    Joined (joinItem p ps) := by
  cases p with
  | literal id bytes q =>
    cases ps with
    | nil => trivial
    | cons p ps =>
      simp only [joinItem]
      split
      · next more hmore =>
        split
        · cases ps with
          | nil => trivial
          | cons r ps =>
            have hr : r.onceLiteral? = none := h.1.resolve_left (by simp [hmore])
            exact h.tail.cons (Or.inr fun s hs => Option.some.inj hs ▸ hr)
        · next hq => exact h.cons (Or.inl (by simp [Pattern.onceLiteral?, hq]))
      · next hnone => exact h.cons (Or.inr fun r hr => Option.some.inj hr ▸ hnone)
  | _ => exact h.cons (Or.inl rfl)

/-- Joining leaves nothing to join. -/
theorem joinLiterals_joined (items : List Pattern) : Joined (joinLiterals items) := by
  induction items with
  | nil => trivial
  | cons p ps ih => exact joinItem_joined ih

/-- Nests items, the latest first, to the right under numbered joints; each joint takes the next
number. -/
def nest (joint : NodeId → Pattern → Pattern → Pattern) (earlier : List Pattern) (last : Pattern)
    (nextId : Nat) : Pattern × Nat :=
  earlier.foldl (fun r p => (joint (UInt32.ofNat r.2) p r.1, r.2 + 1)) (last, nextId)

/-- A sequence of items as one pattern, and the next number. -/
def sequence (items : List Pattern) (nextId : Nat) : Pattern × Nat :=
  match items.reverse with
  | [] => (.empty (UInt32.ofNat nextId), nextId + 1)
  | last :: earlier => nest .concat earlier last nextId

/-! ## Open groups -/

/-- What has been read of a group: its finished branches and the items of the current one, both
with the latest first. -/
structure Level where
  branches : List Pattern
  items : List Pattern
  deriving DecidableEq, Repr

namespace Level

/-- A group of which nothing has been read. -/
def new : Level := ⟨[], []⟩

/-- The current branch as one pattern, and the next number. The items pass through `join` first. -/
def branch (join : List Pattern → List Pattern) (level : Level) (nextId : Nat) : Pattern × Nat :=
  sequence (join level.items.reverse) nextId

/-- All branches as one pattern, and the next number. -/
def body (join : List Pattern → List Pattern) (level : Level) (nextId : Nat) : Pattern × Nat :=
  let last := level.branch join nextId
  nest .alternation level.branches last.1 last.2

/-- One more item in the current branch. -/
def add (item : Pattern) (level : Level) : Level := { level with items := item :: level.items }

end Level

/-- How a group was opened. -/
structure Opening where
  capture : Option UInt32
  bracket : Bracket
  deriving DecidableEq, Repr

/-- A tree under construction: the innermost open group, and the groups around it with the opening
of the next inner one. -/
structure Draft where
  supply : Supply
  level : Level
  outer : List (Opening × Level)
  deriving DecidableEq, Repr

namespace Draft

/-- The draft of which nothing has been read. -/
def new (supply : Supply) : Draft := ⟨supply, .new, []⟩

/-- The draft after the token, or the failure and what is left of the supply. An ill-placed closing
delimiter is found only when the group it stands in has been put together. -/
def feed (join : List Pattern → List Pattern) (d : Draft) (l : Lexeme) :
    Except (Failure × Supply) Draft :=
  match l.token with
  | .atom atom =>
    .ok { d with
      supply := { d.supply with nextId := d.supply.nextId + 1 }
      level := d.level.add (atom.toPattern (UInt32.ofNat d.supply.nextId)) }
  | .quantifier q =>
    match d.level.items with
    | [] => .error (⟨.invalidQuantifier l.start, l.stop⟩, d.supply)
    | item :: items =>
      match item.withQuantifier? q with
      | none => .error (⟨.invalidQuantifier l.start, l.stop⟩, d.supply)
      | some item => .ok { d with level := { d.level with items := item :: items } }
  | .bar =>
    let branch := d.level.branch join d.supply.nextId
    .ok { d with
      supply := { d.supply with nextId := branch.2 }
      level := ⟨branch.1 :: d.level.branches, []⟩ }
  | .openGroup true bracket =>
    .ok { d with
      supply := { d.supply with nextCapture := d.supply.nextCapture + 1 }
      level := .new
      outer := (⟨some (UInt32.ofNat d.supply.nextCapture), bracket⟩, d.level) :: d.outer }
  | .openGroup false bracket =>
    .ok { d with level := .new, outer := (⟨none, bracket⟩, d.level) :: d.outer }
  | .closeGroup bracket =>
    let body := d.level.body join d.supply.nextId
    let unexpected : Failure := ⟨.unexpected bracket.closer l.start, l.start⟩
    match d.outer with
    | [] => .error (unexpected, { d.supply with nextId := body.2 })
    | (opening, level) :: outer =>
      if opening.bracket = bracket then
        .ok {
          supply := { d.supply with nextId := body.2 + 1 }
          level := level.add (.group (UInt32.ofNat body.2) body.1 opening.capture .once)
          outer := outer }
      else .error (unexpected, { d.supply with nextId := body.2 })

/-- What the end of the text lacks when a group is open. -/
def lacking : Bracket → Expected
  | .round => .closingParenthesis
  | .square => .closingBracket

/-- The whole tree at the end of the text, which is at `offset`; an open group is a failure. -/
def finish (join : List Pattern → List Pattern) (d : Draft) (offset : Nat) :
    Except (Failure × Supply) (Pattern × Supply) :=
  let body := d.level.body join d.supply.nextId
  let supply := { d.supply with nextId := body.2 }
  match d.outer with
  | [] => .ok (body.1, supply)
  | (opening, _) :: _ => .error (⟨.unexpectedEnd (lacking opening.bracket), offset⟩, supply)

/-- The tree of a list of tokens and the ending of its text. -/
def assemble (join : List Pattern → List Pattern) (ending : Unread.Ending) :
    Draft → List Lexeme → Except (Failure × Supply) (Pattern × Supply)
  | d, [] =>
    match ending with
    | .complete offset => d.finish join offset
    | .stopped failure => .error (failure, d.supply)
  | d, l :: ls =>
    match d.feed join l with
    | .ok d => assemble join ending d ls
    | .error e => .error e

end Draft

end PatternMachine
