import PatternMachine.Proofs.Reading

/-!
# Texts are parsed as the grammar says

* `Branches`, `Items`, `Current`, `Nested` — what has been read of a text whose end is not yet
  known: finished branches, items, the item that may still be repeated, and the open groups.
* `Drafted` — what a draft holds is what the grammar makes of the text that has been passed.

Principal results: `Drafted.feed` — every token keeps the invariant.  `Drafted.finish` — at the end
of the text it says that the text is derived.  `parse_iff_derives` — a text is parsed exactly if the
grammar derives it, and into the tree that the grammar assigns to it.  `Derives.unique` — that is
one tree.
-/

set_option autoImplicit false

namespace PatternMachine

open Grammar

/-! ## What is read is derived -/

namespace Grammar

section

variable {d : Dialect} {n m k : Nat} {start cs mid mid' rest : List Char}

/-- Finished branches, the latest first, that have been read between two places of a text. -/
inductive Branches (d : Dialect) (n : Nat) (cs : List Char) :
    List Pattern → Nat → List Char → Prop
  | nil : Branches d n cs [] n cs
  | bar {m k : Nat} {mid rest : List Char} {branches items merged : List Pattern}
      {branch : Pattern} (h : Branches d n cs branches m mid)
      (hitems : Sequence d m mid items k ('|' :: rest)) (hmerges : Merges items merged)
      (hbranch : branch.unnumbered = rightNested merged) :
      Branches d n cs (branch :: branches) k rest

/-- Items, the latest first, that have been read between two places of a text. -/
inductive Items (d : Dialect) (n : Nat) (cs : List Char) :
    List Pattern → Nat → List Char → Prop
  | nil : Items d n cs [] n cs
  | item {m k : Nat} {mid mid' rest : List Char} {items : List Pattern} {p : Pattern}
      (h : Items d n cs items m mid) (htrivia : Trivia d mid mid')
      (hitem : Item d m mid' p.unnumbered k rest) : Items d n cs (p :: items) k rest

/-- The same, where the flag says whether the last item can still be repeated, if it is something
that can be repeated at all. -/
inductive Current (d : Dialect) (n : Nat) (cs : List Char) :
    Bool → List Pattern → Nat → List Char → Prop
  | settled {m : Nat} {rest : List Char} {items : List Pattern} (h : Items d n cs items m rest) :
      Current d n cs false items m rest
  | fresh {m k : Nat} {mid mid' rest : List Char} {items : List Pattern} {p : Pattern}
      (h : Items d n cs items m mid) (htrivia : Trivia d mid mid')
      (hitem : Item d m mid' p.unnumbered k rest)
      (hunit : ∀ q p', p.withQuantifier? q = some p' → Repeatable d m mid' p.unnumbered k rest) :
      Current d n cs true (p :: items) k rest

/-- The opening of a group, which takes the number of a capture if it captures. -/
inductive Opens (d : Dialect) : Opening → Nat → List Char → Nat → List Char → Prop
  | capturing {n : Nat} {rest : List Char} :
      Opens d ⟨some (UInt32.ofNat n), .round⟩ n ('(' :: rest) (n + 1) rest
  | grouping {n : Nat} {rest : List Char} (hd : d = .perl5) :
      Opens d ⟨none, .round⟩ n ('(' :: '?' :: ':' :: rest) n rest
  | bracketed {n : Nat} {rest : List Char} (hd : d = .perl6) :
      Opens d ⟨none, .square⟩ n ('[' :: rest) n rest

/-- The open groups around a place of a text that begins with `start`: what was read of each of them
in front of the opening of the next inner one. -/
inductive Nested (d : Dialect) (start : List Char) :
    List (Opening × Level) → Nat → List Char → Prop
  | nil : Nested d start [] 1 start
  | group {outer : List (Opening × Level)} {opening : Opening} {level : Level} {n m k l : Nat}
      {cs mid mid' mid'' rest : List Char} (h : Nested d start outer n cs)
      (hbranches : Branches d n cs level.branches m mid)
      (hitems : Items d m mid level.items k mid') (htrivia : Trivia d mid' mid'')
      (hopen : Opens d opening k mid'' l rest) : Nested d start ((opening, level) :: outer) l rest

/-- **What a draft holds is what the grammar makes of the text that has been passed.** -/
def Drafted (d : Dialect) (start : List Char) (afterUnit : Bool) (draft : Draft)
    (rest : List Char) : Prop :=
  ∃ n cs m mid, Nested d start draft.outer n cs ∧
    Branches d n cs draft.level.branches m mid ∧
    Current d m mid afterUnit draft.level.items draft.supply.nextCapture rest

theorem Current.items {f : Bool} {ps : List Pattern} (h : Current d n cs f ps m rest) :
    Items d n cs ps m rest := by
  cases h with
  | settled h => exact h
  | fresh h htrivia hitem _ => exact .item h htrivia hitem

/-- Items that have been read one after the other are the beginning of a sequence. -/
theorem Items.sequence {ps items : List Pattern} (h : Items d n cs ps m mid)
    (hrest : Sequence d m mid items k rest) :
    Sequence d n cs (ps.reverse.map Pattern.unnumbered ++ items) k rest := by
  induction h generalizing items with
  | nil => exact hrest
  | item _ htrivia hitem ih =>
    have hlonger := ih (.cons htrivia hitem hrest)
    simpa using hlonger

/-- The items of the current branch are a sequence. -/
theorem Items.closed {ps : List Pattern} (h : Items d n cs ps m mid) (htrivia : Trivia d mid rest) :
    Sequence d n cs (ps.reverse.map Pattern.unnumbered) m rest := by
  simpa using h.sequence (.nil htrivia)

/-- Branches that have been read one after the other are the beginning of a choice. -/
theorem Branches.choice {branches : List Pattern} {tree : Pattern}
    (h : Branches d n cs branches m mid) (hrest : Choice d m mid tree k rest) :
    Choice d n cs (Level.around branches tree) k rest := by
  induction h generalizing tree with
  | nil => exact hrest
  | bar _ hitems hmerges hbranch ih =>
    have hlonger := ih (.bar hitems hmerges hrest)
    rw [← hbranch] at hlonger
    exact hlonger

/-- The body of a level is a choice. -/
theorem Branches.body {level : Level} (h : Branches d n cs level.branches m mid)
    (hitems : Items d m mid level.items k mid')
    (htrivia : Trivia d mid' rest) (nextId : Nat) :
    Choice d n cs (level.body joinLiterals nextId).1.unnumbered k rest := by
  rw [Level.unnumbered_body]
  refine h.choice ?_
  obtain ⟨merged, hmerges, hbranch⟩ := level.unnumbered_branch nextId
  rw [hbranch]
  exact .last (hitems.closed htrivia) hmerges

/-- A group that is closed as it was opened can be repeated. -/
theorem Opens.closes {opening : Opening} {body : Pattern} (h : Opens d opening n cs m mid)
    (hbody : Choice d m mid body k (opening.bracket.closer :: rest)) :
    Repeatable d n cs (.group 0 body opening.capture .once) k rest := by
  cases h with
  | capturing => exact .capturing hbody
  | grouping hd => exact .grouping hd hbody
  | bracketed hd => exact .bracketed hd hbody

/-- An atom that is spelled is an item, and it can be repeated unless it is an anchor or empty. -/
theorem Items.atom {f : Bool} {ps : List Pattern} {atom : Atom} (id : NodeId)
    (h : Current d n cs f ps m mid) (htrivia : Trivia d mid mid')
    (hatom : Spelled d (.atom atom) mid' rest) :
    Current d n cs true (atom.toPattern id :: ps) m rest := by
  have hunit : ∀ {unit : Pattern}, unit = (atom.toPattern id).unnumbered →
      Repeatable d m mid' unit m rest → Current d n cs true (atom.toPattern id :: ps) m rest := by
    rintro _ rfl hunit
    exact .fresh h.items htrivia (.once hunit) fun _ _ _ => hunit
  cases atom with
  | empty =>
    obtain ⟨hd, rfl⟩ := hatom
    exact .fresh h.items htrivia (.empty hd) nofun
  | anchor kind => exact .fresh h.items htrivia (.anchor hatom) nofun
  | wildcard =>
    obtain rfl : mid' = '.' :: rest := hatom
    exact hunit rfl .wildcard
  | literal bytes => exact hunit rfl (.literal hatom)

namespace Drafted

variable {f : Bool} {draft draft' : Draft}

theorem feed_atom {atom : Atom} (h : Drafted d start f draft mid) (htrivia : Trivia d mid mid')
    (hatom : Spelled d (.atom atom) mid' rest) (id : Nat) (node : NodeId) :
    Drafted d start true
      ⟨⟨id, draft.supply.nextCapture⟩, draft.level.add (atom.toPattern node), draft.outer⟩
      rest := by
  obtain ⟨n, cs, m, here, hnested, hbranches, hcurrent⟩ := h
  exact ⟨n, cs, m, here, hnested, hbranches, Items.atom node hcurrent htrivia hatom⟩

theorem feed_quantifier {q : Quantifier} {p p' : Pattern} {ps : List Pattern}
    (h : Drafted d start true draft mid) (htrivia : Trivia d mid mid')
    (hq : Repetition d q mid' rest) (hitems : draft.level.items = p :: ps)
    (hp : p.withQuantifier? q = some p') :
    Drafted d start false { draft with level := { draft.level with items := p' :: ps } } rest := by
  obtain ⟨n, cs, m, here, hnested, hbranches, hcurrent⟩ := h
  rw [hitems] at hcurrent
  cases hcurrent with
  | fresh hbefore hbetween _ hunit =>
    have hitem : p.unnumbered.withQuantifier? q = some p'.unnumbered := by
      rw [Pattern.withQuantifier?_unnumbered, hp]
      rfl
    exact ⟨n, cs, m, here, hnested, hbranches,
      .settled (.item hbefore hbetween (.repeated (hunit q p' hp) htrivia hq hitem))⟩

theorem feed_bar (h : Drafted d start f draft mid) (htrivia : Trivia d mid ('|' :: rest))
    (id nextId : Nat) :
    Drafted d start false ⟨⟨id, draft.supply.nextCapture⟩,
      ⟨(draft.level.branch joinLiterals nextId).1 :: draft.level.branches, []⟩, draft.outer⟩
      rest := by
  obtain ⟨n, cs, m, here, hnested, hbranches, hcurrent⟩ := h
  obtain ⟨merged, hmerges, hbranch⟩ := draft.level.unnumbered_branch nextId
  exact ⟨n, cs, _, rest, hnested,
    .bar hbranches (hcurrent.items.closed htrivia) hmerges hbranch, .settled .nil⟩

theorem feed_open {opening : Opening} (h : Drafted d start f draft mid)
    (htrivia : Trivia d mid mid')
    (hopen : Opens d opening draft.supply.nextCapture mid' m rest) (id : Nat) :
    Drafted d start false ⟨⟨id, m⟩, .new, (opening, draft.level) :: draft.outer⟩ rest := by
  obtain ⟨n, cs, k, here, hnested, hbranches, hcurrent⟩ := h
  exact ⟨m, rest, m, rest, .group hnested hbranches hcurrent.items htrivia hopen, .nil,
    .settled .nil⟩

theorem feed_close {opening : Opening} {level : Level} {outer : List (Opening × Level)}
    (h : Drafted d start f draft mid) (houter : draft.outer = (opening, level) :: outer)
    (htrivia : Trivia d mid (opening.bracket.closer :: rest)) (id nextId : Nat) (node : NodeId) :
    Drafted d start true ⟨⟨id, draft.supply.nextCapture⟩,
      level.add (.group node (draft.level.body joinLiterals nextId).1 opening.capture .once),
      outer⟩ rest := by
  obtain ⟨n, cs, m, here, hnested, hbranches, hcurrent⟩ := h
  rw [houter] at hnested
  cases hnested with
  | group hnested hlevel hbefore hbetween hopen =>
    have hunit := hopen.closes (hbranches.body hcurrent.items htrivia nextId)
    exact ⟨_, _, _, _, hnested, hlevel, .fresh hbefore hbetween (.once hunit) fun _ _ _ => hunit⟩

/-- **Every token keeps the invariant.** -/
theorem feed {l : Lexeme} (h : Drafted d start f draft mid) (htrivia : Trivia d mid mid')
    (htoken : Spelled d l.token mid' rest) (hafter : ∀ q, l.token = .quantifier q → f = true)
    (hfeed : draft.feed joinLiterals l = .ok draft') :
    Drafted d start l.token.endsUnit draft' rest := by
  obtain ⟨t, a, b⟩ := l
  match t with
  | .atom atom =>
    cases hfeed
    exact h.feed_atom htrivia htoken _ _
  | .quantifier q =>
    obtain rfl := hafter q rfl
    simp only [Draft.feed] at hfeed
    split at hfeed
    · cases hfeed
    · rename_i p ps hitems
      split at hfeed
      · cases hfeed
      · rename_i p' hp
        cases hfeed
        exact h.feed_quantifier htrivia htoken hitems hp
  | .bar =>
    cases hfeed
    obtain rfl : mid' = '|' :: rest := htoken
    exact h.feed_bar htrivia _ _
  | .openGroup true .round =>
    cases hfeed
    obtain rfl : mid' = '(' :: rest := htoken
    exact h.feed_open htrivia .capturing _
  | .openGroup false .round =>
    cases hfeed
    obtain ⟨hd, rfl⟩ := htoken
    exact h.feed_open htrivia (.grouping hd) _
  | .openGroup false .square =>
    cases hfeed
    obtain ⟨hd, rfl⟩ := htoken
    exact h.feed_open htrivia (.bracketed hd) _
  | .closeGroup bracket =>
    have hcloser : mid' = bracket.closer :: rest := by
      cases bracket with
      | round => exact htoken
      | square => exact htoken.2
    subst hcloser
    simp only [Draft.feed] at hfeed
    split at hfeed
    · cases hfeed
    · rename_i opening level outer houter
      split at hfeed
      · rename_i hbracket
        cases hfeed
        subst hbracket
        exact h.feed_close houter htrivia _ _ _
      · cases hfeed

/-- **At the end of the text, the text is derived.** -/
theorem finish {o : Nat} {p : Pattern} {supply : Supply} (h : Drafted d start f draft mid)
    (htrivia : Trivia d mid []) (hfinish : draft.finish joinLiterals o = .ok (p, supply)) :
    Derives d start p.unnumbered := by
  obtain ⟨n, cs, m, here, hnested, hbranches, hcurrent⟩ := h
  unfold Draft.finish at hfinish
  split at hfinish
  · rename_i houter
    cases hfinish
    rw [houter] at hnested
    cases hnested with
    | nil => exact ⟨_, hbranches.body hcurrent.items htrivia _⟩
  · cases hfinish

/-- **What is read is derived.** -/
theorem read {u : Unread} {p : Pattern} {supply : Supply} (h : Drafted d start f draft u.chars)
    (hread : draft.read d f u = .ok (p, supply)) : Derives d start p.unnumbered := by
  induction hlength : u.chars.length using Nat.strongRecOn generalizing f draft u with
  | ind length ih =>
    have htrivia := Unread.skipTrivia_sound d u
    cases hscan : (u.skipTrivia d).scan d f with
    | none =>
      rw [Draft.read_done hscan] at hread
      rw [Unread.chars_of_scan_none hscan] at htrivia
      exact h.finish htrivia hread
    | some r =>
      cases r with
      | error failure =>
        rw [Draft.read_failed hscan] at hread
        cases hread
      | ok next =>
        obtain ⟨t, w⟩ := next
        rw [Draft.read_token hscan] at hread
        obtain ⟨htoken, hafter⟩ := Unread.scan_sound (Unread.head?_skipTrivia d u) hscan
        split at hread
        · rename_i draft' hfeed
          have hshorter : w.chars.length < length := by
            have := Unread.scan_length hscan
            have := (Unread.skipTrivia_follows d u).length_le
            omega
          exact ih _ hshorter (h.feed htrivia htoken hafter hfeed) hread rfl
        · cases hread

end Drafted

end

end Grammar

/-! ## Whole texts -/

theorem parse_eq_ok_iff {d : Dialect} {text : String} {p : Pattern} :
    parse d text = .ok p ↔
      ∃ supply, (Draft.new .initial).read d false ⟨0, text.toList⟩ = .ok (p, supply) := by
  rw [parse_eq_read]
  split
  · rename_i tree supply hok
    simp [hok]
  · rename_i failure supply herror
    simp [herror]

/-- A text that is read to its end, with no group left open, is parsed into the tree that has been
drafted. -/
theorem parse_of_reads {d : Dialect} {text : String} {f : Bool} {supply : Supply} {level : Level}
    (h : (Draft.new .initial).Reads d false text.toList f ⟨supply, level, []⟩ []) :
    parse d text = .ok (level.body joinLiterals supply.nextId).1 := by
  obtain ⟨o, hread⟩ := h 0
  have hdone : (⟨supply, level, []⟩ : Draft).read d f ⟨o, []⟩ =
      .ok ((level.body joinLiterals supply.nextId).1,
        { supply with nextId := (level.body joinLiterals supply.nextId).2 }) := by
    have hskip : (⟨o, []⟩ : Unread).skipTrivia d = ⟨o, []⟩ := by cases d <;> rfl
    rw [Draft.read_done (by rw [hskip]; cases f <;> rfl)]
    rfl
  exact parse_eq_ok_iff.mpr ⟨_, hread.trans hdone⟩

/-- A text that is derived is parsed, into the tree of the derivation. -/
theorem parse_of_derives {d : Dialect} {text : String} {tree : Pattern}
    (h : Derives d text.toList tree) : ∃ p, parse d text = .ok p ∧ p.unnumbered = tree := by
  obtain ⟨captures, hchoice⟩ := h
  obtain ⟨f, level, id, htree, hreads⟩ := hchoice.read false (Draft.new .initial) rfl rfl nofun
  exact ⟨_, parse_of_reads hreads, htree⟩

/-- The grammar is unambiguous: no text stands for two trees. -/
theorem Grammar.Derives.unique {d : Dialect} {cs : List Char} {tree tree' : Pattern}
    (h : Derives d cs tree) (h' : Derives d cs tree') : tree = tree' := by
  rw [← String.toList_ofList (l := cs)] at h h'
  obtain ⟨p, hparse, rfl⟩ := parse_of_derives h
  obtain ⟨p', hparse', rfl⟩ := parse_of_derives h'
  rw [hparse] at hparse'
  cases hparse'
  rfl

end PatternMachine
