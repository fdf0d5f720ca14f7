import PatternMachine.Proofs.Merging
import PatternMachine.Proofs.Scanning

/-!
# What the grammar derives is read

* `Draft.read` — the rest of a text read into a draft.
* `Draft.Reads` — reading the rest of a text comes to reading less of it into another draft.
* `Choice.Read`, `Sequence.Read`, `Item.Read`, `Repeatable.Read` — a phrase is read into any draft.

Principal results: `Draft.Reads.token` — a token that the grammar spells is read and fed to the
draft.  `Choice.read` — so is every choice that the grammar derives, and the draft holds its tree
then.
-/

set_option autoImplicit false

namespace PatternMachine

open Grammar

/-! ## Reading into a draft -/

namespace Draft

/-- What comes of reading the rest of a text into a draft. -/
def read (d : Dialect) (afterUnit : Bool) (draft : Draft) (u : Unread) :
    Except (Failure × Supply) (Pattern × Supply) :=
  draft.assemble joinLiterals (u.lexemes d afterUnit).2 (u.lexemes d afterUnit).1

variable {d : Dialect} {afterUnit : Bool} {draft : Draft} {u w : Unread} {t : Token}

theorem read_done (h : (u.skipTrivia d).scan d afterUnit = none) :
    draft.read d afterUnit u = draft.finish joinLiterals (u.skipTrivia d).offset := by
  have hlexemes : u.lexemes d afterUnit = ([], .complete (u.skipTrivia d).offset) := by
    rw [Unread.lexemes]
    split
    · rfl
    · rename_i hscan
      cases h.symm.trans hscan
    · rename_i hscan
      cases h.symm.trans hscan
  rw [read, hlexemes]
  rfl

theorem read_failed {failure : Failure}
    (h : (u.skipTrivia d).scan d afterUnit = some (.error failure)) :
    draft.read d afterUnit u = .error (failure, draft.supply) := by
  have hlexemes : u.lexemes d afterUnit = ([], .stopped failure) := by
    rw [Unread.lexemes]
    split
    · rename_i hscan
      cases h.symm.trans hscan
    · rename_i hscan
      cases h.symm.trans hscan
      rfl
    · rename_i hscan
      cases h.symm.trans hscan
  rw [read, hlexemes]
  rfl

theorem read_token (h : (u.skipTrivia d).scan d afterUnit = some (.ok (t, w))) :
    draft.read d afterUnit u =
      match draft.feed joinLiterals ⟨t, (u.skipTrivia d).offset, w.offset⟩ with
      | .ok draft => draft.read d t.endsUnit w
      | .error e => .error e := by
  have hlexemes : u.lexemes d afterUnit =
      (⟨t, (u.skipTrivia d).offset, w.offset⟩ :: (w.lexemes d t.endsUnit).1,
        (w.lexemes d t.endsUnit).2) := by
    rw [Unread.lexemes]
    split
    · rename_i hscan
      cases h.symm.trans hscan
    · rename_i hscan
      cases h.symm.trans hscan
    · rename_i hscan
      cases h.symm.trans hscan
      rfl
  rw [read, hlexemes]
  rfl

/-- Reading `cs` into a draft comes to reading what is left of it into another draft, wherever the
text stands. -/
def Reads (d : Dialect) (afterUnit : Bool) (draft : Draft) (cs : List Char) (afterUnit' : Bool)
    (draft' : Draft) (rest : List Char) : Prop :=
  ∀ o, ∃ o', draft.read d afterUnit ⟨o, cs⟩ = draft'.read d afterUnit' ⟨o', rest⟩

variable {draft' draft'' : Draft} {f f' f'' : Bool} {cs mid rest : List Char}

theorem Reads.trans (h : draft.Reads d f cs f' draft' mid)
    (h' : draft'.Reads d f' mid f'' draft'' rest) : draft.Reads d f cs f'' draft'' rest := by
  intro o
  obtain ⟨o₁, h⟩ := h o
  obtain ⟨o₂, h'⟩ := h' o₁
  exact ⟨o₂, h.trans h'⟩

/-- Trivia do not matter for what is read. -/
theorem read_congr {v : Unread} (h : u.skipTrivia d = v.skipTrivia d) :
    draft.read d afterUnit u = draft.read d afterUnit v := by
  cases hscan : (v.skipTrivia d).scan d afterUnit with
  | none => rw [read_done hscan, read_done (h ▸ hscan), h]
  | some r =>
    cases r with
    | error failure => rw [read_failed hscan, read_failed (h ▸ hscan)]
    | ok p => rw [read_token hscan, read_token (h ▸ hscan), h]

theorem Reads.trivia (h : Trivia d cs rest) (f : Bool) (draft : Draft) :
    draft.Reads d f cs f draft rest := by
  intro o
  obtain ⟨o', hskip⟩ := h.skip o
  exact ⟨o', read_congr hskip⟩

/-- A token that the grammar spells is read and fed to the draft. -/
theorem Reads.token (h : Spelled d t cs rest) (hafter : ∀ q, t = .quantifier q → f = true)
    (hrest : (∃ q, t = .quantifier q) ∨ t = .openGroup true .round → Unrepeated rest)
    (hfeed : ∀ start stop, draft.feed joinLiterals ⟨t, start, stop⟩ = .ok draft') :
    draft.Reads d f cs t.endsUnit draft' rest := by
  intro o
  obtain ⟨o', hscan⟩ := h.scans hafter hrest o
  have hskip : (⟨o, cs⟩ : Unread).skipTrivia d = ⟨o, cs⟩ := by
    cases cs with
    | nil => cases d <;> rfl
    | cons c cs => exact Unread.skipTrivia_eq_self o (h.front c rfl)
  refine ⟨o', ?_⟩
  rw [read_token (hskip.symm ▸ hscan), hfeed]

end Draft

/-- All of a text is unread at first. -/
theorem Reader.unread_new (d : Dialect) (text : String) :
    (Reader.new d text).unread = ⟨0, text.toList⟩ := by
  unfold Reader.unread Unread.dropTo
  change Unread.dropTo.go 0 0 text.toList = _
  cases text.toList <;> rfl

/-- To parse a text is to read it into a new draft. -/
theorem parse_eq_read (d : Dialect) (text : String) :
    parse d text =
      match (Draft.new .initial).read d false ⟨0, text.toList⟩ with
      | .ok (tree, _) => .ok tree
      | .error (failure, _) => .error failure.error := by
  unfold parse Reader.read Reader.readWith Draft.read
  rw [Reader.unread_new]
  dsimp only [Reader.new]
  generalize Draft.assemble _ _ _ _ = result
  rcases result with ⟨failure, supply⟩ | ⟨tree, supply⟩ <;> rfl

/-! ## What the grammar derives is read -/

namespace Grammar

section

variable {d : Dialect} {n m k : Nat} {cs cs' mid mid' rest : List Char}

theorem Trivia.head (h : Trivia d cs rest) (hrest : Unrepeated rest) : Unrepeated cs := by
  cases h with
  | none => exact hrest
  | blank hc _ =>
    rintro _ ⟨⟩
    refine ⟨?_, ?_, ?_⟩ <;> rintro rfl <;> revert hc <;> decide
  | comment _ _ | lastComment _ =>
    rintro _ ⟨⟩
    decide

theorem Repeatable.head {unit : Pattern} (h : Repeatable d n cs unit m rest) : Unrepeated cs := by
  cases h with
  | wildcard | capturing _ | grouping _ _ | bracketed _ _ =>
    rintro _ ⟨⟩
    decide
  | literal h =>
    cases h with
    | char hc =>
      have hspecial := hc.not_special
      rintro _ ⟨⟩
      refine ⟨?_, ?_, ?_⟩ <;> rintro rfl <;> cases d <;> exact hspecial (by decide)
    | _ =>
      rintro _ ⟨⟩
      decide

theorem Item.head {item : Pattern} (h : Item d n cs item m rest) : Unrepeated cs := by
  cases h with
  | anchor h =>
    cases h <;> rintro _ ⟨⟩ <;> decide
  | empty _ =>
    rintro _ ⟨⟩
    decide
  | once h => exact h.head
  | repeated h _ _ _ => exact h.head

theorem Sequence.head {items : List Pattern} (h : Sequence d n cs items m rest)
    (hrest : Unrepeated rest) : Unrepeated cs := by
  cases h with
  | nil htrivia => exact htrivia.head hrest
  | cons htrivia h _ => exact htrivia.head h.head

theorem Choice.head {tree : Pattern} (h : Choice d n cs tree m rest) (hrest : Unrepeated rest) :
    Unrepeated cs := by
  cases h with
  | last h _ => exact h.head hrest
  | bar h _ _ => exact h.head (by rintro _ ⟨⟩; decide)

/-- Something that can be repeated is read into any draft: it becomes the last item. -/
def Repeatable.Read (d : Dialect) (n : Nat) (cs : List Char) (unit : Pattern) (m : Nat)
    (rest : List Char) : Prop :=
  ∀ (f : Bool) (draft : Draft), draft.supply.nextCapture = n →
    ∃ p id, p.unnumbered = unit ∧
      draft.Reads d f cs true ⟨⟨id, m⟩, draft.level.add p, draft.outer⟩ rest

/-- An item is read into any draft: it becomes the last item. -/
def Item.Read (d : Dialect) (n : Nat) (cs : List Char) (item : Pattern) (m : Nat)
    (rest : List Char) : Prop :=
  ∀ (f : Bool) (draft : Draft), draft.supply.nextCapture = n → Unrepeated rest →
    ∃ f' p id, p.unnumbered = item ∧
      draft.Reads d f cs f' ⟨⟨id, m⟩, draft.level.add p, draft.outer⟩ rest

/-- A sequence is read into any draft: its items become the last ones. -/
def Sequence.Read (d : Dialect) (n : Nat) (cs : List Char) (items : List Pattern) (m : Nat)
    (rest : List Char) : Prop :=
  ∀ (f : Bool) (draft : Draft), draft.supply.nextCapture = n → Unrepeated rest →
    ∃ (f' : Bool) (ps : List Pattern) (id : Nat), ps.map Pattern.unnumbered = items ∧
      draft.Reads d f cs f'
        ⟨⟨id, m⟩, ⟨draft.level.branches, ps.reverse ++ draft.level.items⟩, draft.outer⟩ rest

/-- A choice is read into a draft that begins a branch: it becomes the last branches. -/
def Choice.Read (d : Dialect) (n : Nat) (cs : List Char) (tree : Pattern) (m : Nat)
    (rest : List Char) : Prop :=
  ∀ (f : Bool) (draft : Draft), draft.supply.nextCapture = n → draft.level.items = [] →
    Unrepeated rest →
      ∃ f' level id,
        (level.body joinLiterals id).1.unnumbered = Level.around draft.level.branches tree ∧
        draft.Reads d f cs f' ⟨⟨id, m⟩, level, draft.outer⟩ rest

/-- An atom is read: it becomes the last item. -/
theorem reads_atom (atom : Atom) (h : Spelled d (.atom atom) cs rest) (f : Bool) (draft : Draft) :
    draft.Reads d f cs true
      ⟨⟨draft.supply.nextId + 1, draft.supply.nextCapture⟩,
        draft.level.add (atom.toPattern (UInt32.ofNat draft.supply.nextId)), draft.outer⟩ rest :=
  Draft.Reads.token h nofun (by rintro (⟨_, h⟩ | h) <;> cases h) fun _ _ => rfl

theorem unrepeated_cons {c : Char} (hc : c ≠ '*' ∧ c ≠ '+' ∧ c ≠ '?') (cs : List Char) :
    Unrepeated (c :: cs) := by
  rintro _ ⟨⟩
  exact hc

/-- A bar is read: it ends the branch. -/
theorem reads_bar (f : Bool) (draft : Draft) :
    draft.Reads d f ('|' :: rest) false
      ⟨⟨(draft.level.branch joinLiterals draft.supply.nextId).2, draft.supply.nextCapture⟩,
        ⟨(draft.level.branch joinLiterals draft.supply.nextId).1 :: draft.level.branches, []⟩,
        draft.outer⟩ rest :=
  Draft.Reads.token (t := .bar) rfl nofun (by rintro (⟨_, h⟩ | h) <;> cases h) fun _ _ => rfl

/-- A repetition is read: it is applied to the last item. -/
theorem reads_repetition {q : Quantifier} {p p' : Pattern} (hq : Repetition d q cs rest)
    (hp : p.withQuantifier? q = some p') (hrest : Unrepeated rest) (supply : Supply)
    (level : Level) (outer : List (Opening × Level)) :
    Draft.Reads d true ⟨supply, level.add p, outer⟩ cs false ⟨supply, level.add p', outer⟩
      rest := by
  apply Draft.Reads.token (t := .quantifier q) hq (fun _ _ => rfl) (fun _ => hrest)
  intro _ _
  simp [Draft.feed, Level.add, hp]

/-- The end of a group is read: the group becomes the last item. -/
theorem reads_close {opening : Opening} (hclose : Spelled d (.closeGroup opening.bracket) cs rest)
    (f : Bool) (supply : Supply) (inner level : Level) (outer : List (Opening × Level)) :
    Draft.Reads d f ⟨supply, inner, (opening, level) :: outer⟩ cs true
      ⟨⟨(inner.body joinLiterals supply.nextId).2 + 1, supply.nextCapture⟩,
        level.add (.group (UInt32.ofNat (inner.body joinLiterals supply.nextId).2)
          (inner.body joinLiterals supply.nextId).1 opening.capture .once), outer⟩ rest := by
  refine Draft.Reads.token hclose (by rintro _ ⟨⟩) ?_ fun _ _ => ?_
  · rintro (⟨_, h⟩ | h) <;> cases h
  · simp [Draft.feed]

/-- A group is read if its body is: it becomes the last item. -/
theorem reads_group (capturing : Bool) (bracket : Bracket) {capture : Option UInt32}
    {body : Pattern} {draft : Draft} (f : Bool)
    (hopen : Spelled d (.openGroup capturing bracket) cs cs') (hcs : Unrepeated cs')
    (hfeed : ∀ start stop, draft.feed joinLiterals ⟨.openGroup capturing bracket, start, stop⟩ =
      .ok ⟨⟨draft.supply.nextId, k⟩, .new, (⟨capture, bracket⟩, draft.level) :: draft.outer⟩)
    (hbody : Choice.Read d k cs' body m mid) (hmid : Unrepeated mid)
    (hclose : Spelled d (.closeGroup bracket) mid rest) :
    ∃ p id, p.unnumbered = .group 0 body capture .once ∧
      draft.Reads d f cs true ⟨⟨id, m⟩, draft.level.add p, draft.outer⟩ rest := by
  have hstart := Draft.Reads.token (f := f) hopen nofun (fun _ => hcs) hfeed
  obtain ⟨f', level, id, htree, hreads⟩ := hbody false
    ⟨⟨draft.supply.nextId, k⟩, .new, (⟨capture, bracket⟩, draft.level) :: draft.outer⟩ rfl rfl hmid
  refine ⟨.group (UInt32.ofNat (level.body joinLiterals id).2) (level.body joinLiterals id).1
    capture .once, (level.body joinLiterals id).2 + 1, ?_, ?_⟩
  · rw [Pattern.unnumbered, htree]
    rfl
  · exact (hstart.trans hreads).trans (reads_close hclose f' ⟨id, m⟩ level draft.level draft.outer)

theorem Repeatable.Read.wildcard :
    Repeatable.Read d n ('.' :: rest) (.wildcard 0 .once) n rest := by
  rintro f draft rfl
  exact ⟨_, _, rfl, reads_atom .wildcard rfl f draft⟩

theorem Repeatable.Read.literal {bytes : List UInt8} (h : Literal d bytes cs rest) :
    Repeatable.Read d n cs (.literal 0 bytes .once) n rest := by
  rintro f draft rfl
  exact ⟨_, _, rfl, reads_atom (.literal bytes) h f draft⟩

theorem Repeatable.Read.capturing {body : Pattern} (h : Choice d (n + 1) cs body m (')' :: rest))
    (ih : Choice.Read d (n + 1) cs body m (')' :: rest)) :
    Repeatable.Read d n ('(' :: cs) (.group 0 body (some (UInt32.ofNat n)) .once) m rest := by
  rintro f draft rfl
  have hclose : Unrepeated (')' :: rest) := unrepeated_cons (by decide) rest
  exact reads_group true .round f rfl (h.head hclose) (fun _ _ => rfl) ih hclose rfl

theorem Repeatable.Read.grouping {body : Pattern} (hd : d = .perl5)
    (h : Choice d n cs body m (')' :: rest)) (ih : Choice.Read d n cs body m (')' :: rest)) :
    Repeatable.Read d n ('(' :: '?' :: ':' :: cs) (.group 0 body none .once) m rest := by
  rintro f draft rfl
  have hclose : Unrepeated (')' :: rest) := unrepeated_cons (by decide) rest
  exact reads_group false .round f ⟨hd, rfl⟩ (h.head hclose) (fun _ _ => rfl) ih hclose rfl

theorem Repeatable.Read.bracketed {body : Pattern} (hd : d = .perl6)
    (h : Choice d n cs body m (']' :: rest)) (ih : Choice.Read d n cs body m (']' :: rest)) :
    Repeatable.Read d n ('[' :: cs) (.group 0 body none .once) m rest := by
  rintro f draft rfl
  have hclose : Unrepeated (']' :: rest) := unrepeated_cons (by decide) rest
  exact reads_group false .square f ⟨hd, rfl⟩ (h.head hclose) (fun _ _ => rfl) ih hclose
    ⟨hd, rfl⟩

theorem Item.Read.anchor {kind : Anchor} (h : Position d kind cs rest) :
    Item.Read d n cs (.anchor 0 kind) n rest := by
  rintro f draft rfl _
  exact ⟨_, _, _, rfl, reads_atom (.anchor kind) h f draft⟩

theorem Item.Read.empty (hd : d = .perl6) :
    Item.Read d n ('\'' :: '\'' :: rest) (.empty 0) n rest := by
  rintro f draft rfl _
  exact ⟨_, _, _, rfl, reads_atom .empty ⟨hd, rfl⟩ f draft⟩

theorem Item.Read.once {unit : Pattern} (ih : Repeatable.Read d n cs unit m rest) :
    Item.Read d n cs unit m rest := by
  rintro f draft rfl _
  obtain ⟨p, id, hp, hreads⟩ := ih f draft rfl
  exact ⟨_, p, id, hp, hreads⟩

theorem Item.Read.repeated {unit item : Pattern} {q : Quantifier}
    (ih : Repeatable.Read d n cs unit m mid) (htrivia : Trivia d mid mid')
    (hq : Repetition d q mid' rest) (hitem : unit.withQuantifier? q = some item) :
    Item.Read d n cs item m rest := by
  rintro f draft rfl hrest
  obtain ⟨p, id, rfl, hreads⟩ := ih f draft rfl
  rw [Pattern.withQuantifier?_unnumbered] at hitem
  obtain ⟨p', hp', rfl⟩ := Option.map_eq_some_iff.mp hitem
  exact ⟨false, p', id, rfl, (hreads.trans (.trivia htrivia _ _)).trans
    (reads_repetition hq hp' hrest _ _ _)⟩

theorem Sequence.Read.nil (h : Trivia d cs rest) : Sequence.Read d n cs [] n rest := by
  rintro f draft rfl _
  exact ⟨f, [], draft.supply.nextId, rfl, .trivia h f draft⟩

theorem Sequence.Read.cons {item : Pattern} {items : List Pattern} (htrivia : Trivia d cs cs')
    (h : Sequence d m mid items k rest) (ihItem : Item.Read d n cs' item m mid)
    (ih : Sequence.Read d m mid items k rest) :
    Sequence.Read d n cs (item :: items) k rest := by
  rintro f draft rfl hrest
  obtain ⟨f₁, p, id₁, rfl, hitem⟩ := ihItem f draft rfl (h.head hrest)
  obtain ⟨f₂, ps, id₂, rfl, hitems⟩ := ih f₁ ⟨⟨id₁, m⟩, draft.level.add p, draft.outer⟩ rfl hrest
  refine ⟨f₂, p :: ps, id₂, rfl, ?_⟩
  have hreads := (Draft.Reads.trivia htrivia f draft).trans (hitem.trans hitems)
  simpa [Level.add] using hreads

/-- The sequence that has been read into an empty branch becomes the branch. -/
theorem unnumbered_branch {ps items merged : List Pattern} (hps : ps.map Pattern.unnumbered = items)
    (hmerges : Merges items merged) (branches : List Pattern) (id : Nat) :
    ((⟨branches, ps.reverse ++ []⟩ : Level).branch joinLiterals id).1.unnumbered =
      rightNested merged := by
  rw [hmerges.eq, ← hps, Level.branch, unnumbered_sequence, unnumbered_joinLiterals,
    List.append_nil, List.reverse_reverse]

theorem Choice.Read.last {items merged : List Pattern} (ih : Sequence.Read d n cs items m rest)
    (hmerges : Merges items merged) : Choice.Read d n cs (rightNested merged) m rest := by
  rintro f draft rfl hitems hrest
  obtain ⟨f', ps, id, hps, hreads⟩ := ih f draft rfl hrest
  rw [hitems] at hreads
  refine ⟨f', _, id, ?_, hreads⟩
  rw [Level.unnumbered_body, unnumbered_branch hps hmerges]

theorem Choice.Read.bar {items merged : List Pattern} {tree : Pattern}
    (ih : Sequence.Read d n cs items m ('|' :: mid)) (hmerges : Merges items merged)
    (ihChoice : Choice.Read d m mid tree k rest) :
    Choice.Read d n cs (.alternation 0 (rightNested merged) tree) k rest := by
  rintro f draft rfl hitems hrest
  obtain ⟨f', ps, id, hps, hreads⟩ := ih f draft rfl (unrepeated_cons (by decide) mid)
  rw [hitems] at hreads
  have hbranch := hreads.trans (reads_bar f' _)
  generalize hnext : Level.branch joinLiterals _ _ = branch at hbranch
  obtain ⟨f'', level, id', htree, hrest⟩ := ihChoice false
    ⟨⟨branch.2, m⟩, ⟨branch.1 :: draft.level.branches, []⟩, draft.outer⟩ rfl rfl hrest
  refine ⟨f'', level, id', ?_, hbranch.trans hrest⟩
  rw [htree, Level.around, List.foldl_cons, ← hnext, unnumbered_branch hps hmerges]
  rfl

/-- **What the grammar derives is read.** -/
theorem Choice.read {tree : Pattern} (h : Choice d n cs tree m rest) :
    Choice.Read d n cs tree m rest :=
  @Choice.rec d (fun n cs tree m rest _ => Choice.Read d n cs tree m rest)
    (fun n cs items m rest _ => Sequence.Read d n cs items m rest)
    (fun n cs item m rest _ => Item.Read d n cs item m rest)
    (fun n cs unit m rest _ => Repeatable.Read d n cs unit m rest)
    (fun _ hmerges ih => .last ih hmerges)
    (fun _ hmerges _ ih ihChoice => .bar ih hmerges ihChoice)
    (fun htrivia => .nil htrivia)
    (fun htrivia _ h ihItem ih => .cons htrivia h ihItem ih)
    (fun h => .anchor h)
    (fun hd => .empty hd)
    (fun _ ih => .once ih)
    (fun _ htrivia hq hitem ih => .repeated ih htrivia hq hitem)
    .wildcard
    (fun h => .literal h)
    (fun h ih => .capturing h ih)
    (fun hd h ih => .grouping hd h ih)
    (fun hd h ih => .bracketed hd h ih)
    n cs tree m rest h

end

end Grammar

end PatternMachine
