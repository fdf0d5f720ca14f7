import PatternMachine.Proofs.Numbering
import PatternMachine.Proofs.Stopping

/-!
# What drafts are made of

* `Token.Regular` — what a token that is read may look like.
* `Draft.parts`, `Draft.captures` — the trees that a draft holds, and its capture indexes in reading
  order.
* `Draft.Sound` — the invariant of reading.
* `Draft.cost` — a bound for the numbers that have been handed out when the draft is put together.

Principal results: `Draft.Sound.feed` — every token keeps the invariant.  `Draft.feed_cost` — and
costs at most two numbers.  `Draft.Sound.read` — what this means for the tree of a text, and for
the numbers that are left when there is none.
-/

set_option autoImplicit false

namespace PatternMachine

/-! ## Tokens -/

/-- A literal that is read has bytes, and no minimum that is read exceeds its maximum. -/
def Token.Regular : Token → Prop
  | .atom (.literal bytes) => bytes ≠ []
  | .quantifier q => q.isValid = true
  | _ => True

theorem Atom.toPattern_parts {atom : Atom} (h : (Token.atom atom).Regular) (id : NodeId) :
    (atom.toPattern id).ids = [id] ∧ (atom.toPattern id).captures = [] ∧
      (atom.toPattern id).AllRegular := by
  cases atom with
  | literal bytes =>
    exact ⟨rfl, rfl, fun n hn => List.mem_singleton.mp hn ▸ ⟨h, rfl⟩⟩
  | wildcard => exact ⟨rfl, rfl, fun n hn => List.mem_singleton.mp hn ▸ rfl⟩
  | _ => exact ⟨rfl, rfl, fun n hn => List.mem_singleton.mp hn ▸ trivial⟩

open Grammar in
theorem Grammar.Literal.ne_nil {d : Dialect} {bytes : List UInt8} {cs rest : List Char}
    (h : Literal d bytes cs rest) : bytes ≠ [] := by
  have hchar : ∀ c : Char, String.utf8EncodeChar c ≠ [] := by
    intro c hnil
    have hlength := String.length_utf8EncodeChar c
    have := c.utf8Size_pos
    rw [hnil, List.length_nil] at hlength
    omega
  cases h with
  | char | escaped => exact hchar _
  | quoted hne _ =>
    obtain ⟨c, text, rfl⟩ := List.exists_cons_of_ne_nil hne
    simp [hchar c]
  | _ => exact List.cons_ne_nil _ _

/-- What is spelled as the grammar says is regular. -/
theorem Spelled.regular {d : Dialect} {t : Token} {cs rest : List Char} (h : Spelled d t cs rest) :
    t.Regular := by
  cases t with
  | atom atom =>
    cases atom with
    | literal bytes => exact Grammar.Literal.ne_nil h
    | _ => trivial
  | quantifier q =>
    cases h with
    | greedy h => exact h.isValid
    | lazy h => exact h.isValid
  | _ => trivial

/-! ## Drafts -/

namespace Draft

/-- The trees that a draft holds, in reading order. -/
def parts (draft : Draft) : List Pattern :=
  (draft.outer.reverse.flatMap fun o => o.2.parts) ++ draft.level.parts

/-- The capture indexes of a draft, in reading order: the opening of a group comes before what is
inside. -/
def captures (draft : Draft) : List UInt32 :=
  (draft.outer.reverse.flatMap fun o =>
    o.2.parts.flatMap Pattern.captures ++ o.1.capture.toList) ++
  draft.level.parts.flatMap Pattern.captures

/-- The numbers of what a draft holds have been handed out, beside the numbers `taken`, its nodes
are regular, and its capture indexes go on from those `before`. -/
structure Sound (taken : List NodeId) (before : List UInt32) (draft : Draft) : Prop where
  issued : Issued draft.supply.nextId (taken ++ draft.parts.flatMap Pattern.ids)
  regular : ∀ p ∈ draft.parts, p.AllRegular
  captures : before ++ draft.captures = (List.range draft.supply.nextCapture).map UInt32.ofNat

variable {taken : List NodeId} {before : List UInt32} {draft draft' : Draft}

/-- What may be left of the supply when a draft cannot go on: what there was, or what there is when
the innermost open group has been put together. -/
def Left (draft : Draft) (supply : Supply) : Prop :=
  supply.nextId = draft.supply.nextId ∨
    supply.nextId = (draft.level.body joinLiterals draft.supply.nextId).2

theorem left_of_feed {l : Lexeme} {failure : Failure} {supply : Supply}
    (hfeed : draft.feed joinLiterals l = .error (failure, supply)) : draft.Left supply := by
  obtain ⟨t, a, b⟩ := l
  cases t with
  | atom atom => cases hfeed
  | bar => cases hfeed
  | openGroup capturing bracket => cases capturing <;> cases hfeed
  | quantifier q =>
    simp only [feed] at hfeed
    split at hfeed
    · cases hfeed
      exact .inl rfl
    · split at hfeed
      · cases hfeed
        exact .inl rfl
      · cases hfeed
  | closeGroup bracket =>
    simp only [feed] at hfeed
    split at hfeed
    · cases hfeed
      exact .inr rfl
    · split at hfeed
      · cases hfeed
      · cases hfeed
        exact .inr rfl

theorem left_of_finish {offset : Nat} {failure : Failure} {supply : Supply}
    (hfinish : draft.finish joinLiterals offset = .error (failure, supply)) :
    draft.Left supply := by
  simp only [finish] at hfinish
  split at hfinish
  · cases hfinish
  · cases hfinish
    exact .inr rfl

theorem sound_new {supply : Supply} (hissued : Issued supply.nextId taken)
    (hcaptures : before = (List.range supply.nextCapture).map UInt32.ofNat) :
    (Draft.new supply).Sound taken before where
  issued := by simpa [Draft.new, parts, Level.new, Level.parts] using hissued
  regular p hp := by simp [Draft.new, parts, Level.new, Level.parts] at hp
  captures := by
    simpa [Draft.new, Draft.captures, Level.new, Level.parts] using hcaptures

namespace Sound

/-- What the groups around the innermost one hold counts as taken for what is done within. -/
theorem issued_level (h : draft.Sound taken before) :
    Issued draft.supply.nextId
      ((taken ++ draft.outer.reverse.flatMap fun o => o.2.parts.flatMap Pattern.ids) ++
        draft.level.parts.flatMap Pattern.ids) := by
  have hissued := h.issued
  rwa [parts, List.flatMap_append, List.flatMap_assoc, ← List.append_assoc] at hissued

theorem regular_level (h : draft.Sound taken before) : ∀ p ∈ draft.level.parts, p.AllRegular :=
  fun p hp => h.regular p (List.mem_append_right _ hp)

theorem feed_atom {atom : Atom} (h : draft.Sound taken before)
    (hatom : (Token.atom atom).Regular) :
    Sound taken before ⟨⟨draft.supply.nextId + 1, draft.supply.nextCapture⟩,
      draft.level.add (atom.toPattern (UInt32.ofNat draft.supply.nextId)), draft.outer⟩ := by
  obtain ⟨hids, hcaptures, hregular⟩ :=
    Atom.toPattern_parts hatom (UInt32.ofNat draft.supply.nextId)
  refine ⟨?_, ?_, ?_⟩
  · refine h.issued.cons_next.of_subperm (List.Perm.subperm ?_)
    simp only [parts, Level.parts_add, List.flatMap_append, List.flatMap_singleton, hids,
      ← List.append_assoc]
    exact List.perm_append_singleton _ _
  · intro p hp
    simp only [parts, Level.parts_add, ← List.append_assoc] at hp
    rcases List.mem_append.mp hp with hp | hp
    · exact h.regular p hp
    · rw [List.mem_singleton.mp hp]
      exact hregular
  · simpa [Draft.captures, Level.parts_add, hcaptures] using h.captures

theorem feed_quantifier {q : Quantifier} {item item' : Pattern} {items : List Pattern}
    (h : draft.Sound taken before) (hq : q.isValid = true)
    (hitems : draft.level.items = item :: items) (hitem : item.withQuantifier? q = some item') :
    Sound taken before { draft with level := { draft.level with items := item' :: items } } := by
  obtain ⟨hids, hcaptures, hregular⟩ := Pattern.withQuantifier?_eq_some hitem
  obtain ⟨hissued, hall, hbefore⟩ := h
  refine ⟨?_, ?_, ?_⟩
  · simpa [parts, Level.parts, hitems, hids] using hissued
  · simp only [parts, Level.parts, hitems, List.reverse_cons, ← List.append_assoc] at hall ⊢
    intro p hp
    rcases List.mem_append.mp hp with hp | hp
    · exact hall p (List.mem_append_left _ hp)
    · rw [List.mem_singleton.mp hp]
      exact hregular hq (hall item (List.mem_append_right _ List.mem_cons_self))
  · simpa [Draft.captures, Level.parts, hitems, hcaptures] using hbefore

theorem feed_bar (h : draft.Sound taken before) :
    Sound taken before
      ⟨⟨(draft.level.branch joinLiterals draft.supply.nextId).2, draft.supply.nextCapture⟩,
        ⟨(draft.level.branch joinLiterals draft.supply.nextId).1 :: draft.level.branches, []⟩,
        draft.outer⟩ := by
  refine ⟨?_, ?_, ?_⟩
  · have hissued := h.issued
    simp only [parts, Level.parts, List.flatMap_append, ← List.append_assoc] at hissued
    have hbranch := Level.issued_branch hissued
    simpa [parts, Level.parts] using hbranch
  · intro p hp
    simp only [parts, Level.parts, List.reverse_cons, List.reverse_nil, List.append_nil,
      ← List.append_assoc] at hp
    rcases List.mem_append.mp hp with hp | hp
    · refine h.regular p ?_
      simp only [parts, Level.parts, ← List.append_assoc]
      exact List.mem_append_left _ hp
    · rw [List.mem_singleton.mp hp]
      exact Level.allRegular_branch h.regular_level _
  · simpa [Draft.captures, Level.parts, Level.captures_branch] using h.captures

theorem feed_open {opening : Opening} {nextCapture : Nat} (h : draft.Sound taken before)
    (hcapture : (List.range nextCapture).map UInt32.ofNat =
      (List.range draft.supply.nextCapture).map UInt32.ofNat ++ opening.capture.toList) :
    Sound taken before
      ⟨⟨draft.supply.nextId, nextCapture⟩, .new, (opening, draft.level) :: draft.outer⟩ := by
  have hparts : Draft.parts ⟨⟨draft.supply.nextId, nextCapture⟩, .new,
      (opening, draft.level) :: draft.outer⟩ = draft.parts := by
    simp [Draft.parts, Level.new, Level.parts]
  refine ⟨hparts ▸ h.issued, hparts ▸ h.regular, ?_⟩
  rw [hcapture, ← h.captures]
  simp [Draft.captures, Level.new, Level.parts]

theorem feed_close {opening : Opening} {level : Level} {outer : List (Opening × Level)}
    (h : draft.Sound taken before) (houter : draft.outer = (opening, level) :: outer) :
    Sound taken before
      ⟨⟨(draft.level.body joinLiterals draft.supply.nextId).2 + 1, draft.supply.nextCapture⟩,
        level.add (.group (UInt32.ofNat (draft.level.body joinLiterals draft.supply.nextId).2)
          (draft.level.body joinLiterals draft.supply.nextId).1 opening.capture .once),
        outer⟩ := by
  refine ⟨?_, ?_, ?_⟩
  · refine (Level.issued_body h.issued_level).cons_next.of_subperm (List.Perm.subperm ?_)
    rw [houter]
    refine List.perm_iff_count.mpr fun id => ?_
    simp only [parts, Level.parts_add, List.flatMap_append, List.flatMap_singleton,
      List.flatMap_assoc, Pattern.ids_group, List.reverse_cons, List.count_append,
      List.count_cons]
    omega
  · intro p hp
    have hall := h.regular
    simp only [parts, houter, Level.parts_add, List.reverse_cons, List.flatMap_append,
      List.flatMap_singleton, ← List.append_assoc] at hp hall
    rcases List.mem_append.mp hp with hp | hp
    · exact hall p (List.mem_append_left _ hp)
    · rw [List.mem_singleton.mp hp]
      intro n hn
      rcases List.mem_cons.mp hn with rfl | hn
      · rfl
      · exact Level.allRegular_body h.regular_level _ n hn
  · have hbefore := h.captures
    simp only [Draft.captures, houter, Level.parts_add, List.reverse_cons, List.flatMap_append,
      List.flatMap_singleton, Pattern.captures_group, Level.captures_body, List.append_assoc]
      at hbefore ⊢
    exact hbefore

/-- **Every token keeps the invariant.** -/
theorem feed {l : Lexeme} (h : draft.Sound taken before) (ht : l.token.Regular)
    (hfeed : draft.feed joinLiterals l = .ok draft') : draft'.Sound taken before := by
  obtain ⟨t, a, b⟩ := l
  cases t with
  | atom atom =>
    cases hfeed
    exact h.feed_atom ht
  | quantifier q =>
    simp only [Draft.feed] at hfeed
    split at hfeed
    · cases hfeed
    · rename_i item items hitems
      split at hfeed
      · cases hfeed
      · rename_i item' hitem
        cases hfeed
        exact h.feed_quantifier ht hitems hitem
  | bar =>
    cases hfeed
    exact h.feed_bar
  | openGroup capturing bracket =>
    cases capturing with
    | true =>
      cases hfeed
      exact h.feed_open (by rw [List.range_succ, List.map_append]; rfl)
    | false =>
      cases hfeed
      exact h.feed_open (by rw [Option.toList_none, List.append_nil])
  | closeGroup bracket =>
    simp only [Draft.feed] at hfeed
    split at hfeed
    · cases hfeed
    · rename_i opening level outer houter
      split at hfeed
      · cases hfeed
        exact h.feed_close houter
      · cases hfeed

/-- The innermost open group can be put together. -/
theorem issued_body (h : draft.Sound taken before) :
    Issued (draft.level.body joinLiterals draft.supply.nextId).2
      ((taken ++ draft.outer.reverse.flatMap fun o => o.2.parts.flatMap Pattern.ids) ++
        (draft.level.body joinLiterals draft.supply.nextId).1.ids) :=
  Level.issued_body h.issued_level

/-- What a draft holds is given up when it cannot go on. -/
theorem issued_left (h : draft.Sound taken before) {supply : Supply} (hleft : draft.Left supply) :
    Issued supply.nextId taken := by
  rcases hleft with hleft | hleft
  · rw [hleft]
    exact h.issued.of_subperm (List.sublist_append_left _ _).subperm
  · rw [hleft]
    refine h.issued_body.of_subperm (List.Sublist.subperm ?_)
    rw [List.append_assoc]
    exact List.sublist_append_left _ _

end Sound

/-! ## Counting -/

/-- A bound for the numbers that have been handed out when the draft is put together: beside those
that have been, every tree that the draft holds can take a joint, and every open group a tree of its
own and a joint for it. -/
def cost (draft : Draft) : Nat :=
  draft.supply.nextId + draft.parts.length + 2 * draft.outer.length

theorem cost_new (supply : Supply) : (Draft.new supply).cost = supply.nextId := by
  simp [Draft.new, cost, parts, Level.new, Level.parts]

theorem body_le_cost (draft : Draft) :
    (draft.level.body joinLiterals draft.supply.nextId).2 ≤ draft.cost + 1 := by
  have hle := draft.level.body_next_le draft.supply.nextId
  simp only [cost, parts, List.length_append]
  omega

/-- **A token costs at most two numbers.** -/
theorem feed_cost {l : Lexeme} (hfeed : draft.feed joinLiterals l = .ok draft') :
    draft'.cost ≤ draft.cost + 2 := by
  obtain ⟨t, a, b⟩ := l
  cases t with
  | atom atom =>
    cases hfeed
    simp only [cost, parts, Level.parts_add, List.length_append, List.length_cons, List.length_nil]
    omega
  | quantifier q =>
    simp only [feed] at hfeed
    split at hfeed
    · cases hfeed
    · rename_i item items hitems
      split at hfeed
      · cases hfeed
      · cases hfeed
        simp only [cost, parts, Level.parts, hitems, List.length_append, List.length_reverse,
          List.length_cons]
        omega
  | bar =>
    cases hfeed
    have hle := draft.level.branch_next_le draft.supply.nextId
    simp only [cost, parts, Level.parts, List.length_append, List.length_reverse,
      List.length_cons, List.length_nil]
    omega
  | openGroup capturing bracket =>
    cases capturing <;> cases hfeed <;>
      simp [cost, parts, Level.new, Level.parts] <;> omega
  | closeGroup bracket =>
    simp only [feed] at hfeed
    split at hfeed
    · cases hfeed
    · rename_i opening level outer houter
      split at hfeed
      · cases hfeed
        have hle := draft.level.body_next_le draft.supply.nextId
        simp only [cost, parts, houter, Level.parts_add, List.reverse_cons, List.flatMap_append,
          List.flatMap_singleton, List.length_append, List.length_cons, List.length_nil]
        omega
      · cases hfeed

/-- Whatever is left, at most one number more has been handed out. -/
theorem Left.next_le {supply : Supply} (h : draft.Left supply) :
    supply.nextId ≤ draft.cost + 1 := by
  rcases h with h | h
  · rw [h]
    unfold cost
    omega
  · rw [h]
    exact draft.body_le_cost

/-! ## Whole texts -/

/-- What is true of the outcome of reading a text from `start` on into a draft of a certain cost:
the numbers of the tree have been handed out, beside the numbers `taken`, its nodes are regular, its
captures go on from those `before`, and there is a bound for the numbers that have been handed out.
When there is no tree, the numbers that were taken are still so, with a bound for all. -/
def Outcome (taken : List NodeId) (before : List UInt32) (cost : Nat) (u : Unread) :
    Except (Failure × Supply) (Pattern × Supply) → Prop
  | .ok (p, supply) =>
    Issued supply.nextId (taken ++ p.ids) ∧ p.AllRegular ∧
      before ++ p.captures = (List.range supply.nextCapture).map UInt32.ofNat ∧
      supply.nextId + 2 * u.offset ≤ cost + 2 * u.finish.offset + 1
  | .error (failure, supply) =>
    Issued supply.nextId taken ∧ supply.nextId + 2 * u.offset ≤ cost + 2 * failure.offset + 1

namespace Sound

/-- At the end of the text the tree is put together. -/
theorem finish {u : Unread} {offset : Nat} (h : draft.Sound taken before)
    (hle : u.offset ≤ offset) (hfinish : offset ≤ u.finish.offset) :
    Outcome taken before draft.cost u (draft.finish joinLiterals offset) := by
  have hcost := draft.body_le_cost
  cases hresult : draft.finish joinLiterals offset with
  | error e =>
    obtain ⟨failure, supply⟩ := e
    have hleft := left_of_finish hresult
    have hnext := hleft.next_le
    rw [← Draft.finish_stops hresult] at hle
    exact ⟨h.issued_left hleft, by omega⟩
  | ok r =>
    simp only [Draft.finish] at hresult
    split at hresult
    · rename_i houter
      cases hresult
      have hissued := h.issued_body
      have hcaptures := h.captures
      simp only [Draft.captures, houter, List.reverse_nil, List.flatMap_nil, List.append_nil,
        List.nil_append] at hissued hcaptures
      refine ⟨hissued, Level.allRegular_body h.regular_level _, ?_, by dsimp only; omega⟩
      rw [Level.captures_body]
      exact hcaptures
    · cases hresult

/-- **What comes of reading a text.** -/
theorem read {d : Dialect} {f : Bool} {u : Unread} :
    draft.Sound taken before → Outcome taken before draft.cost u (draft.read d f u) := by
  refine read_induction (d := d)
    (motive := fun _ draft u r => draft.Sound taken before → Outcome taken before draft.cost u r)
    ?done ?failed ?refused ?fed f draft u
  case done =>
    intro f draft u _ h
    have htrivia := u.skipTrivia_follows d
    exact h.finish htrivia.offset_le htrivia.offset_le_finish
  case failed =>
    intro f draft u failure hscan h
    obtain ⟨v, hv, hoffset⟩ := (Unread.scan_stops hscan).follows _ rfl
    have hle := (hv.trans (u.skipTrivia_follows d)).offset_le
    have hleft : draft.Left draft.supply := .inl rfl
    have hnext := hleft.next_le
    exact ⟨h.issued_left hleft, by omega⟩
  case refused =>
    intro f draft u t w e hscan hfeed h
    obtain ⟨failure, supply⟩ := e
    have hle := (u.skipTrivia_follows d).offset_le
    have hle' := (follows_of_scan hscan).offset_le
    have hleft := left_of_feed hfeed
    have hnext := hleft.next_le
    refine ⟨h.issued_left hleft, ?_⟩
    rcases Draft.feed_stops hfeed with hoffset | hoffset <;> dsimp only at hoffset <;> omega
  case fed =>
    intro f draft u t w draft' hscan hfeed ih h
    obtain ⟨hspelled, -⟩ := Unread.scan_sound (Unread.head?_skipTrivia d u) hscan
    have hcost := feed_cost hfeed
    -- The token takes a byte, which pays for two numbers.
    have hbyte : u.offset < w.offset := by
      obtain ⟨hfollows, hne⟩ := Unread.scan_follows hscan
      have := (u.skipTrivia_follows d).offset_le
      have := Unread.next_offset hne
      have := hfollows.offset_le
      omega
    have hfinish : w.finish.offset ≤ u.finish.offset :=
      (w.finish_follows.trans (follows_of_scan hscan)).offset_le_finish
    have houtcome := ih (h.feed hspelled.regular hfeed)
    cases hread : draft'.read d t.endsUnit w with
    | error e =>
      rw [hread] at houtcome
      exact ⟨houtcome.1, by have := houtcome.2; omega⟩
    | ok r =>
      rw [hread] at houtcome
      exact ⟨houtcome.1, houtcome.2.1, houtcome.2.2.1, by have := houtcome.2.2.2; omega⟩

end Sound

end Draft

end PatternMachine
