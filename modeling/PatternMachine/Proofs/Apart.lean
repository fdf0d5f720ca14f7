import PatternMachine.Proofs.Joining
import PatternMachine.Proofs.Readings
import PatternMachine.Proofs.Refinement

/-!
# Reading without joining

A reader joins neighbouring literals that are matched once.  A reader that leaves them apart reads
the same texts, and the trees that it returns have the same matches.

* `Pattern.items`, `Pattern.Neat` — the parts of a sequence; in no sequence of a tree two neighbours
  are literals that are matched once.
* `Pattern.TidiesTo` — the second tree is the first one with its literals joined.
* `parseApart` — the tree of a text whose literals are left apart.

Principal results: `Pattern.TidiesTo.sequence` — joining the literals of a sequence tidies it.
`Draft.TidiesTo.feed` — both readers take the same tokens.  `joining_keeps_matches` — so joining
loses no match and adds none.
-/

set_option autoImplicit false

namespace PatternMachine

/-! ## Sequences -/

namespace Pattern

/-- Whether a tree is one pattern behind another. -/
def isSequence : Pattern → Bool
  | .concat _ _ _ => true
  | _ => false

/-- The parts of a sequence, however they are nested. -/
def items : Pattern → List Pattern
  | .concat _ first second => first.items ++ second.items
  | p => [p]

/-- In no sequence of a tree two neighbours are literals that are matched once. -/
def Neat (tree : Pattern) : Prop := ∀ n ∈ tree.nodes, Joined n.items

theorem items_of_not_isSequence {p : Pattern} (h : p.isSequence = false) : p.items = [p] := by
  cases p with
  | concat id first second => cases h
  | _ => rfl

theorem Neat.of_nodes {p : Pattern} (h : p.nodes = [p]) (hp : p.isSequence = false) : p.Neat := by
  intro n hn
  rw [h, List.mem_singleton] at hn
  rw [hn, items_of_not_isSequence hp]
  trivial

theorem Neat.literal (id : NodeId) (bytes : List UInt8) (q : Quantifier) :
    (Pattern.literal id bytes q).Neat := .of_nodes rfl rfl

theorem Neat.group {body : Pattern} (h : body.Neat) (id : NodeId) (capture : Option UInt32)
    (q : Quantifier) : (Pattern.group id body capture q).Neat := by
  intro n hn
  rcases List.mem_cons.mp hn with rfl | hn
  · trivial
  · exact h n hn

theorem Neat.alternation {first second : Pattern} (hfirst : first.Neat) (hsecond : second.Neat)
    (id : NodeId) : (Pattern.alternation id first second).Neat := by
  intro n hn
  rw [isJoint_alternation.nodes, List.mem_cons, List.mem_append] at hn
  rcases hn with rfl | hn | hn
  · trivial
  · exact hfirst n hn
  · exact hsecond n hn

theorem Neat.concat {first second : Pattern} (hfirst : first.Neat) (hsecond : second.Neat)
    {id : NodeId} (hjoined : Joined (first.items ++ second.items)) :
    (Pattern.concat id first second).Neat := by
  intro n hn
  rw [isJoint_concat.nodes, List.mem_cons, List.mem_append] at hn
  rcases hn with rfl | hn | hn
  · exact hjoined
  · exact hfirst n hn
  · exact hsecond n hn

theorem Neat.withQuantifier? {q : Quantifier} {p p' : Pattern} (h : p.Neat)
    (hp : p.withQuantifier? q = some p') : p'.Neat := by
  cases p with
  | wildcard id r =>
    cases hp
    exact .of_nodes rfl rfl
  | literal id bytes r =>
    cases hp
    exact .literal _ _ _
  | group id body capture r =>
    cases hp
    exact .group (fun n hn => h n (List.mem_cons_of_mem _ hn)) _ _ _
  | _ => cases hp

end Pattern

/-- A sequence is its first item and the sequence of the others, which takes its numbers first. -/
theorem sequence_cons_cons (p q : Pattern) (ps : List Pattern) (next : Nat) :
    sequence (p :: q :: ps) next =
      (.concat (UInt32.ofNat (sequence (q :: ps) next).2) p (sequence (q :: ps) next).1,
        (sequence (q :: ps) next).2 + 1) := by
  unfold sequence
  obtain ⟨last, earlier, hreverse⟩ : ∃ last earlier, (q :: ps).reverse = last :: earlier :=
    List.exists_cons_of_ne_nil (by simp)
  rw [List.reverse_cons (a := p), hreverse]
  simp only [List.cons_append, nest, List.foldl_append, List.foldl_cons, List.foldl_nil]

/-- A sequence of joined items is neat. -/
theorem neat_sequence {items : List Pattern} (hneat : ∀ p ∈ items, p.Neat)
    (hunits : ∀ p ∈ items, p.isSequence = false) (hjoined : Joined items) (next : Nat) :
    (sequence items next).1.Neat ∧ (items ≠ [] → (sequence items next).1.items = items) := by
  induction items with
  | nil => exact ⟨.of_nodes rfl rfl, fun h => absurd rfl h⟩
  | cons p ps ih =>
    have hp := Pattern.items_of_not_isSequence (hunits p List.mem_cons_self)
    cases ps with
    | nil => exact ⟨hneat p List.mem_cons_self, fun _ => hp⟩
    | cons q ps =>
      obtain ⟨hrest, hitems⟩ := ih (fun r hr => hneat r (List.mem_cons_of_mem _ hr))
        (fun r hr => hunits r (List.mem_cons_of_mem _ hr)) hjoined.tail
      have hall : p.items ++ (sequence (q :: ps) next).1.items = p :: q :: ps := by
        rw [hp, hitems (List.cons_ne_nil _ _)]
        rfl
      rw [sequence_cons_cons]
      exact ⟨(hneat p List.mem_cons_self).concat hrest (hall ▸ hjoined), fun _ => hall⟩

/-! ## Tidying -/

namespace Pattern

/-- The second tree is the first one with its literals joined, and none are left to be joined. -/
structure TidiesTo (tree tree' : Pattern) : Prop where
  joins : tree.JoinsTo tree'
  neat : tree'.Neat

/-- An item of a sequence is tidied: it is no sequence itself. -/
structure TidiesItem (p p' : Pattern) : Prop extends p.TidiesTo p' where
  unit : p.isSequence = false

theorem JoinsTo.isSequence_eq {p p' : Pattern} (h : p.JoinsTo p') (hp : p.isSequence = false) :
    p'.isSequence = false := by
  cases h with
  | concat | whole | front => cases hp
  | _ => rfl

/-- Both trees can carry a quantifier, or neither can. -/
theorem TidiesItem.withQuantifier? {p p' r' : Pattern} (h : p.TidiesItem p') (q : Quantifier)
    (hr : p'.withQuantifier? q = some r') :
    ∃ r, p.withQuantifier? q = some r ∧ r.TidiesItem r' := by
  obtain ⟨⟨hjoins, hneat⟩, hunit⟩ := h
  have hneat' := hneat.withQuantifier? hr
  cases hjoins with
  | wildcard id id' q' =>
    cases hr
    exact ⟨_, rfl, ⟨.wildcard _ _ _, hneat'⟩, rfl⟩
  | literal id id' bytes q' =>
    cases hr
    exact ⟨_, rfl, ⟨.literal _ _ _ _, hneat'⟩, rfl⟩
  | group id id' capture q' hbody =>
    cases hr
    exact ⟨_, rfl, ⟨.group _ _ _ _ hbody, hneat'⟩, rfl⟩
  | concat | whole | front => cases hunit
  | _ => cases hr

theorem TidiesItem.atom (atom : Atom) (id id' : NodeId) :
    (atom.toPattern id).TidiesItem (atom.toPattern id') := by
  cases atom with
  | empty => exact ⟨⟨.empty _ _, .of_nodes rfl rfl⟩, rfl⟩
  | wildcard => exact ⟨⟨.wildcard _ _ _, .of_nodes rfl rfl⟩, rfl⟩
  | literal bytes => exact ⟨⟨.literal _ _ _ _, .literal _ _ _⟩, rfl⟩
  | anchor kind => exact ⟨⟨.anchor _ _ _, .of_nodes rfl rfl⟩, rfl⟩

end Pattern

/-- Joining leaves at least one item of a sequence. -/
theorem joinItem_ne_nil (p : Pattern) (ps : List Pattern) : joinItem p ps ≠ [] := by
  rcases joinItem_cases p ps with hjoin | ⟨_, _, _, _, _, _, _, -, -, -, -, hjoin⟩ <;> simp [hjoin]

/-- What holds of all items, and of all literals, holds of all joined items. -/
theorem joinLiterals_forall {P : Pattern → Prop}
    (hliteral : ∀ id bytes q, P (.literal id bytes q)) {ps : List Pattern} (h : ∀ p ∈ ps, P p) :
    ∀ p ∈ joinLiterals ps, P p := by
  induction ps with
  | nil => exact h
  | cons p ps ih =>
    have hrest := ih fun r hr => h r (List.mem_cons_of_mem _ hr)
    change ∀ r ∈ joinItem p (joinLiterals ps), P r
    rcases joinItem_cases p (joinLiterals ps) with
      hjoin | ⟨id, bytes, q, id', more, q', rest, -, -, -, hps, hjoin⟩
    · rw [hjoin]
      exact List.forall_mem_cons.mpr ⟨h p List.mem_cons_self, hrest⟩
    · rw [hjoin]
      rw [hps] at hrest
      exact List.forall_mem_cons.mpr
        ⟨hliteral _ _ _, fun r hr => hrest r (List.mem_cons_of_mem _ hr)⟩

/-- The sequence of the items whose literals are joined. -/
theorem joinsTo_sequence {items items' : List Pattern}
    (h : List.Forall₂ Pattern.TidiesItem items items') (next next' : Nat) :
    (sequence items next).1.JoinsTo (sequence (joinLiterals items') next').1 := by
  induction h with
  | nil => exact .empty _ _
  | @cons p p' ps ps' hp hps ih =>
    change (sequence (p :: ps) next).1.JoinsTo (sequence (joinItem p' (joinLiterals ps')) next').1
    cases hps with
    | nil =>
      rw [show joinLiterals [] = [] from rfl, joinItem_of_head_none (by simp)]
      exact hp.joins
    | @cons q q' qs qs' =>
      obtain ⟨r, rs, hjoined⟩ := List.exists_cons_of_ne_nil (joinItem_ne_nil q' (joinLiterals qs'))
      rw [sequence_cons_cons]
      rw [show joinLiterals (q' :: qs') = r :: rs from hjoined] at ih ⊢
      rcases joinItem_cases p' (r :: rs) with
        hjoin | ⟨id, bytes, Q, id', more, R, rest, hQ, hR, rfl, hps, hjoin⟩
      · rw [hjoin, sequence_cons_cons]
        exact .concat _ _ hp.joins ih
      · obtain ⟨rfl, rfl⟩ := List.cons.inj hps
        rw [hjoin]
        obtain ⟨⟨hp, -⟩, hunit⟩ := hp
        cases hp with
        | whole => cases hunit
        | literal idBytes =>
          cases rs with
          | nil => exact .whole hQ hR _ _ _ _ ih
          | cons s rs =>
            rw [sequence_cons_cons] at ih ⊢
            exact .front hQ hR _ _ _ _ _ _ ih

/-- **Joining the literals of a sequence tidies it.** -/
theorem Pattern.TidiesTo.sequence {items items' : List Pattern}
    (h : List.Forall₂ Pattern.TidiesItem items items') (next next' : Nat) :
    (sequence items next).1.TidiesTo (sequence (joinLiterals items') next').1 := by
  have hitems : ∀ p' ∈ items', p'.Neat ∧ p'.isSequence = false := by
    induction h with
    | nil => nofun
    | cons hp _ ih =>
      exact List.forall_mem_cons.mpr ⟨⟨hp.neat, hp.joins.isSequence_eq hp.unit⟩, ih⟩
  have hjoined := joinLiterals_forall (P := fun p => p.Neat ∧ p.isSequence = false)
    (fun id bytes q => ⟨.literal id bytes q, rfl⟩) hitems
  exact ⟨joinsTo_sequence h next next', (neat_sequence (fun p hp => (hjoined p hp).1)
    (fun p hp => (hjoined p hp).2) (joinLiterals_joined items') next').1⟩

/-- Branches that are tidied make a choice that is tidied. -/
theorem Pattern.TidiesTo.nest {earlier earlier' : List Pattern} {last last' : Pattern}
    (hearlier : List.Forall₂ Pattern.TidiesTo earlier earlier') (hlast : last.TidiesTo last')
    (next next' : Nat) :
    (nest .alternation earlier last next).1.TidiesTo
      (nest .alternation earlier' last' next').1 := by
  induction hearlier generalizing last last' next next' with
  | nil => exact hlast
  | cons hp _ ih =>
    exact ih ⟨.alternation _ _ hp.joins hlast.joins, .alternation hp.neat hlast.neat _⟩ _ _

/-! ## Drafts -/

/-- What is tidied of an open group: its branches and the items of the current one. -/
structure Level.TidiesTo (level level' : Level) : Prop where
  branches : List.Forall₂ Pattern.TidiesTo level.branches level'.branches
  items : List.Forall₂ Pattern.TidiesItem level.items level'.items

namespace Level.TidiesTo

variable {level level' : Level}

theorem new : Level.new.TidiesTo .new := ⟨.nil, .nil⟩

theorem add (h : level.TidiesTo level') {p p' : Pattern} (hp : p.TidiesItem p') :
    (level.add p).TidiesTo (level'.add p') :=
  ⟨h.branches, .cons hp h.items⟩

theorem branch (h : level.TidiesTo level') (next next' : Nat) :
    (level.branch id next).1.TidiesTo (level'.branch joinLiterals next').1 :=
  .sequence (List.rel_reverse h.items) next next'

theorem body (h : level.TidiesTo level') (next next' : Nat) :
    (level.body id next).1.TidiesTo (level'.body joinLiterals next').1 :=
  .nest h.branches (h.branch next next') _ _

end Level.TidiesTo

/-- The second draft is the first one tidied. They hand out the same capture indexes, and have the
same groups open. -/
structure Draft.TidiesTo (draft draft' : Draft) : Prop where
  nextCapture : draft'.supply.nextCapture = draft.supply.nextCapture
  level : draft.level.TidiesTo draft'.level
  outer : List.Forall₂ (fun o o' => o'.1 = o.1 ∧ o.2.TidiesTo o'.2) draft.outer draft'.outer

namespace Draft.TidiesTo

variable {draft draft' next' : Draft}

/-- **Both readers take the same tokens.** -/
theorem feed (h : draft.TidiesTo draft') {l : Lexeme}
    (hfeed : draft'.feed joinLiterals l = .ok next') :
    ∃ next, draft.feed id l = .ok next ∧ next.TidiesTo next' := by
  obtain ⟨supply, level, outer⟩ := draft
  obtain ⟨supply', level', outer'⟩ := draft'
  obtain ⟨hcapture, hlevel, houter⟩ := h
  dsimp only at hcapture hlevel houter
  obtain ⟨t, start, stop⟩ := l
  cases t with
  | atom atom =>
    cases hfeed
    exact ⟨_, rfl, hcapture, hlevel.add (.atom atom _ _), houter⟩
  | quantifier q =>
    obtain ⟨branches, items⟩ := level
    obtain ⟨branches', items'⟩ := level'
    obtain ⟨hbranches, hitems⟩ := hlevel
    dsimp only at hitems
    cases hitems with
    | nil => cases hfeed
    | @cons _ _ items _ hp hitems =>
      simp only [Draft.feed] at hfeed
      split at hfeed
      · cases hfeed
      · rename_i p' hp'
        cases hfeed
        obtain ⟨p, hquantified, htidies⟩ := hp.withQuantifier? q hp'
        refine ⟨⟨supply, ⟨branches, p :: items⟩, outer⟩, ?_, hcapture,
          ⟨hbranches, .cons htidies hitems⟩, houter⟩
        simp only [Draft.feed, hquantified]
  | bar =>
    cases hfeed
    exact ⟨_, rfl, hcapture, ⟨.cons (hlevel.branch _ _) hlevel.branches, .nil⟩, houter⟩
  | openGroup capturing bracket =>
    cases capturing with
    | true =>
      cases hfeed
      refine ⟨_, rfl, congrArg (· + 1) hcapture, .new, .cons ⟨?_, hlevel⟩ houter⟩
      rw [hcapture]
    | false =>
      cases hfeed
      exact ⟨_, rfl, hcapture, .new, .cons ⟨rfl, hlevel⟩ houter⟩
  | closeGroup bracket =>
    cases houter with
    | nil => cases hfeed
    | @cons o o' outer outer' ho houter =>
      obtain ⟨opening, around⟩ := o
      obtain ⟨_, around'⟩ := o'
      obtain ⟨rfl, haround⟩ := ho
      simp only [Draft.feed] at hfeed ⊢
      split at hfeed
      · rename_i hbracket
        cases hfeed
        have hbody := hlevel.body supply.nextId supply'.nextId
        rw [if_pos hbracket]
        exact ⟨_, rfl, hcapture,
          haround.add ⟨⟨.group _ _ _ _ hbody.joins, .group hbody.neat _ _ _⟩, rfl⟩, houter⟩
      · cases hfeed

/-- Both readers come to the end of the same texts. -/
theorem assemble (h : draft.TidiesTo draft') {ending : Unread.Ending} {lexemes : List Lexeme}
    {result' : Pattern × Supply}
    (hassemble : draft'.assemble joinLiterals ending lexemes = .ok result') :
    ∃ result, draft.assemble id ending lexemes = .ok result ∧ result.1.TidiesTo result'.1 := by
  induction lexemes generalizing draft draft' with
  | nil =>
    obtain ⟨supply, level, outer⟩ := draft
    obtain ⟨supply', level', outer'⟩ := draft'
    obtain ⟨-, hlevel, houter⟩ := h
    dsimp only at hlevel houter
    cases ending with
    | stopped failure => cases hassemble
    | complete offset =>
      cases houter with
      | nil =>
        cases hassemble
        exact ⟨_, rfl, hlevel.body _ _⟩
      | cons => cases hassemble
  | cons l ls ih =>
    rw [Draft.assemble] at hassemble ⊢
    split at hassemble
    · rename_i next' hfeed
      obtain ⟨next, hfeed', hnext⟩ := h.feed hfeed
      rw [hfeed']
      exact ih hnext hassemble
    · cases hassemble

end Draft.TidiesTo

/-! ## Texts -/

/-- The tree of a text whose literals are left apart. -/
def parseApart (dialect : Dialect) (text : String) : Except SyntaxError Pattern :=
  ((Reader.new dialect text).readWith id).1

/-- What is parsed is parsed without joining, too, and joining tidies it. -/
theorem parseApart_of_parse {d : Dialect} {text : String} {tree : Pattern}
    (hparse : parse d text = .ok tree) :
    ∃ apart, parseApart d text = .ok apart ∧ apart.TidiesTo tree := by
  have hnew : (Draft.new (Reader.new d text).supply).TidiesTo (.new (Reader.new d text).supply) :=
    ⟨rfl, .new, .nil⟩
  simp only [parse, Reader.read, Reader.readWith] at hparse
  split at hparse
  · rename_i pattern supply hassemble
    cases hparse
    obtain ⟨⟨apart, _⟩, hassemble', htidies⟩ := hnew.assemble hassemble
    refine ⟨apart, ?_, htidies⟩
    simp only [parseApart, Reader.readWith, hassemble']
  · cases hparse

/-- A regular tree holds no end marker. -/
theorem Pattern.AllRegular.endFree {tree : Pattern} (h : tree.AllRegular) :
    tree.endFree = true := by
  induction tree with
  | endMarker id => exact (h _ (self_mem_nodes _)).elim
  | concat id first second ihFirst ihSecond | alternation id first second ihFirst ihSecond =>
    rw [Pattern.endFree, Bool.and_eq_true]
    exact ⟨ihFirst fun n hn => h n (by simp [nodes, hn]),
      ihSecond fun n hn => h n (by simp [nodes, hn])⟩
  | group id body capture q ih => exact ih fun n hn => h n (by simp [nodes, hn])
  | _ => rfl

/-- The nodes of a tree that is parsed are regular. -/
theorem allRegular_of_parse {d : Dialect} {text : String} {tree : Pattern}
    (hparse : parse d text = .ok tree) : tree.AllRegular := by
  have hnone : Issued (Reader.new d text).supply.nextId [] := List.nil_subperm
  obtain ⟨-, hregular, -⟩ := (Reader.placed_new d text).outcome hnone
  refine hregular tree ?_
  rw [show (Reader.new d text).read.1 = .ok tree from hparse]
  exact List.mem_singleton_self _

/-- If no number is used twice in a tree that is parsed, no capture index is. -/
theorem nodup_captures_of_parse {d : Dialect} {text : String} {tree : Pattern}
    (hparse : parse d text = .ok tree) (hids : tree.ids.Nodup) : tree.captures.Nodup := by
  obtain ⟨k, hcaptures⟩ := captures_of_parse hparse
  -- There are no more captures than nodes, and no more nodes than numbers.
  have hnodes := tree.length_captures_le
  have hnumbers : tree.ids.length ≤ 2 ^ 32 := by
    have hsub : tree.ids.map UInt32.toNat ⊆ List.range (2 ^ 32) := by
      intro n hn
      obtain ⟨id, -, rfl⟩ := List.mem_map.mp hn
      exact List.mem_range.mpr id.toNat_lt
    simpa using ((hids.map fun a b h => UInt32.toNat_inj.mp h).subperm hsub).length_le
  rw [hcaptures, List.length_map, List.length_range'] at hnodes
  rw [hcaptures]
  refine List.Nodup.map_on (fun a ha b hb heq => ?_) List.nodup_range'
  rw [List.mem_range'_1] at ha hb
  have hmod := congrArg UInt32.toNat heq
  simp only [UInt32.toNat_ofNat'] at hmod
  omega

/-- **Joining literals loses no match and adds none.**  In no sequence of a tree that is parsed two
neighbours are literals that are matched once.  The text has a tree in which every literal is left
apart, too, and searches with the programs of the two trees find the same matches, with the same
spans and captures, in the same order. -/
theorem joining_keeps_matches {d : Dialect} {text : String} {tree : Pattern}
    (hparse : parse d text = .ok tree) :
    tree.Neat ∧ ∃ apart, parseApart d text = .ok apart ∧
      ∀ (options options' : CompileOptions) (program program' : Program),
        compile tree options = .ok program → compile apart options' = .ok program' →
        ∀ subject : Subject, subject.size < 2 ^ 63 →
          ∃ ms, Cursor.new.Answers program subject ms ∧
            Cursor.new.Answers program' subject ms := by
  obtain ⟨apart, hparse', hjoins, hneat⟩ := parseApart_of_parse hparse
  refine ⟨hneat, apart, hparse', fun options options' program program' hcompile hcompile'
    subject hsize => ?_⟩
  have hend : tree.endFree = true := (allRegular_of_parse hparse).endFree
  have hend' : apart.endFree = true := hjoins.endFree_eq ▸ hend
  have hids := (wellFormed_of_compile hcompile).1.1
  have hids' := (wellFormed_of_compile hcompile').1.1
  have hcaptures := nodup_captures_of_parse hparse hids
  have hsame := hjoins.matchesIn_eq hids' hids (hjoins.captures_eq ▸ hcaptures) hend' subject
  obtain ⟨_, hstanding⟩ := standing_of_compile hcompile hend hsize
  obtain ⟨_, hstanding'⟩ := standing_of_compile hcompile' hend' hsize
  rw [hsame] at hstanding
  exact ⟨apart.matchesIn subject, hstanding.answers, hstanding'.answers⟩

/-- The tree of `a(bc)*d`. -/
def pairsBetween : Pattern :=
  .concat 7 (.literal 1 [97] .once)
    (.concat 6 (.group 4 (.literal 2 [98, 99] .once) (some 1) ⟨0, .unbounded, true⟩)
      (.literal 5 [100] .once))

/-- The tree of `a(bc)*d` whose literals are left apart. -/
def pairsBetweenApart : Pattern :=
  .concat 8 (.literal 1 [97] .once)
    (.concat 7
      (.group 5 (.concat 4 (.literal 2 [98] .once) (.literal 3 [99] .once)) (some 1)
        ⟨0, .unbounded, true⟩)
      (.literal 6 [100] .once))

/-- Two literals are joined inside a group that is repeated and captured. -/
theorem joining_keeps_matches_pairsBetween :
    parse .perl5 "a(bc)*d" = .ok pairsBetween ∧ pairsBetween.Neat ∧
      parseApart .perl5 "a(bc)*d" = .ok pairsBetweenApart ∧
      ∃ program program', compile pairsBetween {} = .ok program ∧
        compile pairsBetweenApart {} = .ok program' ∧
        ∃ ms, Cursor.new.Answers program #[97, 98, 99, 98, 99, 100] ms ∧
          Cursor.new.Answers program' #[97, 98, 99, 98, 99, 100] ms := by
  have hparse : parse .perl5 "a(bc)*d" = .ok pairsBetween := by decide +kernel
  have hparse' : parseApart .perl5 "a(bc)*d" = .ok pairsBetweenApart := by decide +kernel
  obtain ⟨hneat, apart, hapart, hsame⟩ := joining_keeps_matches hparse
  obtain rfl : apart = pairsBetweenApart := Except.ok.inj (hapart.symm.trans hparse')
  obtain ⟨program, hcompile⟩ : ∃ program, compile pairsBetween {} = .ok program :=
    compile_isOk_of_isSome ⟨by decide, by decide⟩ (by decide)
  obtain ⟨program', hcompile'⟩ : ∃ program', compile pairsBetweenApart {} = .ok program' :=
    compile_isOk_of_isSome ⟨by decide, by decide⟩ (by decide)
  exact ⟨hparse, hneat, hparse', program, program', hcompile, hcompile',
    hsame {} {} program program' hcompile hcompile' _ (by decide)⟩

end PatternMachine
