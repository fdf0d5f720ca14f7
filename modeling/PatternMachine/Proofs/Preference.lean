import PatternMachine.Proofs.Shapes
import Mathlib.Data.List.Perm.Basic

/-!
# Preference only changes the order

Whether a repetition is greedy or lazy decides which count is tried first, not which counts are
tried.

* `Quantifier.preferring`, `Pattern.flipped` — the other order for a quantifier, and for any of the
  quantifiers of a tree.

Principal results: `rounds_perm` — rounds in another order find the same as often.  `ways_flipped`
— so the ways of a tree are permuted, through all groups.  `flipped_permutes_matches` — and so are
the answers of the two programs.
-/

set_option autoImplicit false

namespace PatternMachine

/-! ## Quantifiers -/

namespace Quantifier

/-- The same bounds, in the other order if `flip` says so. -/
def preferring (flip : Bool) (q : Quantifier) : Quantifier := { q with greedy := q.greedy ^^ flip }

/-- The two sides of a decision are the same in either order. -/
theorem inOrder_perm {α : Type} (q : Quantifier) (more stop : List α) :
    (q.inOrder more stop).Perm (more ++ stop) := by
  unfold inOrder
  split
  · exact .refl _
  · exact List.perm_append_comm

/-- Decisions with permuted sides are permuted, whatever their orders are. -/
theorem inOrder_perm_inOrder {α : Type} (q q' : Quantifier) {more more' stop stop' : List α}
    (hmore : more.Perm more') (hstop : stop.Perm stop') :
    (q.inOrder more stop).Perm (q'.inOrder more' stop') :=
  (q.inOrder_perm more stop).trans ((hmore.append hstop).trans (q'.inOrder_perm more' stop').symm)

/-- The counts that are tried do not depend on the order. -/
theorem counts_preferring (flip : Bool) (q : Quantifier) (size : Nat) (occurs : Nat → Bool) :
    ((q.preferring flip).counts size occurs).Perm (q.counts size occurs) := by
  have hany : ∀ (greedy greedy' : Bool) (ks : List Nat),
      (if greedy then ks.reverse else ks).Perm (if greedy' then ks.reverse else ks) := by
    intro greedy greedy' ks
    cases greedy <;> cases greedy' <;> simp [List.reverse_perm, (List.reverse_perm ks).symm]
  exact hany _ _ _

/-- **Rounds in another order find the same as often**, if the ways of a repetition are permuted. -/
theorem rounds_perm (q q' : Quantifier) (hmin : q'.min = q.min) (hmax : q'.max = q.max)
    {ways ways' : Nat → Records → List Way}
    (hways : ∀ p records, (ways' p records).Perm (ways p records))
    (note : Nat → Nat → Records → Records) (next : Nat → Records → List Way)
    (left k p : Nat) (records : Records) :
    (q'.rounds (fun onward p records => (ways' p records).flatMap fun w => onward w.stop w.records)
      note next left k p records).Perm
    (q.rounds (fun onward p records => (ways p records).flatMap fun w => onward w.stop w.records)
      note next left k p records) := by
  induction left generalizing k p records with
  | zero =>
    rw [rounds, rounds, hmin]
    exact q'.inOrder_perm_inOrder q (.refl _) (.refl _)
  | succ left ih =>
    rw [rounds, rounds, hmin, hmax]
    refine q'.inOrder_perm_inOrder q ?_ (.refl _)
    split
    · exact (hways p records).flatMap fun w _ => ih _ _ _
    · exact .refl _

end Quantifier

/-! ## Trees -/

namespace Pattern

/-- The tree with the other order for the quantifiers of the nodes that are chosen. -/
@[simp] def flipped (chosen : PerNode Bool) : Pattern → Pattern
  | .wildcard id q => .wildcard id (q.preferring (chosen id))
  | .literal id bytes q => .literal id bytes (q.preferring (chosen id))
  | .concat id first second => .concat id (first.flipped chosen) (second.flipped chosen)
  | .alternation id first second => .alternation id (first.flipped chosen) (second.flipped chosen)
  | .group id body capture q => .group id (body.flipped chosen) capture (q.preferring (chosen id))
  | .empty id => .empty id
  | .endMarker id => .endMarker id
  | .anchor id kind => .anchor id kind

variable (chosen : PerNode Bool)

/-- **The ways of a tree are only permuted.** -/
theorem ways_flipped (subject : Subject) (tree : Pattern) (p : Nat) (records : Records) :
    ((tree.flipped chosen).ways subject p records).Perm (tree.ways subject p records) := by
  induction tree generalizing p records with
  | wildcard id q => exact (q.counts_preferring _ _ _).map _
  | literal id bytes q => exact (q.counts_preferring _ _ _).map _
  | concat id first second ihFirst ihSecond =>
    exact (ihFirst p records).flatMap fun w _ => ihSecond w.stop w.records
  | alternation id first second ihFirst ihSecond =>
    exact (ihFirst p records).append (ihSecond p records)
  | group id body capture q ih =>
    rw [flipped, ways, ways]
    exact Quantifier.rounds_perm q (q.preferring (chosen id)) rfl rfl ih _ _ _ _ _ _
  | _ => exact .refl _

/-! ## What does not depend on the order -/

/-- The tree in another order is like the tree. -/
theorem alike_flipped (tree : Pattern) : (tree.flipped chosen).Alike tree := by
  induction tree with
  | empty id => exact .empty id
  | endMarker id => exact .endMarker id
  | anchor id kind => exact .anchor id kind
  | wildcard id q => exact .wildcard id rfl rfl
  | literal id bytes q => exact .literal id bytes rfl rfl
  | concat id first second ihFirst ihSecond => exact .concat id ihFirst ihSecond
  | alternation id first second ihFirst ihSecond => exact .alternation id ihFirst ihSecond
  | group id body capture q ih => exact .group id capture capture ih rfl rfl

theorem endFree_flipped (tree : Pattern) : (tree.flipped chosen).endFree = tree.endFree :=
  (alike_flipped chosen tree).endFree_eq

theorem captureSlots_flipped (tree : Pattern) :
    (tree.flipped chosen).captureSlots = tree.captureSlots := by
  induction tree with
  | concat id first second ihFirst ihSecond | alternation id first second ihFirst ihSecond =>
    simp only [flipped, captureSlots, ihFirst, ihSecond]
  | group id body capture q ih => cases capture <;> simp [flipped, captureSlots, ih]
  | _ => rfl

variable {chosen}

theorem WellFormed.flipped {limit : Nat} {tree : Pattern} (h : tree.WellFormed limit) :
    (tree.flipped chosen).WellFormed limit :=
  (alike_flipped chosen tree).wellFormed h

/-- There are as many numbers left around the tree. -/
theorem wrapped?_flipped (chosen : PerNode Bool) {tree root : Pattern}
    (hroot : tree.wrapped? = some root) : ∃ root', (tree.flipped chosen).wrapped? = some root' :=
  (alike_flipped chosen tree).wrapped? hroot

/-- **The matches of a tree are only permuted.** -/
theorem matchesIn_flipped (tree : Pattern) (subject : Subject) :
    ((tree.flipped chosen).matchesIn subject).Perm (tree.matchesIn subject) := by
  have hmatchOf : (tree.flipped chosen).matchOf = tree.matchOf :=
    matchOf_congr (captureSlots_flipped chosen tree)
  have hfrom : ∀ start, ((tree.flipped chosen).matchesFrom subject start).Perm
      (tree.matchesFrom subject start) := by
    intro start
    rw [matchesFrom, matchesFrom, hmatchOf]
    exact (ways_flipped chosen subject tree start .none).map _
  rw [matchesIn, matchesIn, (alike_flipped chosen tree).startAnchored_eq]
  split
  · exact hfrom 0
  · exact List.Perm.flatMap_left _ fun start _ => hfrom start

end Pattern

/-- **Preference only changes the order.**  Take an accepted tree and let any of its quantifiers, at
any nesting, be lazy instead of greedy or greedy instead of lazy.  The new tree is accepted, too,
and the two searches find the same matches as often, with what the groups have recorded: the
sequences of their answers are permutations of each other. -/
theorem flipped_permutes_matches {tree : Pattern} {options : CompileOptions} {program : Program}
    {subject : Subject} (chosen : PerNode Bool) (hcompile : compile tree options = .ok program)
    (hend : tree.endFree = true) (hsize : subject.size < 2 ^ 63) :
    ∃ program', compile (tree.flipped chosen) options = .ok program' ∧
      ∃ ms ms', Cursor.new.Answers program subject ms ∧ Cursor.new.Answers program' subject ms' ∧
        ms'.Perm ms := by
  obtain ⟨hwf, root, hcompiled⟩ := wellFormed_of_compile hcompile
  obtain ⟨root', hroot'⟩ := Pattern.wrapped?_flipped chosen hcompiled.wrapped
  obtain ⟨program', hcompile'⟩ :
      ∃ program', compile (tree.flipped chosen) options = .ok program' :=
    compile_isOk_of_wellFormed hwf.flipped hroot'
  have hend' : (tree.flipped chosen).endFree = true := by rw [Pattern.endFree_flipped, hend]
  obtain ⟨_, hstanding⟩ := standing_of_compile hcompile hend hsize
  obtain ⟨_, hstanding'⟩ := standing_of_compile hcompile' hend' hsize
  exact ⟨program', hcompile', _, _, hstanding.answers, hstanding'.answers,
    Pattern.matchesIn_flipped tree subject⟩

/-- The pattern `(a|a?b)*?` with groups at two levels, both of which are recorded. -/
def nestedChoice : Pattern :=
  .group 1 (.alternation 2 (.literal 3 [97] .once)
    (.group 4 (.concat 5 (.literal 6 [97] ⟨0, .finite 1, true⟩) (.literal 7 [98] .once)) (some 2)
      ⟨1, .finite 2, true⟩)) (some 1) ⟨0, .unbounded, false⟩

/-- Both groups of `nestedChoice` in the other order, which are read from the text `aab`. -/
theorem flipped_permutes_matches_nestedChoice :
    ∃ program program', compile nestedChoice {} = .ok program ∧
      compile (nestedChoice.flipped fun id => id == 1 || id == 4) {} = .ok program' ∧
      ∃ ms ms', Cursor.new.Answers program #[97, 97, 98] ms ∧
        Cursor.new.Answers program' #[97, 97, 98] ms' ∧ ms'.Perm ms := by
  obtain ⟨root, hroot⟩ := Option.isSome_iff_exists.mp
    (show nestedChoice.wrapped?.isSome = true by decide)
  have hwf : nestedChoice.WellFormed 256 := ⟨by decide, by decide⟩
  obtain ⟨program, hcompile⟩ : ∃ program, compile nestedChoice {} = .ok program :=
    compile_isOk_of_wellFormed hwf hroot
  have hsize : (#[97, 97, 98] : Subject).size < 2 ^ 63 := by decide
  obtain ⟨program', hcompile', hanswers⟩ :=
    flipped_permutes_matches (fun id => id == 1 || id == 4) hcompile (by decide) hsize
  exact ⟨program, program', hcompile, hcompile', hanswers⟩

end PatternMachine
