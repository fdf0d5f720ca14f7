import PatternMachine.Proofs.Refinement

/-!
# Leaving out the scan

A tree that is anchored by its shape is tried at the start of the subject alone.

* `Pattern.startForced` — the shape of a tree forces an anchor at the start to be passed: as
  `startAnchored`, but a group counts only if it cannot be skipped.

Principal results: `ways_eq_nil_of_startForced` — such a tree has no way at later offsets.
`matchesIn_eq_matchesAnywhere_iff` — leaving out the scan loses no match exactly if there is none to
be lost.  `anchored_search_complete_iff` — so a search finds all matches exactly under this
condition, which holds for every tree that is forced to pass the anchor.
-/

set_option autoImplicit false

namespace PatternMachine

namespace Pattern

/-- Whether every match has to pass an anchor at the start of the subject. A group that may be left
out does not count. -/
def startForced : Pattern → Bool
  | .anchor _ .start => true
  | .concat _ first second => first.startForced || second.startForced
  | .alternation _ first second => first.startForced && second.startForced
  | .group _ body _ q => q.min != 0 && body.startForced
  | _ => false

/-- A tree of which no group can be left out is anchored by its shape exactly if it has to be. -/
theorem startForced_eq_startAnchored {tree : Pattern}
    (h : ∀ n ∈ tree.nodes, ∀ id body capture q, n = .group id body capture q → q.min ≠ 0) :
    tree.startForced = tree.startAnchored := by
  induction tree with
  | concat id first second ihFirst ihSecond =>
    rw [startForced, startAnchored, ihFirst fun n hn => h n (by simp [nodes, hn]),
      ihSecond fun n hn => h n (by simp [nodes, hn])]
  | alternation id first second ihFirst ihSecond =>
    rw [startForced, startAnchored, ihFirst fun n hn => h n (by simp [nodes, hn]),
      ihSecond fun n hn => h n (by simp [nodes, hn])]
  | group id body capture q ih =>
    have hmin := h _ (self_mem_nodes _) id body capture q rfl
    rw [startForced, startAnchored, ih fun n hn => h n (by simp [nodes, hn])]
    simp [hmin]
  | anchor id kind => cases kind <;> rfl
  | _ => rfl

/-- A forced tree is anchored. -/
theorem startAnchored_of_startForced {tree : Pattern} (h : tree.startForced = true) :
    tree.startAnchored = true := by
  induction tree with
  | concat id first second ihFirst ihSecond =>
    simp only [startForced, startAnchored, Bool.or_eq_true] at h ⊢
    exact h.imp ihFirst ihSecond
  | alternation id first second ihFirst ihSecond =>
    simp only [startForced, startAnchored, Bool.and_eq_true] at h ⊢
    exact h.imp ihFirst ihSecond
  | group id body capture q ih =>
    simp only [startForced, startAnchored, Bool.and_eq_true] at h ⊢
    exact ih h.2
  | anchor id kind => cases kind <;> simp_all [startForced, startAnchored]
  | _ => cases h

/-- **A tree that has to pass the anchor has no way behind the start of the subject.** -/
theorem ways_eq_nil_of_startForced {tree : Pattern} {subject : Subject} {p : Nat}
    (h : tree.startForced = true) (hp : p ≤ subject.size) (hpos : 0 < p) (records : Records) :
    tree.ways subject p records = [] := by
  induction tree generalizing p records with
  | concat id first second ihFirst ihSecond =>
    rw [ways, List.flatMap_eq_nil_iff]
    intro w hw
    simp only [startForced, Bool.or_eq_true] at h
    rcases h with hfirst | hsecond
    · rw [ihFirst hfirst hp hpos] at hw
      cases hw
    · have hreach := ways_reach hw hp
      exact ihSecond hsecond hreach.le_size (Nat.lt_of_lt_of_le hpos hreach.le) _
  | alternation id first second ihFirst ihSecond =>
    simp only [startForced, Bool.and_eq_true] at h
    rw [ways, ihFirst h.1 hp hpos, ihSecond h.2 hp hpos, List.append_nil]
  | group id body capture q ih =>
    simp only [startForced, Bool.and_eq_true, bne_iff_ne] at h
    have hmin : ¬ q.min.toNat ≤ 0 := by
      intro hzero
      exact h.1 (UInt32.toNat_inj.mp (Nat.le_zero.mp hzero))
    rw [ways]
    cases q.ceiling subject.size <;>
      simp [Quantifier.rounds, Quantifier.inOrder, hmin, ih h.2 hp hpos]
  | anchor id kind =>
    cases kind with
    | start =>
      rw [ways, if_neg]
      simp [Anchor.holds]
      omega
    | _ => cases h
  | _ => cases h

theorem matchesFrom_eq_nil_of_startForced {tree : Pattern} {subject : Subject} {p : Nat}
    (h : tree.startForced = true) (hp : p ≤ subject.size) (hpos : 0 < p) :
    tree.matchesFrom subject p = [] := by
  rw [matchesFrom, ways_eq_nil_of_startForced h hp hpos, List.map_nil]

/-- **Leaving out the scan loses no match exactly if there is none to be lost.** -/
theorem matchesIn_eq_matchesAnywhere_iff (tree : Pattern) (subject : Subject) :
    tree.matchesIn subject = tree.matchesAnywhere subject ↔
      (tree.startAnchored = true →
        ∀ p, 0 < p → p ≤ subject.size → tree.matchesFrom subject p = []) := by
  unfold matchesIn
  by_cases hanchored : tree.startAnchored = true
  · rw [if_pos hanchored, matchesAnywhere, List.range_succ_eq_map, List.flatMap_cons,
      List.self_eq_append_right, List.flatMap_eq_nil_iff]
    constructor
    · intro h _ p hpos hp
      exact h p (List.mem_map.mpr ⟨p - 1, List.mem_range.mpr (by omega), by omega⟩)
    · intro h p hmem
      obtain ⟨k, hk, rfl⟩ := List.mem_map.mp hmem
      exact h hanchored _ (Nat.succ_pos k) (List.mem_range.mp hk)
  · rw [if_neg hanchored]
    exact ⟨fun _ h => absurd h hanchored, fun _ => rfl⟩

end Pattern

/-- **A search finds the matches at all offsets exactly if its tree is not anchored by its shape, or
has no match behind the start of the subject.**  The latter holds when an anchor at the start has to
be passed; it can fail when the anchor stands in a group that may be left out. -/
theorem anchored_search_complete_iff {tree : Pattern} {options : CompileOptions}
    {program : Program} {subject : Subject} (hcompile : compile tree options = .ok program)
    (hend : tree.endFree = true) (hsize : subject.size < 2 ^ 63) :
    (Cursor.new.Answers program subject (tree.matchesAnywhere subject) ↔
      (tree.startAnchored = true →
        ∀ p, 0 < p → p ≤ subject.size → tree.matchesFrom subject p = [])) ∧
    (tree.startForced = true →
      ∀ p, 0 < p → p ≤ subject.size → tree.matchesFrom subject p = []) := by
  obtain ⟨ceiling, hstanding⟩ := standing_of_compile hcompile hend hsize
  refine ⟨?_, fun hforced p hpos hp => Pattern.matchesFrom_eq_nil_of_startForced hforced hp hpos⟩
  rw [← Pattern.matchesIn_eq_matchesAnywhere_iff]
  exact ⟨fun h => hstanding.answers.unique h, fun h => h ▸ hstanding.answers⟩

/-- The pattern `(?:^a){1,2}`: the group cannot be left out. -/
def forcedAnchor : Pattern :=
  .group 1 (.concat 2 (.anchor 3 .start) (.literal 4 [97] .once)) none ⟨1, .finite 2, true⟩

/-- In the text `aa` the search for `(?:^a){1,2}` finds all matches. -/
theorem anchored_search_complete_forcedAnchor :
    ∃ program, compile forcedAnchor {} = .ok program ∧
      Cursor.new.Answers program #[97, 97] (forcedAnchor.matchesAnywhere #[97, 97]) := by
  have hfault : forcedAnchor.firstFault? 256 = none :=
    Pattern.firstFault?_eq_none_iff.mpr ⟨by decide, by decide⟩
  have hsize : (#[97, 97] : Subject).size < 2 ^ 63 := by decide
  obtain ⟨program, hcompile⟩ := compile_isOk {} forcedAnchor.delimited hfault (by decide)
    rfl (by decide) (by decide)
  obtain ⟨hiff, hforced⟩ := anchored_search_complete_iff hcompile (by decide) hsize
  exact ⟨program, hcompile, hiff.mpr fun _ => hforced (by decide)⟩

/-- The pattern `(?:^a)?b`: the anchor may be left out, but the tree is anchored by its shape. -/
def optionalAnchor : Pattern :=
  .concat 1
    (.group 2 (.concat 3 (.anchor 4 .start) (.literal 5 [97] .once)) none ⟨0, .finite 1, true⟩)
    (.literal 6 [98] .once)

/-- In the text `xb` the pattern matches behind the `x`, but the search does not find it. -/
theorem search_misses_match_optionalAnchor :
    optionalAnchor.startAnchored = true ∧
      (optionalAnchor.matchesAnywhere #[120, 98]).map Match.span = [⟨1, 2⟩] ∧
      ∃ program, compile optionalAnchor {} = .ok program ∧
        Cursor.new.Answers program #[120, 98] [] := by
  have hfault : optionalAnchor.firstFault? 256 = none :=
    Pattern.firstFault?_eq_none_iff.mpr ⟨by decide, by decide⟩
  have hsize : (#[120, 98] : Subject).size < 2 ^ 63 := by decide
  obtain ⟨program, hcompile⟩ := compile_isOk {} optionalAnchor.delimited hfault (by decide)
    rfl (by decide) (by decide)
  obtain ⟨ceiling, hstanding⟩ := standing_of_compile hcompile (by decide) hsize
  have hnone : optionalAnchor.matchesIn #[120, 98] = [] := by
    have : (optionalAnchor.matchesIn #[120, 98]).map Match.span = [] := by decide
    exact List.map_eq_nil_iff.mp this
  rw [hnone] at hstanding
  exact ⟨by decide, by decide, program, hcompile, hstanding.answers⟩

end PatternMachine
