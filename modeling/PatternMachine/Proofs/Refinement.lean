import PatternMachine.Proofs.Answers
import PatternMachine.Proofs.Recording

/-!
# Searches find the matches of their pattern

* `aStarB`, `Match.listing` — a pattern with a repeated group, and matches that are written out, for
  a look at a whole search.

Principal result: `search_finds_matches` — a search with the program of a tree finds the matches of
the tree, in order, and then says forever that there is no further one.
-/

set_option autoImplicit false

namespace PatternMachine

/-- What is known of a tree that has been compiled. -/
theorem wellFormed_of_compile {tree : Pattern} {options : CompileOptions} {program : Program}
    (hcompile : compile tree options = .ok program) :
    tree.WellFormed options.maxLiteral ∧ ∃ root, Compiled tree root options.trace program := by
  obtain ⟨hfault, hcompiled⟩ := compiled_of_compile hcompile
  exact ⟨Pattern.firstFault?_eq_none_iff.mp hfault, hcompiled⟩

/-- A search that has not begun stands before all matches of the wrapped tree. -/
theorem Compiled.standing {tree root : Pattern} {trace : Bool} {program : Program}
    {subject : Subject} {limit : Nat} (h : Compiled tree root trace program)
    (hwf : tree.WellFormed limit) (hsize : subject.size < 2 ^ 63) :
    Standing program subject (root.ceilings subject.size) .new (root.answers subject) := by
  obtain ⟨start, hstart, hdrains⟩ := h.drains hwf hsize
  exact .fresh hstart hdrains

/-- A search that has not begun stands before all matches of its tree. -/
theorem standing_of_compile {tree : Pattern} {options : CompileOptions} {program : Program}
    {subject : Subject} (hcompile : compile tree options = .ok program)
    (hend : tree.endFree = true) (hsize : subject.size < 2 ^ 63) :
    ∃ ceiling, Standing program subject ceiling .new (tree.matchesIn subject) := by
  obtain ⟨hwf, root, hcompiled⟩ := wellFormed_of_compile hcompile
  rw [← answers_eq_matchesIn hcompiled.wrapped hend]
  exact ⟨_, hcompiled.standing hwf hsize⟩

/-- **A search finds the matches of its pattern**, in the order in which the ways of the tree are
tried, as often as there are ways, and with what the groups have recorded.  Afterwards it says
forever that there is no further match. -/
theorem search_finds_matches {tree : Pattern} {options : CompileOptions} {program : Program}
    {subject : Subject} (hcompile : compile tree options = .ok program)
    (hend : tree.endFree = true) (hsize : subject.size < 2 ^ 63) :
    Cursor.new.Answers program subject (tree.matchesIn subject) := by
  obtain ⟨ceiling, hstanding⟩ := standing_of_compile hcompile hend hsize
  exact hstanding.answers

/-- The pattern `(a)*b`. -/
def aStarB : Pattern :=
  .concat 1 (.group 2 (.literal 3 [97] .once) (some 1) ⟨0, .unbounded, true⟩)
    (.literal 4 [98] .once)

theorem aStarB_compiles : ∃ program, compile aStarB {} = .ok program := by
  refine compile_isOk {} (.concat 9 aStarB.scan aStarB.delimited) ?_ (by decide) rfl
    (by decide) (by decide)
  exact Pattern.firstFault?_eq_none_iff.mpr ⟨by decide, by decide⟩

/-- A match with captures that are listed. -/
def Match.listing (span : Span) (captures : List (UInt32 × List Span)) : Match :=
  ⟨span, .ofList captures⟩

/-- In the text `aab` the pattern is found three times, from each offset on once, and every match
holds all repetitions of the group. -/
theorem search_finds_matches_aStarB :
    ∃ program, compile aStarB {} = .ok program ∧
      Cursor.new.Answers program #[97, 97, 98] (aStarB.matchesIn #[97, 97, 98]) ∧
      aStarB.matchesIn #[97, 97, 98] =
        [.listing ⟨0, 3⟩ [(0, [⟨0, 3⟩]), (1, [⟨0, 1⟩, ⟨1, 2⟩])],
          .listing ⟨1, 3⟩ [(0, [⟨1, 3⟩]), (1, [⟨1, 2⟩])],
          .listing ⟨2, 3⟩ [(0, [⟨2, 3⟩])]] := by
  obtain ⟨program, hcompile⟩ := aStarB_compiles
  exact ⟨program, hcompile, search_finds_matches hcompile (by decide) (by decide),
    by decide⟩

end PatternMachine
