import PatternMachine.Proofs.Refinement

/-!
# Searches neither go wrong nor go on forever

* `Cursor.Passes` — the states that a search passes on its way to an answer.
* `Cursor.CountsWithin` — no group of a tree has begun more repetitions than its quantifier and the
  subject allow.

Subjects have fewer than `2 ^ 63` bytes, as everything that is held in memory: so offsets and
counters fit into words.

Principal results: `search_safe` — only limits make the search of a compiled pattern fail, and the
counters of groups are bounded in every state that is passed.  `search_ends` — without limits every
question is answered, and after finitely many matches there is no further one.
-/

set_option autoImplicit false

namespace PatternMachine

/-- The states that a search passes on the way to its next answer. -/
inductive Cursor.Passes (program : Program) (subject : Subject) (c : Cursor) : Cursor → Prop
  | here : Passes program subject c c
  | during {d e : Cursor} {depth : Option UInt32} {n : Nat} (hbegin : c.begin program = .running d)
      (hrun : d.run program subject depth n = .running e) : Passes program subject c e

/-- No group of a tree has begun more repetitions, in any stay, than its maximum or, if it has none,
than one more than the subject has bytes. -/
def Cursor.CountsWithin (tree : Pattern) (size : Nat) (c : Cursor) : Prop :=
  ∀ id body capture q, .group id body capture q ∈ tree.nodes → ∀ g, c.group? id = some g →
    ∀ stay ∈ g.current :: g.outer,
      match q.max with
      | .finite count => stay.count ≤ count.toNat
      | .unbounded => stay.count ≤ size + 1

variable {program : Program} {subject : Subject} {c e : Cursor}

/-- **Wherever a search stands, and whatever it passes from there, its counters are bounded.** -/
theorem Standing.passes {ceiling : PerNode Nat} {ms : List Match}
    (h : Standing program subject ceiling c ms) (he : c.Passes program subject e) :
    e.Within ceiling := by
  cases he with
  | here => exact h.within
  | @during d _ depth n hbegin hrun =>
    rcases h.begin with ⟨_, _, hhalted⟩ | ⟨d', hbegin', hongoing⟩
    · rw [hhalted] at hbegin
      cases hbegin
    · rw [hbegin'] at hbegin
      cases hbegin
      have houtcome := Outcome.run hongoing depth n
      rw [hrun] at houtcome
      cases houtcome with
      | running he =>
        obtain ⟨x, hshows, hwithin, _⟩ := he.drains
        exact hshows.within hwithin

/-- **Whatever questions are asked, a search can go on.** -/
theorem Standing.of_reachable {ceiling : PerNode Nat} {ms : List Match} {allowed : Limits → Prop}
    (h : Standing program subject ceiling .new ms)
    (hc : c.Reachable program subject allowed) :
    ∃ ms', Standing program subject ceiling c ms' := by
  induction hc with
  | new => exact ⟨ms, h⟩
  | next _ _ hnext ih =>
    obtain ⟨ms', hc⟩ := ih
    exact (hc.of_next? hnext).1

theorem Cursor.Within.countsWithin {limit : Nat} {tree : Pattern} {size : Nat}
    (h : c.Within (tree.ceilings size)) (hwf : tree.WellFormed limit) :
    c.CountsWithin tree size := by
  intro id body capture q hmem g hg stay hstay
  have hcount := h id g hg stay hstay
  rw [((hwf.agrees size) id body capture q hmem).1, Quantifier.ceiling] at hcount
  cases hmax : q.max <;> simpa [hmax] using hcount

/-- The nodes of a tree are nodes of the tree around it. -/
theorem Pattern.nodes_wrapped {tree root n : Pattern} (hroot : tree.wrapped? = some root)
    (hn : n ∈ tree.nodes) : n ∈ root.nodes := by
  obtain ⟨_, rfl⟩ := wrapped?_eq_some hroot
  split <;> simp [delimited, nodes, hn]

section

variable {tree : Pattern} {options : CompileOptions} {allowed : Limits → Prop}

/-- **The search of a compiled pattern does not go wrong.**  Whatever the limits were for the
questions so far, an error comes from a limit that is set for the question at hand; and in every
state that is passed the counters of all groups, those around the tree included, are bounded, so
that one more repetition never exceeds a word. -/
theorem search_safe (hcompile : compile tree options = .ok program)
    (hsize : subject.size < 2 ^ 63) (hc : c.Reachable program subject fun _ => True) :
    (∀ limits patience error d,
      c.next? program subject limits patience = some (.failed error, d) → limits.Causes error) ∧
    ∀ e, c.Passes program subject e →
      e.CountsWithin tree subject.size ∧
      (∀ root, tree.wrapped? = some root → e.CountsWithin root subject.size) ∧
      ∀ id g, e.group? id = some g → g.current.count + 1 < wordSize := by
  obtain ⟨hwf, root, hcompiled⟩ := wellFormed_of_compile hcompile
  obtain ⟨ms, hstanding⟩ := (hcompiled.standing hwf hsize).of_reachable hc
  refine ⟨fun limits patience error d hnext => (hstanding.of_next? hnext).2 error rfl, ?_⟩
  intro e he
  have hwithin := hstanding.passes he
  have hroot := hwithin.countsWithin (hwf.wrapped hcompiled.wrapped)
  refine ⟨fun id body capture q hmem => ?_, fun root' hroot' => ?_, fun id g hg => ?_⟩
  · exact hroot id body capture q (Pattern.nodes_wrapped hcompiled.wrapped hmem)
  · obtain rfl := Option.some.inj (hroot'.symm.trans hcompiled.wrapped)
    exact hroot
  · have := hwithin id g hg g.current List.mem_cons_self
    have := root.ceilings_lt hsize id
    omega

theorem search_safe_aStarB :
    ∃ program, compile aStarB {} = .ok program ∧
      (∀ limits patience error d,
        Cursor.new.next? program #[97, 97, 98] limits patience = some (.failed error, d) →
          limits.Causes error) ∧
      ∀ e, Cursor.new.Passes program #[97, 97, 98] e → e.CountsWithin aStarB 3 := by
  obtain ⟨program, hcompile⟩ := aStarB_compiles
  have hsize : (#[97, 97, 98] : Subject).size < 2 ^ 63 := by decide
  obtain ⟨herrors, hcounts⟩ := search_safe hcompile hsize .new
  exact ⟨program, hcompile, herrors, fun e he => (hcounts e he).1⟩

/-- **The search of a compiled pattern ends.**  Wherever earlier questions have led it, with enough
patience and without limits the next question is answered, and so are all further ones: with
finitely many matches, and then that there is no further match. -/
theorem search_ends (hcompile : compile tree options = .ok program)
    (hsize : subject.size < 2 ^ 63) (hc : c.Reachable program subject allowed) :
    ∃ ms, c.Answers program subject ms := by
  obtain ⟨hwf, root, hcompiled⟩ := wellFormed_of_compile hcompile
  obtain ⟨ms, hstanding⟩ := (hcompiled.standing hwf hsize).of_reachable hc
  exact ⟨ms, hstanding.answers⟩

/-- The pattern `(?:a|a)*` with an end marker behind the first `a`: matches are reported inside of
repetitions. -/
def reportingStar : Pattern :=
  .group 1 (.alternation 2 (.concat 3 (.literal 4 [97] .once) (.endMarker 5))
    (.literal 6 [97] .once)) none ⟨0, .unbounded, true⟩

theorem reportingStar_compiles : ∃ program, compile reportingStar {} = .ok program := by
  refine compile_isOk {} (.concat 11 reportingStar.scan reportingStar.delimited) ?_
    (by decide) rfl (by decide) (by decide)
  exact Pattern.firstFault?_eq_none_iff.mpr ⟨by decide, by decide⟩

theorem search_ends_reportingStar :
    ∃ program, compile reportingStar {} = .ok program ∧
      ∃ ms, Cursor.new.Answers program #[97, 97] ms := by
  obtain ⟨program, hcompile⟩ := reportingStar_compiles
  have hnew : Cursor.new.Reachable program #[97, 97] (· = {}) := .new
  exact ⟨program, hcompile, search_ends hcompile (by decide) hnew⟩

end

end PatternMachine
