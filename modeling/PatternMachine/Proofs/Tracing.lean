import PatternMachine.Proofs.Labels
import PatternMachine.Proofs.Refinement
import PatternMachine.Proofs.Relocating
import Mathlib.Data.List.Forall2

/-!
# Tracing does not change a search

The options of a compilation decide whether the program tells which block it enters, and whether its
listing holds line markers.

* `quiet_code` — the code of a tree, with messages or without, is the same but for them.
* `Agree` — two answers and two cursors that are the same but for offsets.

Principal results: `quietens_of_compile` — the program of a tree that is compiled without tracing is
that of the same tree with the messages left out.  `tracing_keeps_searches` — whatever is asked of
two programs of one tree, they give the same answers, and come to the same cursors but for offsets.
-/

set_option autoImplicit false

namespace PatternMachine

open Lowering Program

/-! ## Code without messages -/

section

variable (id : NodeId) (next : Label)

theorem quiet_head (trace : Bool) (label : Label) (comment : String) :
    quiet (head trace label comment) = head false label comment := by
  cases trace <;> rfl

theorem quiet_wildcardBlock (q : Quantifier) :
    quiet (wildcardBlock id q next) = wildcardBlock id q next := by
  obtain ⟨min, max, greedy⟩ := q
  unfold wildcardBlock
  split
  · rfl
  · cases max <;> cases greedy <;> by_cases hmin : min = 0 <;>
      simp [quiet, clip, wildcardGreedy, wildcardLazy, branchIf, place, Instruction.isTrace, hmin]

theorem quiet_literalBlock (bytes : List UInt8) (q : Quantifier) :
    quiet (literalBlock id bytes q next) = literalBlock id bytes q next := by
  obtain ⟨min, max, greedy⟩ := q
  unfold literalBlock
  split
  · rfl
  · cases max <;> cases greedy <;> by_cases hmin : min = 0 <;>
      simp [quiet, literalGreedy, literalLazy, unlessLiteral, branchIf, place, Instruction.isTrace,
        hmin]

theorem quiet_repetition (body : NodeId) (capturing : Bool) (q : Quantifier) :
    quiet (repetition id body capturing q next) = repetition id body capturing q next := by
  obtain ⟨min, max, greedy⟩ := q
  cases capturing <;> cases max <;> cases greedy <;> by_cases hmin : min = 0 <;>
    simp [quiet, repetition, closeSpan, repeatGreedy, repeatLazy, repeatBody, unwind, branchCount,
      place, Instruction.isTrace, hmin]

theorem quiet_anchorBlock (kind : Anchor) :
    quiet (anchorBlock kind next) = anchorBlock kind next := by
  cases kind <;> rfl

/-- **The code of a tree is the same with and without messages**, but for them. -/
theorem quiet_code (trace : Bool) (tree : Pattern) :
    quiet (tree.code trace next) = tree.code false next := by
  induction tree generalizing next with
  | empty id =>
    rw [Pattern.code_empty, Pattern.code_empty, quiet_append, quiet_head]
    rfl
  | endMarker id =>
    rw [Pattern.code_endMarker, Pattern.code_endMarker, quiet_append, quiet_head]
    rfl
  | wildcard id q =>
    rw [Pattern.code_wildcard, Pattern.code_wildcard, quiet_append, quiet_head,
      quiet_wildcardBlock]
  | literal id bytes q =>
    rw [Pattern.code_literal, Pattern.code_literal, quiet_append, quiet_head, quiet_literalBlock]
  | concat id first second ihFirst ihSecond =>
    rw [Pattern.code_concat, Pattern.code_concat, quiet_append, quiet_append, quiet_head, ihFirst,
      ihSecond]
  | alternation id first second ihFirst ihSecond =>
    rw [Pattern.code_alternation, Pattern.code_alternation]
    simp only [quiet_append, quiet_head, ihFirst, ihSecond]
    rfl
  | group id body capture q ih =>
    cases ht : Pattern.isTransparent capture q with
    | true =>
      rw [Pattern.code_group_transparent _ _ _ _ _ _ ht,
        Pattern.code_group_transparent _ _ _ _ _ _ ht, quiet_append, quiet_head, ih]
    | false =>
      rw [Pattern.code_group _ _ _ _ _ _ ht, Pattern.code_group _ _ _ _ _ _ ht]
      simp only [quiet_append, quiet_head, quiet_repetition, ih]
      rfl
  | anchor id kind =>
    rw [Pattern.code_anchor, Pattern.code_anchor, quiet_append, quiet_head, quiet_anchorBlock]

end

/-! ## Compiled programs -/

section

variable {tree : Pattern} {options options' : CompileOptions} {p p' q : Program}

/-- All programs of a tree have the same code but for messages, and the same captures. -/
theorem quiet_of_compile (hp : compile tree options = .ok p) (hq : compile tree options' = .ok q) :
    quiet q.code.toList = quiet p.code.toList ∧ q.captures = p.captures := by
  obtain ⟨_, root, hcp⟩ := wellFormed_of_compile hp
  obtain ⟨_, root', hcq⟩ := wellFormed_of_compile hq
  obtain rfl : root = root' := Option.some.inj (hcp.wrapped.symm.trans hcq.wrapped)
  refine ⟨?_, hcq.captures.trans hcp.captures.symm⟩
  rw [hcp.code, hcq.code]
  simp only [Compilation.opening, quiet_append, quiet_head, quiet_code]

/-- A program that is compiled without tracing has no messages. -/
theorem quiet_eq_code (hq : compile tree options = .ok q) (htrace : options.trace = false) :
    quiet q.code.toList = q.code.toList := by
  obtain ⟨_, root, hcompiled⟩ := wellFormed_of_compile hq
  rw [hcompiled.code, htrace]
  simp only [Compilation.opening, quiet_append, quiet_head, quiet_code]
  rfl

/-- **The program that is compiled without tracing is every other one without its messages.** -/
theorem quietens_of_compile (hp : compile tree options = .ok p)
    (hq : compile tree options' = .ok q) (htrace : options'.trace = false) : Quietens p q := by
  obtain ⟨hquiet, hcaptures⟩ := quiet_of_compile hp hq
  obtain ⟨_, _, hcp⟩ := wellFormed_of_compile hp
  obtain ⟨_, _, hcq⟩ := wellFormed_of_compile hq
  have hcode : q.code.toList = quiet p.code.toList := by rw [← quiet_eq_code hq htrace, hquiet]
  refine ⟨hcode, hcaptures, ?_⟩
  intro label
  cases hresolve : p.resolve? label with
  | some a =>
    obtain ⟨comment, hblock⟩ := block_of_compile hp hresolve
    have hmoved : q.code[p.offset a]? = some (.block label comment) := by
      rw [← Array.getElem?_toList, hcode]
      exact getElem?_quiet hblock rfl
    exact hcq.linked _ _ _ hmoved
  | none =>
    cases hresolve' : q.resolve? label with
    | none => rfl
    | some b =>
      -- a block of `q` is one of `p`, so its label is resolved there, too
      obtain ⟨comment, hblock⟩ := block_of_compile hq hresolve'
      rw [← Array.getElem?_toList, hcode] at hblock
      have hmem : .block label comment ∈ p.code.toList :=
        List.mem_of_mem_filter (List.mem_of_getElem? hblock)
      obtain ⟨a, ha⟩ := List.mem_iff_getElem?.mp hmem
      rw [Array.getElem?_toList] at ha
      have hsome := hcp.linked _ _ _ ha
      rw [hresolve] at hsome
      cases hsome

/-- Whether a tree is accepted depends on the longest literal only. -/
theorem compile_isOk_of_maxLiteral (hp : compile tree options = .ok p)
    (hlimit : options'.maxLiteral = options.maxLiteral) : ∃ q, compile tree options' = .ok q := by
  obtain ⟨hwf, _, hcompiled⟩ := wellFormed_of_compile hp
  exact compile_isOk_of_wellFormed (hlimit ▸ hwf) hcompiled.wrapped

/-! ## Searches -/

/-- Two programs give the same answer, and leave the same cursor but for offsets: these agree as
soon as the messages in front of them are left out. -/
structure Agree (p p' : Program) (r r' : Answer × Cursor) : Prop where
  answer : r.1 = r'.1
  position : r.2.position = r'.2.position
  depth : r.2.depth = r'.2.depth
  stage : r.2.stage = r'.2.stage
  group? : ∀ id, r.2.group? id = r'.2.group? id
  relocate : r.2.relocate p.offset = r'.2.relocate p'.offset

theorem Agree.of_relocate {r r' : Answer × Cursor}
    (h : (r.1, r.2.relocate p.offset) = (r'.1, r'.2.relocate p'.offset)) : Agree p p' r r' := by
  obtain ⟨hanswer, hcursor⟩ := Prod.mk.inj h
  have hposition := congrArg Cursor.position hcursor
  have hdepth := congrArg Cursor.depth hcursor
  have hstage := congrArg Cursor.stage hcursor
  have hgroup : ∀ id, _ := fun id => congrArg (Cursor.group? · id) hcursor
  rw [Cursor.relocate_depth, Cursor.relocate_depth] at hdepth
  exact ⟨hanswer, hposition, hdepth, hstage, hgroup, hcursor⟩

/-- **Tracing and line markers do not change a search.**  Every tree that is compiled under some
options is compiled under all others that allow literals of the same length.  The two programs have
the same code but for messages, and the same captures.  Whatever the subject and the limit on
pending calls, the searches of both programs answer all questions, in the same way, and stand at the
same place afterwards: the cursors are the same but for offsets. -/
theorem tracing_keeps_searches (hcompile : compile tree options = .ok p)
    (hlimit : options'.maxLiteral = options.maxLiteral) :
    ∃ p', compile tree options' = .ok p' ∧ quiet p'.code.toList = quiet p.code.toList ∧
      p'.captures = p.captures ∧
      ∀ (subject : Subject) (depth : Option UInt32), subject.size < 2 ^ 63 → ∀ n,
        ∃ rs rs' enough, List.Forall₂ (Agree p p') rs rs' ∧ ∀ patience, enough ≤ patience →
          Cursor.new.replies? p subject ⟨none, depth⟩ patience n = some rs ∧
            Cursor.new.replies? p' subject ⟨none, depth⟩ patience n = some rs' := by
  obtain ⟨p', hp'⟩ := compile_isOk_of_maxLiteral hcompile hlimit
  obtain ⟨hquiet, hcaptures⟩ := quiet_of_compile hcompile hp'
  refine ⟨p', hp', hquiet, hcaptures, ?_⟩
  intro subject depth hsize n
  -- both searches are compared with that of the program without messages
  obtain ⟨q, hq⟩ : ∃ q, compile tree { options with trace := false } = .ok q :=
    compile_isOk_of_maxLiteral hcompile rfl
  obtain ⟨hwf, _, hcompiled⟩ := wellFormed_of_compile hcompile
  obtain ⟨hwf', _, hcompiled'⟩ := wellFormed_of_compile hp'
  obtain ⟨enough, rs, hrs⟩ := (hcompiled.standing hwf hsize).replies
    (quietens_of_compile hcompile hq rfl) depth n
  obtain ⟨enough', rs', hrs'⟩ := (hcompiled'.standing hwf' hsize).replies
    (quietens_of_compile hp' hq rfl) depth n
  rw [Cursor.relocate_new offset_zero] at hrs hrs'
  have hsame : rs.map (fun r => (r.1, r.2.relocate p.offset)) =
      rs'.map fun r => (r.1, r.2.relocate p'.offset) :=
    Option.some.inj ((hrs _ (Nat.le_max_left ..)).2.symm.trans (hrs' _ (Nat.le_max_right ..)).2)
  rw [← List.forall₂_eq_eq_eq, List.forall₂_map_left_iff, List.forall₂_map_right_iff] at hsame
  refine ⟨rs, rs', max enough enough', hsame.imp fun _ _ h => .of_relocate h, ?_⟩
  intro patience hle
  constructor
  · exact (hrs patience (by omega)).1
  · exact (hrs' patience (by omega)).1

end

/-- The pattern `(a)*b` with and without tracing, when at most five calls may be pending. -/
theorem tracing_keeps_searches_aStarB :
    ∃ p p', compile aStarB {} = .ok p ∧ compile aStarB ⟨false, true, 256⟩ = .ok p' ∧
      ∃ rs rs' enough, List.Forall₂ (Agree p p') rs rs' ∧ ∀ patience, enough ≤ patience →
        Cursor.new.replies? p #[97, 97, 98] ⟨none, some 5⟩ patience 4 = some rs ∧
          Cursor.new.replies? p' #[97, 97, 98] ⟨none, some 5⟩ patience 4 = some rs' := by
  obtain ⟨p, hp⟩ := aStarB_compiles
  obtain ⟨p', hp', _, _, hreplies⟩ := @tracing_keeps_searches aStarB {} ⟨false, true, 256⟩ p hp rfl
  exact ⟨p, p', hp, hp', hreplies #[97, 97, 98] (some 5) (by decide) 4⟩

end PatternMachine
