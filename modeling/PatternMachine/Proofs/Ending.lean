import PatternMachine.Proofs.Limits

/-!
# Searches that have ended

A search ends when it says that there is no further match, or when it fails. Afterwards the
question for the next match has one answer, whatever program, subject and limits it is asked under:
there is none.

* `Answer.Ends`, `Answer.stageAfter` — the answers that end a search, and where an answer leaves it.
* `Question`, `Cursor.Converses` — what a search is asked, and a sequence of questions with their
  answers. Program, subject and limits may be others in every question.
* `Cursor.Ended` — a search that is exhausted, and that no further question brings back.
* `Cursor.Astray` — a search that has not begun, with a program that says nowhere where to begin.

Principal results: `step_settled`, `run_settled`, `next?_settled` — a step, a run and a question
leave the search where the answer says, unless it is astray.  `ended_searches_stay_ended_iff` — an
answer that ends a search ends it for ever, exactly if the search is not astray.
`search_fails_afresh_ret` — one that is astray is not ended by its failure, and fails again.
-/

set_option autoImplicit false

namespace PatternMachine

/-- The answers that end a search: that there is no further match, and that it went wrong. -/
inductive Answer.Ends : Answer → Prop
  | exhausted : Ends .exhausted
  | failed (error : RuntimeError) : Ends (.failed error)

/-- Where a search stands after an answer. -/
def Answer.stageAfter : Answer → Stage
  | .found _ => .suspended
  | .exhausted => .exhausted
  | .failed _ => .exhausted

theorem Answer.Ends.stageAfter {answer : Answer} (h : answer.Ends) :
    answer.stageAfter = .exhausted := by
  cases h <;> rfl

/-- A step that halts leaves the search where its answer says. -/
def Step.Settled : Step → Prop
  | .running _ => True
  | .halted c answer => c.stage = answer.stageAfter

namespace Cursor

variable {program : Program} {subject : Subject} {depth : Option UInt32} {c d : Cursor}

/-! ## Steps and runs -/

theorem fail_settled (c : Cursor) (error : RuntimeError) : (c.fail error).Settled := rfl

theorem jump_settled (c : Cursor) (program : Program) (target : Label) :
    (c.jump program target).Settled := by
  unfold jump
  split
  · trivial
  · exact fail_settled ..

theorem withGroup_settled (c : Cursor) (id : NodeId) (g : Option GroupState)
    (error : RuntimeError) : (c.withGroup id g error).Settled := by
  unfold withGroup
  split
  · trivial
  · exact fail_settled ..

theorem execute_settled (here : Nat) (i : Instruction) :
    (c.execute program subject depth here i).Settled := by
  cases i with
  | block label comment | trace message | set r operand | enter group capturing => trivial
  | yield | exhausted => rfl
  | goto target => exact jump_settled ..
  | leave group | countUp group | pushPos group | popPos group => exact withGroup_settled ..
  | add r operand | sub r operand | ret =>
    simp only [execute]
    split
    · trivial
    · exact fail_settled ..
  | branch condition target =>
    simp only [execute]
    split
    · exact jump_settled ..
    · trivial
    · exact fail_settled ..
  | call target =>
    simp only [execute]
    split
    · exact fail_settled ..
    · exact jump_settled ..
  | countDown group =>
    simp only [execute]
    split
    · exact withGroup_settled ..
    · exact fail_settled ..

/-- **A step that halts leaves the search where its answer says.** -/
theorem step_settled : (c.step program subject depth).Settled := by
  simp only [step]
  split
  · exact execute_settled _ _
  · exact fail_settled ..

/-- **A run that halts leaves the search where its answer says.** -/
theorem run_settled (n : Nat) : (c.run program subject depth n).Settled := by
  induction n generalizing c with
  | zero => trivial
  | succ n ih =>
    have hstep : (c.step program subject depth).Settled := step_settled
    rw [run]
    split
    · exact ih
    · rename_i e answer he
      rwa [he] at hstep

/-! ## Questions -/

/-- The search has not begun, and its program says nowhere where it begins. -/
structure Astray (program : Program) (c : Cursor) : Prop where
  stage : c.stage = .fresh
  unresolved : program.resolve? .search = none

/-- A search that is astray fails before its first step. It is left as it is, so it will fail
again. -/
theorem Astray.next? (h : c.Astray program) (subject : Subject) (limits : Limits)
    (patience : Nat) :
    c.next? program subject limits patience = some (.failed (.invalidJump nowhere), c) := by
  simp [Cursor.next?, begin, h.stage, h.unresolved]

/-- **A question leaves the search where the answer says**, unless the search is astray. -/
theorem next?_settled {limits : Limits} {patience : Nat} {answer : Answer}
    (hastray : ¬ c.Astray program)
    (h : c.next? program subject limits patience = some (answer, d)) :
    d.stage = answer.stageAfter := by
  rcases next?_eq_some h with hbegin | ⟨b, n, _, hrun, _⟩ | ⟨_, e, fuel, _, _, _, rfl, rfl⟩
  · unfold begin at hbegin
    split at hbegin
    · rename_i hstage
      cases hbegin
      exact hstage
    · cases hbegin
    · rename_i hstage
      split at hbegin
      · cases hbegin
      · rename_i hnone
        exact absurd ⟨hstage, hnone⟩ hastray
  · have hsettled : (b.run program subject limits.depth n).Settled := run_settled n
    rwa [hrun] at hsettled
  · rfl

end Cursor

/-- A question for the next match: with which program, in which subject, and under which limits. -/
structure Question where
  program : Program
  subject : Subject
  limits : Limits

namespace Cursor

variable {c d e : Cursor} {question : Question} {answer : Answer} {patience : Nat}

/-- The answer to a question, and the search after it. -/
def ask? (question : Question) (patience : Nat) (c : Cursor) : Option (Answer × Cursor) :=
  c.next? question.program question.subject question.limits patience

/-- Questions that are asked one after the other, each with its answer, and the search after the
last one. -/
inductive Converses : Cursor → List (Question × Answer) → Cursor → Prop
  | nil {c : Cursor} : Converses c [] c
  | cons {c d e : Cursor} {question : Question} {answer : Answer} {patience : Nat}
      {later : List (Question × Answer)} (hask : c.ask? question patience = some (answer, d))
      (h : Converses d later e) : Converses c ((question, answer) :: later) e

/-- The search is exhausted and stays so: every question is answered at once that there is no
further match, and leaves the search as it is, and so do all questions after it. -/
structure Ended (c : Cursor) : Prop where
  stage : c.stage = .exhausted
  ask : ∀ question patience, c.ask? question patience = some (.exhausted, c)
  converses : ∀ later d, c.Converses later d → d = c ∧ ∀ r ∈ later, r.2 = .exhausted

/-- An exhausted search is not changed by questions. -/
theorem Converses.of_exhausted {later : List (Question × Answer)} (h : c.Converses later d)
    (hstage : c.stage = .exhausted) : d = c ∧ ∀ r ∈ later, r.2 = .exhausted := by
  induction h with
  | nil => exact ⟨rfl, nofun⟩
  | cons hask _ ih =>
    have hnone := hask.symm.trans (next?_of_exhausted hstage _ _ _ _)
    cases hnone
    obtain ⟨rfl, hlater⟩ := ih hstage
    refine ⟨rfl, fun r hr => ?_⟩
    rcases List.mem_cons.mp hr with rfl | hr
    · rfl
    · exact hlater r hr

theorem ended_of_exhausted (hstage : c.stage = .exhausted) : c.Ended where
  stage := hstage
  ask _ _ := next?_of_exhausted hstage _ _ _ _
  converses _ _ h := h.of_exhausted hstage

/-- **An answer that ends a search ends it for ever, exactly if the search is not astray.** -/
theorem ended_iff (hask : c.ask? question patience = some (answer, d)) (hends : answer.Ends) :
    d.Ended ↔ ¬ c.Astray question.program := by
  constructor
  · intro hended hastray
    have hsame := hask.symm.trans (hastray.next? _ _ _)
    cases hsame
    have hfresh := hastray.stage
    rw [hended.stage] at hfresh
    cases hfresh
  · intro hastray
    apply ended_of_exhausted
    rw [next?_settled hastray hask]
    exact hends.stageAfter

/-- As long as the programs say where they begin, only the answer that there is no further match
follows an answer that ends the search. -/
theorem Converses.pairwise {history : List (Question × Answer)} (h : c.Converses history e)
    (hsearch : ∀ r ∈ history, (r.1.program.resolve? .search).isSome = true) :
    history.Pairwise fun r s => r.2.Ends → s.2 = .exhausted := by
  induction h with
  | nil => exact .nil
  | @cons c d e question answer patience later hask hlater ih =>
    apply List.Pairwise.cons
    · intro s hs hends
      have hastray : ¬ c.Astray question.program := by
        intro hastray
        have hsome := hsearch _ List.mem_cons_self
        rw [hastray.unresolved] at hsome
        cases hsome
      exact (((ended_iff hask hends).mpr hastray).converses _ _ hlater).2 s hs
    · exact ih fun r hr => hsearch r (List.mem_cons_of_mem _ hr)

end Cursor

/-- **A search that has ended stays so, unless it never found where to begin.**  Ask any search
any question, and let the answer be that there is no further match, or that the search went wrong.
The search is exhausted then, answers all further questions, with whatever programs, subjects and
limits, that there is no further match, and is not changed by them, exactly if it had begun before
or its program says where to begin.  So whatever is asked of programs that say where they begin, a
failure is followed by nothing but answers that there is no further match. -/
theorem ended_searches_stay_ended_iff (c : Cursor) :
    (∀ (question : Question) (patience : Nat) (answer : Answer) (d : Cursor),
      c.ask? question patience = some (answer, d) → answer.Ends →
        (d.Ended ↔ ¬ c.Astray question.program)) ∧
    ∀ (history : List (Question × Answer)) (e : Cursor), c.Converses history e →
      (∀ r ∈ history, (r.1.program.resolve? .search).isSome = true) →
        history.Pairwise fun r s => r.2.Ends → s.2 = .exhausted :=
  ⟨fun _ _ _ _ hask hends => Cursor.ended_iff hask hends,
    fun _ _ h hsearch => h.pairwise hsearch⟩

/-- A search that is given no step fails, and is not taken up again when it is asked without
limits. -/
theorem ended_searches_stay_ended_iff_callOnce :
    ∃ d, Cursor.new.ask? ⟨callOnce, #[], ⟨some 0, none⟩⟩ 0 =
        some (.failed (.fuelExhausted 0), d) ∧ d.Ended ∧
      Cursor.new.Converses [(⟨callOnce, #[], ⟨some 0, none⟩⟩, .failed (.fuelExhausted 0)),
        (⟨callOnce, #[], {}⟩, .exhausted)] d ∧
      [((⟨callOnce, #[], ⟨some 0, none⟩⟩, .failed (.fuelExhausted 0)) : Question × Answer),
        (⟨callOnce, #[], {}⟩, .exhausted)].Pairwise fun r s => r.2.Ends → s.2 = .exhausted := by
  obtain ⟨hended, hpairwise⟩ := ended_searches_stay_ended_iff .new
  have hask : Cursor.new.ask? ⟨callOnce, #[], ⟨some 0, none⟩⟩ 0 =
      some (.failed (.fuelExhausted 0), ⟨0, .zero, #[], ∅, .exhausted⟩) := by
    simp [Cursor.ask?, Cursor.next?, callOnce_begin, Cursor.run]
  have hastray : ¬ Cursor.new.Astray callOnce := by
    intro hastray
    have hnone := hastray.unresolved
    rw [callOnce_resolve.1] at hnone
    cases hnone
  have hd := (hended _ _ _ _ hask (.failed _)).mpr hastray
  have hconverses := Cursor.Converses.cons hask (.cons (hd.ask ⟨callOnce, #[], {}⟩ 0) .nil)
  refine ⟨_, hask, hd, hconverses, hpairwise _ _ hconverses ?_⟩
  intro r hr
  have hprogram : r.1.program = callOnce := by
    rcases List.mem_cons.mp hr with rfl | hr
    · rfl
    · rw [List.mem_singleton.mp hr]
  rw [hprogram, callOnce_resolve.1]
  rfl

/-- The program that does nothing but return is linked, although it says nowhere where to begin: so
its search fails and is as fresh as before, and fails again. -/
theorem search_fails_afresh_ret :
    ∃ program, Program.link [.ret] [] "" = .ok program ∧ ∀ patience,
      Cursor.new.next? program #[] {} patience = some (.failed (.invalidJump nowhere), .new) ∧
      Cursor.new.stage = .fresh := by
  refine ⟨⟨#[.ret], ∅, [], ""⟩, rfl, fun patience => ⟨?_, rfl⟩⟩
  apply Cursor.Astray.next?
  exact ⟨rfl, by simp [Program.resolve?]⟩

end PatternMachine
