import PatternMachine.Search.Run

/-!
# What a search reports

Which groups a program reports makes no difference to where its search goes.

* `Program.reporting` — the same program with other slots.
* `Cursor.Finds` — all matches that a search finds, each with the cursor after it.

Principal results: `next?_reporting` — a question has the same answer, but for what the match
reports.  `report_of_next?` — so a match reports what the cursor after it has recorded.
`Finds.reporting` — so a whole search passes the same cursors.
-/

set_option autoImplicit false

namespace PatternMachine

variable {program : Program} {subject : Subject} {slots : List CaptureSlot}

/-- The same program with other slots. -/
def Program.reporting (program : Program) (slots : List CaptureSlot) : Program :=
  { program with captures := slots }

@[simp] theorem Program.reporting_captures (program : Program) :
    program.reporting program.captures = program := rfl

@[simp] theorem Program.code_reporting : (program.reporting slots).code = program.code := rfl

@[simp] theorem Program.resolve?_reporting (label : Label) :
    (program.reporting slots).resolve? label = program.resolve? label := rfl

/-- The answer with the match that the cursor after it shows under other slots. -/
def Answer.reporting (slots : List CaptureSlot) (c : Cursor) : Answer → Answer
  | .found _ => .found (c.report slots)
  | answer => answer

/-- The step with the match that the cursor after it shows under other slots. -/
def Step.reporting (slots : List CaptureSlot) : Step → Step
  | .running c => .running c
  | .halted c answer => .halted c (answer.reporting slots c)

namespace Cursor

variable {c d : Cursor} {limits : Limits} {depth : Option UInt32} {patience : Nat}

/-! ## Steps -/

theorem jump_reporting (target : Label) :
    c.jump (program.reporting slots) target = (c.jump program target).reporting slots := by
  simp only [jump, Program.resolve?_reporting]
  cases program.resolve? target <;> rfl

theorem withGroup_reporting (id : NodeId) (g : Option GroupState) (e : RuntimeError) :
    c.withGroup id g e = (c.withGroup id g e).reporting slots := by
  cases g <;> rfl

/-- **An instruction has the same effect whatever is reported**, and a match is reported as the
cursor after it shows it. -/
theorem execute_reporting (here : Nat) (i : Instruction) :
    c.execute (program.reporting slots) subject depth here i =
      (c.execute program subject depth here i).reporting slots := by
  cases i with
  | goto target => exact jump_reporting target
  | leave group | countUp group | pushPos group | popPos group => exact withGroup_reporting ..
  | add r operand | sub r operand =>
    simp only [execute]
    split <;> rfl
  | branch condition target =>
    simp only [execute]
    split
    · exact jump_reporting target
    · rfl
    · rfl
  | call target =>
    simp only [execute]
    split
    · rfl
    · exact jump_reporting target
  | ret =>
    simp only [execute]
    split <;> rfl
  | countDown group =>
    simp only [execute]
    split
    · exact withGroup_reporting ..
    · rfl
  | _ => rfl

theorem step_reporting :
    c.step (program.reporting slots) subject depth =
      (c.step program subject depth).reporting slots := by
  simp only [step, Program.code_reporting]
  cases program.code[c.ip]? with
  | some i => exact execute_reporting ..
  | none => rfl

/-! ## Questions -/

theorem run_reporting (n : Nat) :
    c.run (program.reporting slots) subject depth n =
      (c.run program subject depth n).reporting slots := by
  induction n generalizing c with
  | zero => rfl
  | succ n ih =>
    rw [run, run, step_reporting]
    cases c.step program subject depth with
    | running d => exact ih
    | halted d answer => rfl

theorem begin_reporting :
    c.begin (program.reporting slots) = (c.begin program).reporting slots := by
  simp only [begin, Program.resolve?_reporting]
  cases c.stage with
  | exhausted | suspended => rfl
  | fresh => cases program.resolve? .search <;> rfl

/-- **A question has the same answer whatever is reported**, and the match is the one that the
cursor after it shows. -/
theorem next?_reporting :
    c.next? (program.reporting slots) subject limits patience =
      (c.next? program subject limits patience).map fun r => (r.1.reporting slots r.2, r.2) := by
  unfold next?
  rw [begin_reporting]
  cases c.begin program with
  | halted d answer => rfl
  | running d =>
    cases limits.fuel with
    | some fuel =>
      simp only [Step.reporting, run_reporting]
      cases d.run program subject limits.depth fuel.toNat <;> rfl
    | none =>
      simp only [Step.reporting, run_reporting]
      cases d.run program subject limits.depth patience <;> rfl

/-- **A match reports what the cursor after it has recorded.** -/
theorem report_of_next? {m : Match}
    (h : c.next? program subject limits patience = some (.found m, d)) :
    m = d.report program.captures := by
  have hsame : c.next? (program.reporting program.captures) subject limits patience =
      (c.next? program subject limits patience).map fun r =>
        (r.1.reporting program.captures r.2, r.2) := next?_reporting
  rw [Program.reporting_captures, h] at hsame
  simpa [Answer.reporting] using hsame

/-- With enough patience, there is one answer. -/
theorem next?_unique {n : Nat} {r r' : Answer × Cursor}
    (h : c.next? program subject limits patience = some r)
    (h' : c.next? program subject limits n = some r') : r = r' := by
  have hmax := next?_mono (Nat.le_max_left patience n) h
  rw [next?_mono (Nat.le_max_right patience n) h'] at hmax
  exact (Option.some.inj hmax).symm

/-! ## Searches -/

/-- A search that is asked for matches without limits finds these, one after the other, each with
the cursor after it, and then says that there is no further one. -/
inductive Finds (program : Program) (subject : Subject) : Cursor → List (Match × Cursor) → Prop
  | none {c d : Cursor} {patience : Nat}
      (hnext : c.next? program subject {} patience = some (.exhausted, d)) :
      Finds program subject c []
  | more {c d : Cursor} {m : Match} {patience : Nat} {rest : List (Match × Cursor)}
      (hnext : c.next? program subject {} patience = some (.found m, d))
      (h : Finds program subject d rest) : Finds program subject c ((m, d) :: rest)

variable {rs rs' : List (Match × Cursor)}

/-- A search finds one list of matches. -/
theorem Finds.unique (h : c.Finds program subject rs) (h' : c.Finds program subject rs') :
    rs = rs' := by
  induction h generalizing rs' with
  | none hnext =>
    cases h' with
    | none => rfl
    | more hnext' => cases next?_unique hnext hnext'
  | more hnext _ ih =>
    cases h' with
    | none hnext' => cases next?_unique hnext hnext'
    | more hnext' h' =>
      cases next?_unique hnext hnext'
      rw [ih h']

/-- **A whole search passes the same cursors whatever is reported.** -/
theorem Finds.reporting (h : c.Finds program subject rs) (slots : List CaptureSlot) :
    c.Finds (program.reporting slots) subject (rs.map fun r => (r.2.report slots, r.2)) := by
  induction h with
  | none hnext => exact .none (by rw [next?_reporting, hnext]; rfl)
  | more hnext _ ih => exact .more (by rw [next?_reporting, hnext]; rfl) ih

/-- Every match of a search reports what the cursor after it has recorded. -/
theorem Finds.report (h : c.Finds program subject rs) {r : Match × Cursor} (hr : r ∈ rs) :
    r.1 = r.2.report program.captures := by
  induction h with
  | none => cases hr
  | more hnext _ ih =>
    rcases List.mem_cons.mp hr with rfl | hr
    · exact report_of_next? hnext
    · exact ih hr

end Cursor

end PatternMachine
