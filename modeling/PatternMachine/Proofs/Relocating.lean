import PatternMachine.Proofs.Answers

/-!
# Programs with and without messages

A program that sends messages is a longer one: its instructions, labels and pending calls have other
offsets than in the program without the messages.  Nothing else is different.

* `Program.quiet` — the instructions of a list that do more than send a message.
* `Program.offset` — where an instruction stands when the messages before it are left out.
* `Cursor.relocate` — a cursor with other offsets in place of its own.
* `Quietens` — a program that is another one without its messages.
* `Cursor.replies?` — the answers to a number of questions, with the cursors after them.

Principal results: `step_relocate` — an instruction has the same effect in both programs, but for
offsets.  `Ongoing.run_relocate`, `Standing.next?_relocate` — so have runs and questions, although
the messages take steps of their own.  `Standing.replies` — every sequence of questions has the same
answers.
-/

set_option autoImplicit false

namespace PatternMachine

/-- Whether an instruction does nothing but send a message. -/
def Instruction.isTrace : Instruction → Bool
  | .trace _ => true
  | _ => false

namespace Program

variable {program : Program} {a : Nat} {i : Instruction}

/-! ## Offsets -/

/-- The instructions that do more than send a message. -/
def quiet (code : List Instruction) : List Instruction := code.filter fun i => !i.isTrace

/-- The offset of an instruction when the messages before it are left out. -/
def offset (program : Program) (a : Nat) : Nat := (quiet (program.code.toList.take a)).length

@[simp] theorem quiet_append (is js : List Instruction) : quiet (is ++ js) = quiet is ++ quiet js :=
  List.filter_append ..

@[simp] theorem offset_zero : program.offset 0 = 0 := rfl

theorem offset_succ (h : program.code[a]? = some i) :
    program.offset (a + 1) = program.offset a + (quiet [i]).length := by
  rw [← Array.getElem?_toList] at h
  rw [offset, List.take_add_one, h, quiet_append, List.length_append]
  rfl

theorem offset_succ_of_isTrace (h : program.code[a]? = some i) (hi : i.isTrace = true) :
    program.offset (a + 1) = program.offset a := by
  simp [offset_succ h, quiet, hi]

theorem offset_succ_of_not_isTrace (h : program.code[a]? = some i) (hi : i.isTrace = false) :
    program.offset (a + 1) = program.offset a + 1 := by
  simp [offset_succ h, quiet, hi]

/-- An instruction stands at its offset when the messages are left out. -/
theorem getElem?_quiet (h : program.code[a]? = some i) (hi : i.isTrace = false) :
    (quiet program.code.toList)[program.offset a]? = some i := by
  rw [← Array.getElem?_toList] at h
  obtain ⟨ha, hget⟩ := List.getElem?_eq_some_iff.mp h
  have hsplit : program.code.toList =
      program.code.toList.take a ++ ([i] ++ program.code.toList.drop (a + 1)) := by
    rw [List.singleton_append, ← hget, ← List.drop_eq_getElem_cons ha, List.take_append_drop]
  have hquiet : quiet program.code.toList = quiet (program.code.toList.take a) ++
      ([i] ++ quiet (program.code.toList.drop (a + 1))) := by
    have hi' : quiet [i] = [i] := by simp [quiet, hi]
    rw [← hi', ← quiet_append, ← quiet_append, ← hsplit]
  rw [hquiet, offset, List.getElem?_append_right (Nat.le_refl _), Nat.sub_self]
  rfl

end Program

open Program

/-! ## Relocation -/

/-- A pending call that comes back elsewhere. -/
def Frame.relocate (f : Nat → Nat) (frame : Frame) : Frame :=
  { frame with returnTo := f frame.returnTo }

/-- A cursor with other offsets. -/
def Cursor.relocate (f : Nat → Nat) (c : Cursor) : Cursor :=
  { c with ip := f c.ip, frames := c.frames.map (Frame.relocate f) }

/-- A step that leads to a cursor with other offsets. -/
def Step.relocate (f : Nat → Nat) : Step → Step
  | .running c => .running (c.relocate f)
  | .halted c answer => .halted (c.relocate f) answer

/-- `q` is `p` without its messages. -/
structure Quietens (p q : Program) : Prop where
  code : q.code.toList = quiet p.code.toList
  captures : q.captures = p.captures
  resolve : ∀ label, q.resolve? label = (p.resolve? label).map p.offset

namespace Cursor

variable {p q : Program} {subject : Subject} {depth : Option UInt32} {c : Cursor} {f : Nat → Nat}

@[simp] theorem relocate_ip : (c.relocate f).ip = f c.ip := rfl

@[simp] theorem relocate_registers : (c.relocate f).registers = c.registers := rfl

@[simp] theorem relocate_frames : (c.relocate f).frames = c.frames.map (Frame.relocate f) := rfl

@[simp] theorem relocate_stage : (c.relocate f).stage = c.stage := rfl

@[simp] theorem relocate_group? (id : NodeId) : (c.relocate f).group? id = c.group? id := rfl

@[simp] theorem relocate_depth : (c.relocate f).depth = c.depth := Array.size_map

@[simp] theorem relocate_report (slots : List CaptureSlot) :
    (c.relocate f).report slots = c.report slots := rfl

theorem relocate_new (hf : f 0 = 0) : Cursor.new.relocate f = .new := by
  simp [new, relocate, hf]

theorem withGroup_relocate (id : NodeId) (g : Option GroupState) (error : RuntimeError) :
    (c.relocate f).withGroup id g error = (c.withGroup id g error).relocate f := by
  cases g <;> rfl

theorem jump_relocate (h : Quietens p q) (target : Label) :
    (c.relocate p.offset).jump q target = (c.jump p target).relocate p.offset := by
  unfold jump
  rw [h.resolve]
  cases p.resolve? target <;> rfl

theorem eval_relocate (condition : Condition) :
    condition.eval subject (c.relocate f) = condition.eval subject c := by
  cases condition <;> rfl

theorem reachedDepth?_relocate : (c.relocate f).reachedDepth? depth = c.reachedDepth? depth := by
  simp [reachedDepth?]

/-- An instruction has the same effect in the program without messages, but for offsets. -/
theorem execute_relocate (h : Quietens p q) (here : Nat) (i : Instruction) :
    (c.relocate p.offset).execute q subject depth (p.offset here) i =
      (c.execute p subject depth here i).relocate p.offset := by
  cases i with
  | block label comment | trace message | set r operand | enter group capturing => rfl
  | exhausted => rfl
  | yield =>
    simp only [execute, h.captures, relocate_report]
    rfl
  | goto target => exact jump_relocate h target
  | leave group | countUp group | pushPos group | popPos group => exact withGroup_relocate ..
  | add r operand | sub r operand =>
    simp only [execute, relocate_registers]
    rw [apply_ite (Step.relocate p.offset)]
    rfl
  | branch condition target =>
    simp only [execute, eval_relocate]
    split
    · exact jump_relocate h target
    · rfl
    · rfl
  | call target =>
    simp only [execute, reachedDepth?_relocate]
    split
    · rfl
    · rw [← jump_relocate h]
      simp [relocate, Frame.relocate]
  | ret =>
    simp only [execute, relocate_frames, Array.back?_map]
    cases c.frames.back? with
    | none => rfl
    | some frame => simp [Step.relocate, relocate, Frame.relocate]
  | countDown group =>
    simp only [execute, relocate_group?]
    split
    · exact withGroup_relocate ..
    · rfl

/-- **A message leaves the cursor where it is**, when the messages are left out. -/
theorem step_of_isTrace {i : Instruction} (hi : p.code[c.ip]? = some i)
    (htrace : i.isTrace = true) :
    ∃ d, c.step p subject depth = .running d ∧ d.relocate p.offset = c.relocate p.offset := by
  cases i with
  | trace message =>
    refine ⟨{ c with ip := c.ip + 1 }, by simp only [step, hi, execute], ?_⟩
    simp [relocate, offset_succ_of_isTrace hi htrace]
  | _ => cases htrace

/-- **Every other instruction has the same effect in both programs**, but for offsets. -/
theorem step_relocate (h : Quietens p q) {i : Instruction} (hi : p.code[c.ip]? = some i)
    (htrace : i.isTrace = false) :
    (c.relocate p.offset).step q subject depth = (c.step p subject depth).relocate p.offset := by
  have hq : q.code[p.offset c.ip]? = some i := by
    rw [← Array.getElem?_toList, h.code]
    exact getElem?_quiet hi htrace
  have hmoved : { c.relocate p.offset with ip := p.offset c.ip + 1 } =
      Cursor.relocate p.offset { c with ip := c.ip + 1 } := by
    rw [← offset_succ_of_not_isTrace hi htrace]
    rfl
  simp only [step, relocate_ip, hi, hq]
  rw [hmoved]
  exact execute_relocate h ..

theorem begin_relocate (h : Quietens p q) :
    (c.relocate p.offset).begin q = (c.begin p).relocate p.offset := by
  unfold begin
  rw [relocate_stage, h.resolve]
  cases c.stage with
  | exhausted | suspended => rfl
  | fresh => cases p.resolve? .search <;> rfl

end Cursor

/-! ## Runs and questions -/

variable {p q : Program} {subject : Subject} {ceiling : PerNode Nat} {depth : Option UInt32}
variable {c d : Cursor} {ms : List Match}

/-- A search on its way is at an instruction. -/
theorem Ongoing.instruction (h : Ongoing p subject ceiling c ms) :
    ∃ i, p.code[c.ip]? = some i := by
  have houtcome := Outcome.step h none
  cases hi : p.code[c.ip]? with
  | some i => exact ⟨i, rfl⟩
  | none =>
    simp only [Cursor.step, hi, Cursor.fail] at houtcome
    cases houtcome

/-- **A run is a run of the program without messages**, which takes no more steps. -/
theorem Ongoing.run_relocate (h : Ongoing p subject ceiling c ms) (hq : Quietens p q) (n : Nat) :
    ∃ m ≤ n, (c.relocate p.offset).run q subject depth m =
      (c.run p subject depth n).relocate p.offset := by
  induction n generalizing c with
  | zero => exact ⟨0, Nat.le_refl _, rfl⟩
  | succ n ih =>
    obtain ⟨i, hi⟩ := h.instruction
    have houtcome := Outcome.step h depth
    cases htrace : i.isTrace with
    | true =>
      obtain ⟨d, hstep, hsame⟩ := Cursor.step_of_isTrace hi htrace
      rw [hstep] at houtcome
      cases houtcome with
      | running hd =>
        obtain ⟨m, hm, hrun⟩ := ih hd
        refine ⟨m, by omega, ?_⟩
        rw [← hsame, hrun, Cursor.run, hstep]
    | false =>
      have hstep : (c.relocate p.offset).step q subject depth =
          (c.step p subject depth).relocate p.offset := Cursor.step_relocate hq hi htrace
      cases hs : c.step p subject depth with
      | halted d answer =>
        rw [hs] at hstep
        refine ⟨1, by omega, ?_⟩
        simp only [Cursor.run, hs, hstep, Step.relocate]
      | running d =>
        rw [hs] at hstep houtcome
        cases houtcome with
        | running hd =>
          obtain ⟨m, hm, hrun⟩ := ih hd
          refine ⟨m + 1, by omega, ?_⟩
          simp only [Cursor.run, hs, hstep, Step.relocate]
          exact hrun

/-- **A question has the same answer in the program without messages.** -/
theorem Standing.next?_relocate (h : Standing p subject ceiling c ms) (hq : Quietens p q)
    (depth : Option UInt32) :
    ∃ enough answer d, ∀ patience, enough ≤ patience →
      c.next? p subject ⟨none, depth⟩ patience = some (answer, d) ∧
        (c.relocate p.offset).next? q subject ⟨none, depth⟩ patience =
          some (answer, d.relocate p.offset) := by
  have hbegin' : (c.relocate p.offset).begin q = (c.begin p).relocate p.offset :=
    Cursor.begin_relocate hq
  rcases h.begin with ⟨_, _, hbegin⟩ | ⟨b, hbegin, hongoing⟩
  · rw [hbegin] at hbegin'
    refine ⟨0, .exhausted, c, ?_⟩
    intro patience _
    simp only [Cursor.next?, hbegin, hbegin', Step.relocate, and_self]
  · obtain ⟨n, d, answer, hrun⟩ := hongoing.halts depth
    obtain ⟨m, hm, hrun'⟩ := hongoing.run_relocate hq n
    rw [hrun] at hrun'
    rw [hbegin] at hbegin'
    refine ⟨n, answer, d, ?_⟩
    intro patience hle
    have hle' : m ≤ patience := Nat.le_trans hm hle
    simp only [Cursor.next?, hbegin, hbegin', Step.relocate, Cursor.run_halted_mono hle hrun,
      Cursor.run_halted_mono hle' hrun', and_self]

/-- The answers to a number of questions that are asked one after the other, each with the cursor
after it; nothing if patience ends before. -/
def Cursor.replies? (program : Program) (subject : Subject) (limits : Limits) (patience : Nat) :
    Nat → Cursor → Option (List (Answer × Cursor))
  | 0, _ => some []
  | n + 1, c =>
    (c.next? program subject limits patience).bind fun r =>
      (replies? program subject limits patience n r.2).map (r :: ·)

/-- **Every sequence of questions has the same answers in the program without messages**, and leaves
the same cursors but for offsets. -/
theorem Standing.replies (h : Standing p subject ceiling c ms) (hq : Quietens p q)
    (depth : Option UInt32) (n : Nat) :
    ∃ enough rs, ∀ patience, enough ≤ patience →
      c.replies? p subject ⟨none, depth⟩ patience n = some rs ∧
        (c.relocate p.offset).replies? q subject ⟨none, depth⟩ patience n =
          some (rs.map fun r => (r.1, r.2.relocate p.offset)) := by
  induction n generalizing c ms with
  | zero => exact ⟨0, [], fun _ _ => ⟨rfl, rfl⟩⟩
  | succ n ih =>
    obtain ⟨enough, answer, d, hnext⟩ := h.next?_relocate hq depth
    obtain ⟨⟨ms', hd⟩, _⟩ := h.of_next? (hnext enough (Nat.le_refl _)).1
    obtain ⟨enough', rs, hlater⟩ := ih hd
    refine ⟨max enough enough', (answer, d) :: rs, ?_⟩
    intro patience hle
    obtain ⟨hp, hq'⟩ := hnext patience (by omega)
    obtain ⟨hps, hqs⟩ := hlater patience (by omega)
    simp [Cursor.replies?, hp, hq', hps, hqs]

end PatternMachine
