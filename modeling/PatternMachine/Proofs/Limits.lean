import PatternMachine.Proofs.Answers

/-!
# What limits change

Limits end a search, and do nothing else. This holds for every program, also for those that no
pattern is compiled to, wherever a search stands.

* `Loosens`, `Limits.Loosens` — a limit that is absent or not smaller, and limits that are so.
* `Answer.OfLimit` — the answers that only limits cause.
* `Cursor.PassesUnder` — the cursors that a search comes by while a limit on pending calls is in
  force, within questions and between them.

Principal results: `step_of_loosens`, `run_of_loosens` — a step, and so a run, that the limit on
calls does not stop is the same under a looser one.  `step_frames_le` — no step brings the pending
calls over their limit.  `limits_only_end_searches` — what this means for the answers.
-/

set_option autoImplicit false

namespace PatternMachine

/-! ## Looser limits -/

/-- A limit is looser if it is absent, or not smaller than the other one. -/
def Loosens : (loose strict : Option UInt32) → Prop
  | none, _ => True
  | some _, none => False
  | some loose, some strict => strict ≤ loose

/-- Limits are looser if each of them is. -/
structure Limits.Loosens (loose strict : Limits) : Prop where
  fuel : PatternMachine.Loosens loose.fuel strict.fuel
  depth : PatternMachine.Loosens loose.depth strict.depth

/-- The answers that are given only because of a limit. -/
inductive Answer.OfLimit : Answer → Prop
  | fuel (limit : UInt32) : OfLimit (.failed (.fuelExhausted limit))
  | depth (limit : UInt32) : OfLimit (.failed (.callDepthExceeded limit))

/-- The cursor that a step leads to, wherever it leads. -/
def Step.cursor : Step → Cursor
  | .running c => c
  | .halted c _ => c

/-- The answer that a step gives, if it halts. -/
def Step.answer? : Step → Option Answer
  | .running _ => none
  | .halted _ answer => some answer

variable {program : Program} {subject : Subject} {loose strict depth : Option UInt32}
variable {c d e : Cursor}

namespace Cursor

/-- A limit that is looser is not reached before. -/
theorem reachedDepth?_of_loosens (hloosens : Loosens loose strict)
    (h : c.reachedDepth? strict = none) : c.reachedDepth? loose = none := by
  cases loose with
  | none => rfl
  | some loose =>
    cases strict with
    | none => exact hloosens.elim
    | some strict =>
      have hle : strict.toNat ≤ loose.toNat := hloosens
      simp only [reachedDepth?, Option.filter_some, ite_eq_right_iff, reduceCtorEq,
        decide_eq_true_eq, imp_false] at h ⊢
      omega

/-! ## One step -/

theorem execute_of_loosens (hloosens : Loosens loose strict) {here : Nat} {i : Instruction}
    (h : ∀ limit, (c.execute program subject strict here i).answer? ≠
      some (.failed (.callDepthExceeded limit))) :
    c.execute program subject loose here i = c.execute program subject strict here i := by
  cases i with
  | call target =>
    -- The one instruction that asks for the limit.
    cases hreached : c.reachedDepth? strict with
    | some limit =>
      simp only [execute, hreached] at h
      exact absurd rfl (h limit)
    | none => simp only [execute, hreached, reachedDepth?_of_loosens hloosens hreached]
  | _ => rfl

/-- **A step that the limit on calls does not stop is the same under a looser one.** -/
theorem step_of_loosens (hloosens : Loosens loose strict)
    (h : ∀ limit, (c.step program subject strict).answer? ≠
      some (.failed (.callDepthExceeded limit))) :
    c.step program subject loose = c.step program subject strict := by
  simp only [step] at h ⊢
  cases hi : program.code[c.ip]? with
  | none => rfl
  | some i =>
    simp only [hi] at h
    exact execute_of_loosens hloosens h

theorem cursor_frames_jump (c : Cursor) (target : Label) :
    (c.jump program target).cursor.frames = c.frames := by
  unfold jump
  split <;> rfl

theorem cursor_frames_withGroup (c : Cursor) (id : NodeId) (g : Option GroupState)
    (error : RuntimeError) : (c.withGroup id g error).cursor.frames = c.frames := by
  cases g <;> rfl

theorem execute_frames_le {limit : UInt32} {here : Nat} {i : Instruction}
    (h : c.frames.size ≤ limit.toNat) :
    (c.execute program subject (some limit) here i).cursor.frames.size ≤ limit.toNat := by
  cases i with
  | call target =>
    simp only [execute]
    split
    · exact h
    · rename_i hreached
      -- The limit is not reached, so there is room for one more call.
      have hroom : c.frames.size < limit.toNat := by
        simpa [reachedDepth?, Option.filter_some] using hreached
      rw [cursor_frames_jump, Array.size_push]
      exact hroom
  | ret =>
    simp only [execute]
    split
    · simp only [Step.cursor, Array.size_pop]
      omega
    · exact h
  | branch condition target =>
    simp only [execute]
    split
    · rwa [cursor_frames_jump]
    · exact h
    · exact h
  | goto target => rwa [execute, cursor_frames_jump]
  | add r operand | sub r operand =>
    simp only [execute]
    split <;> exact h
  | leave group | countUp group | pushPos group | popPos group =>
    rwa [execute, cursor_frames_withGroup]
  | countDown group =>
    simp only [execute]
    split
    · rwa [cursor_frames_withGroup]
    · exact h
  | _ => exact h

/-- **No step brings the pending calls over their limit.** -/
theorem step_frames_le {limit : UInt32} (h : c.frames.size ≤ limit.toNat) :
    (c.step program subject (some limit)).cursor.frames.size ≤ limit.toNat := by
  simp only [step]
  split
  · exact execute_frames_le h
  · exact h

theorem jump_answer?_ne_fuel (c : Cursor) (target : Label) (limit : UInt32) :
    (c.jump program target).answer? ≠ some (.failed (.fuelExhausted limit)) := by
  unfold jump
  split <;> rintro ⟨⟩

theorem withGroup_answer?_ne_fuel (c : Cursor) (id : NodeId) (g : Option GroupState)
    {error : RuntimeError} {limit : UInt32} (h : error ≠ .fuelExhausted limit) :
    (c.withGroup id g error).answer? ≠ some (.failed (.fuelExhausted limit)) := by
  cases g with
  | some g => rintro ⟨⟩
  | none => simpa [withGroup, fail, Step.answer?] using h

theorem execute_answer?_ne_fuel (limit : UInt32) (here : Nat) (i : Instruction) :
    (c.execute program subject depth here i).answer? ≠ some (.failed (.fuelExhausted limit)) := by
  cases i with
  | call target =>
    simp only [execute]
    split
    · rintro ⟨⟩
    · exact jump_answer?_ne_fuel _ target limit
  | ret | add r operand | sub r operand =>
    simp only [execute]
    split <;> rintro ⟨⟩
  | branch condition target =>
    simp only [execute]
    split
    · exact jump_answer?_ne_fuel c target limit
    · rintro ⟨⟩
    · rename_i error herror
      cases condition with
      | count group comparison value =>
        simp only [Condition.eval] at herror
        split at herror
        · cases herror
        · cases herror
          rintro ⟨⟩
      | _ => cases herror
  | goto target => exact jump_answer?_ne_fuel c target limit
  | leave group | countUp group | pushPos group | popPos group =>
    exact withGroup_answer?_ne_fuel c group _ (by rintro ⟨⟩)
  | countDown group =>
    simp only [execute]
    split
    · exact withGroup_answer?_ne_fuel c group _ (by rintro ⟨⟩)
    · rintro ⟨⟩
  | _ => rintro ⟨⟩

/-- The program itself does not run out of fuel. -/
theorem step_answer?_ne_fuel (limit : UInt32) :
    (c.step program subject depth).answer? ≠ some (.failed (.fuelExhausted limit)) := by
  simp only [step]
  split
  · exact execute_answer?_ne_fuel limit _ _
  · rintro ⟨⟩

/-! ## Runs -/

/-- **A run that the limit on calls does not stop is the same under a looser one.** -/
theorem run_of_loosens (hloosens : Loosens loose strict) {n : Nat}
    (h : ∀ limit, (c.run program subject strict n).answer? ≠
      some (.failed (.callDepthExceeded limit))) :
    c.run program subject loose n = c.run program subject strict n := by
  induction n generalizing c with
  | zero => rfl
  | succ n ih =>
    have hstep : c.step program subject loose = c.step program subject strict := by
      refine step_of_loosens hloosens fun limit hanswer => h limit ?_
      rw [run]
      split
      · rename_i d hd
        rw [hd] at hanswer
        cases hanswer
      · rename_i d answer hd
        rwa [hd] at hanswer
    rw [run, run, hstep]
    rw [run] at h
    split
    · rename_i d hd
      rw [hd] at h
      exact ih h
    · rfl

/-- However long a run is, the pending calls stay within their limit. -/
theorem run_frames_le {limit : UInt32} (n : Nat) (h : c.frames.size ≤ limit.toNat) :
    (c.run program subject (some limit) n).cursor.frames.size ≤ limit.toNat := by
  induction n generalizing c with
  | zero => exact h
  | succ n ih =>
    have hstep : (c.step program subject (some limit)).cursor.frames.size ≤ limit.toNat :=
      step_frames_le h
    rw [run]
    split
    · rename_i d hd
      rw [hd] at hstep
      exact ih hstep
    · rename_i d answer hd
      rwa [hd] at hstep

theorem run_answer?_ne_fuel (limit : UInt32) (n : Nat) :
    (c.run program subject depth n).answer? ≠ some (.failed (.fuelExhausted limit)) := by
  induction n generalizing c with
  | zero => exact nofun
  | succ n ih =>
    rw [run]
    split
    · exact ih
    · rename_i d answer hd
      have hstep : (c.step program subject depth).answer? ≠ some (.failed (.fuelExhausted limit)) :=
        step_answer?_ne_fuel limit
      rwa [hd] at hstep

/-! ## Questions -/

theorem begin_frames (program : Program) (c : Cursor) :
    (c.begin program).cursor.frames = c.frames := by
  unfold begin
  split
  · rfl
  · rfl
  · split <;> rfl

theorem begin_answer?_ne_limit (c : Cursor) {answer : Answer} (h : answer.OfLimit) :
    (c.begin program).answer? ≠ some answer := by
  unfold begin
  split
  · cases h <;> exact nofun
  · exact nofun
  · split
    · exact nofun
    · cases h <;> exact nofun

/-- An answer is there from the begin, or after some steps, for which the fuel has to suffice, or
the fuel is used up. -/
theorem next?_eq_some {limits : Limits} {patience : Nat} {answer : Answer}
    (h : c.next? program subject limits patience = some (answer, d)) :
    c.begin program = .halted d answer ∨
      (∃ b n, c.begin program = .running b ∧
        b.run program subject limits.depth n = .halted d answer ∧
        ∀ fuel, limits.fuel = some fuel → n = fuel.toNat) ∨
      ∃ b e fuel, c.begin program = .running b ∧ limits.fuel = some fuel ∧
        b.run program subject limits.depth fuel.toNat = .running e ∧
        answer = .failed (.fuelExhausted fuel) ∧ d = { e with stage := .exhausted } := by
  unfold next? at h
  split at h
  · rename_i hbegin
    cases h
    exact .inl hbegin
  · rename_i b hbegin
    right
    split at h
    · rename_i fuel hfuel
      split at h
      · rename_i hrun
        cases h
        refine .inl ⟨b, _, hbegin, hrun, fun fuel' hfuel' => ?_⟩
        cases hfuel.symm.trans hfuel'
        rfl
      · rename_i e hrun
        cases h
        exact .inr ⟨b, e, fuel, hbegin, hfuel, hrun, rfl, rfl⟩
    · rename_i hfuel
      split at h
      · rename_i hrun
        cases h
        refine .inl ⟨b, _, hbegin, hrun, fun fuel hfuel' => ?_⟩
        cases hfuel.symm.trans hfuel'
      · cases h

/-- A search that halts within its fuel gives its answer. -/
theorem next?_of_run {limits : Limits} {n patience : Nat} {answer : Answer}
    (hbegin : c.begin program = .running e)
    (hrun : e.run program subject limits.depth n = .halted d answer)
    (hfuel : ∀ fuel, limits.fuel = some fuel → n ≤ fuel.toNat) (hpatience : n ≤ patience) :
    c.next? program subject limits patience = some (answer, d) := by
  simp only [next?, hbegin]
  split
  · rename_i fuel hlimit
    rw [run_halted_mono (hfuel fuel hlimit) hrun]
  · rw [run_halted_mono hpatience hrun]

/-- **An answer that no limit causes is given under looser limits, too.** -/
theorem next?_of_loosens {strict loose : Limits} {patience : Nat} {answer : Answer}
    (hloosens : loose.Loosens strict)
    (h : c.next? program subject strict patience = some (answer, d)) (hanswer : ¬ answer.OfLimit) :
    ∃ enough, ∀ patience, enough ≤ patience →
      c.next? program subject loose patience = some (answer, d) := by
  rcases next?_eq_some h with hbegin | ⟨b, n, hbegin, hrun, hfuel⟩ | ⟨_, _, fuel, _, _, _, rfl, _⟩
  · exact ⟨0, fun _ _ => by simp only [next?, hbegin]⟩
  · refine ⟨n, fun patience hpatience => next?_of_run hbegin ?_ ?_ hpatience⟩
    · rw [run_of_loosens hloosens.depth, hrun]
      intro limit hlimit
      rw [hrun] at hlimit
      cases hlimit
      exact hanswer (.depth limit)
    · intro fuel' hfuel'
      have hloose := hloosens.fuel
      cases hstrict : strict.fuel with
      | none =>
        rw [hfuel', hstrict] at hloose
        exact hloose.elim
      | some fuel =>
        rw [hfuel', hstrict] at hloose
        rw [hfuel fuel hstrict]
        exact hloose
  · exact absurd (.fuel fuel) hanswer

/-- **Fuel that does not suffice does not suffice when it is less.** -/
theorem next?_of_less_fuel {fuel fuel' : UInt32} {patience : Nat}
    (h : c.next? program subject ⟨some fuel, depth⟩ patience =
      some (.failed (.fuelExhausted fuel), d)) (hle : fuel' ≤ fuel) (patience' : Nat) :
    ∃ d', c.next? program subject ⟨some fuel', depth⟩ patience' =
      some (.failed (.fuelExhausted fuel'), d') := by
  rcases next?_eq_some h with hbegin | ⟨b, n, _, hrun, _⟩ | ⟨b, e, _, hbegin, hfuel, hrun, _, _⟩
  · exact absurd (by rw [hbegin]; rfl) (begin_answer?_ne_limit c (.fuel fuel))
  · exact absurd (by rw [hrun]; rfl) (run_answer?_ne_fuel fuel n)
  · cases hfuel
    -- A run that halted within less fuel would have halted before.
    cases hrun' : b.run program subject depth fuel'.toNat with
    | running d' => exact ⟨{ d' with stage := .exhausted }, by simp only [next?, hbegin, hrun']⟩
    | halted d' answer =>
      have hhalted : b.run program subject depth fuel.toNat = .halted d' answer :=
        run_halted_mono hle hrun'
      rw [hhalted] at hrun
      cases hrun

/-- However far the answer to a question is, the pending calls stay within their limit. -/
theorem begin_run_frames_le {limit : UInt32} (hbegin : c.begin program = .running d) (n : Nat)
    (h : c.frames.size ≤ limit.toNat) :
    (d.run program subject (some limit) n).cursor.frames.size ≤ limit.toNat := by
  have hframes := begin_frames program c
  rw [hbegin] at hframes
  exact run_frames_le n (by rwa [← hframes] at h)

theorem next?_frames_le {limit : UInt32} {fuel : Option UInt32} {patience : Nat} {answer : Answer}
    (h : c.frames.size ≤ limit.toNat)
    (hnext : c.next? program subject ⟨fuel, some limit⟩ patience = some (answer, d)) :
    d.frames.size ≤ limit.toNat := by
  rcases next?_eq_some hnext with hbegin | ⟨b, n, hbegin, hrun, _⟩ |
    ⟨b, e, fuel, hbegin, _, hrun, _, rfl⟩
  · have hframes := begin_frames program c
    rw [hbegin] at hframes
    rwa [← hframes] at h
  · have hle : (b.run program subject (some limit) n).cursor.frames.size ≤ limit.toNat :=
      begin_run_frames_le hbegin n h
    rwa [hrun] at hle
  · have hle : (b.run program subject (some limit) fuel.toNat).cursor.frames.size ≤ limit.toNat :=
      begin_run_frames_le hbegin fuel.toNat h
    rwa [hrun] at hle

/-- The cursors that a search comes by from a cursor on, within a question or after it, and in the
questions that follow, while a limit on pending calls is in force. -/
inductive PassesUnder (program : Program) (subject : Subject) (depth : Option UInt32) :
    Cursor → Cursor → Prop
  | here {c : Cursor} : PassesUnder program subject depth c c
  | during {c d e : Cursor} {n : Nat} (hbegin : c.begin program = .running d)
      (hrun : d.run program subject depth n = .running e) : PassesUnder program subject depth c e
  | next {c d e : Cursor} {fuel : Option UInt32} {patience : Nat} {answer : Answer}
      (hnext : c.next? program subject ⟨fuel, depth⟩ patience = some (answer, d))
      (h : PassesUnder program subject depth d e) : PassesUnder program subject depth c e

/-- **The pending calls stay within their limit as long as it is in force.** -/
theorem PassesUnder.frames_le {limit : UInt32}
    (hpasses : c.PassesUnder program subject (some limit) e) (h : c.frames.size ≤ limit.toNat) :
    e.frames.size ≤ limit.toNat := by
  induction hpasses with
  | here => exact h
  | @during c d e n hbegin hrun =>
    have hle : (d.run program subject (some limit) n).cursor.frames.size ≤ limit.toNat :=
      begin_run_frames_le hbegin n h
    rwa [hrun] at hle
  | next hnext _ ih => exact ih (next?_frames_le h hnext)

end Cursor

/-- **Limits only end searches.**  Take any program, compiled or not, any subject, and any place
where a search can stand.  An answer that is not that a limit is reached is given under all looser
limits, in particular without limits, and leaves the same cursor.  A search whose fuel is used up
has its fuel used up when it is less.  And under a limit on pending calls, no more calls than that
are pending, if there were no more when it began. -/
theorem limits_only_end_searches (program : Program) (subject : Subject) (c : Cursor) :
    (∀ (strict loose : Limits) (patience : Nat) (answer : Answer) (d : Cursor),
      loose.Loosens strict → c.next? program subject strict patience = some (answer, d) →
      ¬ answer.OfLimit →
        ∃ enough, ∀ patience, enough ≤ patience →
          c.next? program subject loose patience = some (answer, d)) ∧
    (∀ (depth : Option UInt32) (fuel fuel' : UInt32) (patience : Nat) (d : Cursor),
      c.next? program subject ⟨some fuel, depth⟩ patience =
        some (.failed (.fuelExhausted fuel), d) →
      fuel' ≤ fuel →
        ∀ patience, ∃ d', c.next? program subject ⟨some fuel', depth⟩ patience =
          some (.failed (.fuelExhausted fuel'), d')) ∧
    ∀ (limit : UInt32) (e : Cursor), c.frames.size ≤ limit.toNat →
      c.PassesUnder program subject (some limit) e → e.frames.size ≤ limit.toNat :=
  ⟨fun _ _ _ _ _ hloosens h hanswer => Cursor.next?_of_loosens hloosens h hanswer,
    fun _ _ _ _ _ h hle => Cursor.next?_of_less_fuel h hle,
    fun _ _ h hpasses => hpasses.frames_le h⟩

/-- A program that makes one call, and takes five steps to say that there is no match. -/
def callOnce : Program where
  code := #[.block .search none, .call .fail, .exhausted, .block .fail none, .ret]
  labels := Std.HashMap.emptyWithCapacity.insert .search 0 |>.insert .fail 3
  captures := []
  text := ""

theorem callOnce_code :
    callOnce.code = #[.block .search none, .call .fail, .exhausted, .block .fail none, .ret] := rfl

theorem callOnce_resolve :
    callOnce.resolve? .search = some 0 ∧ callOnce.resolve? .fail = some 3 := by
  simp [callOnce, Program.resolve?, Std.HashMap.getElem_insert]

/-- What is pending while the call has not come back. -/
theorem callOnce_calls :
    Cursor.run callOnce #[] (some 1) 2 ⟨0, .zero, #[], ∅, .fresh⟩ =
      .running ⟨3, .zero, #[⟨2, .zero⟩], ∅, .fresh⟩ := by
  simp [Cursor.run, Cursor.step, Cursor.execute, Cursor.jump, Cursor.reachedDepth?, callOnce_code,
    callOnce_resolve, Option.filter_some]

/-- Two steps further, the call has come back. -/
theorem callOnce_returns :
    Cursor.run callOnce #[] (some 1) 4 ⟨0, .zero, #[], ∅, .fresh⟩ =
      .running ⟨2, .zero, #[], ∅, .fresh⟩ := by
  rw [show 4 = 2 + 2 from rfl, Cursor.run_add, callOnce_calls]
  simp [Cursor.run, Cursor.step, Cursor.execute, callOnce_code]

theorem callOnce_begin :
    Cursor.new.begin callOnce = .running ⟨0, .zero, #[], ∅, .fresh⟩ := by
  simp [Cursor.begin, Cursor.new, callOnce_resolve]

/-- Five steps and one call suffice, four steps do not. -/
theorem limits_only_end_searches_callOnce :
    (∃ d enough, ∀ patience, enough ≤ patience →
      Cursor.new.next? callOnce #[] {} patience = some (.exhausted, d)) ∧
    (∀ patience, ∃ d, Cursor.new.next? callOnce #[] ⟨some 3, some 1⟩ patience =
      some (.failed (.fuelExhausted 3), d)) ∧
    ∃ e, Cursor.new.PassesUnder callOnce #[] (some 1) e ∧ e.frames.size = 1 ∧
      e.frames.size ≤ UInt32.toNat 1 := by
  obtain ⟨hlooser, hless, hframes⟩ := limits_only_end_searches callOnce #[] .new
  have hexhausted : Cursor.new.next? callOnce #[] ⟨some 5, some 1⟩ 0 =
      some (.exhausted, ⟨2, .zero, #[], ∅, .exhausted⟩) := by
    simp only [Cursor.next?, callOnce_begin]
    rw [show UInt32.toNat 5 = 4 + 1 from rfl, Cursor.run_add, callOnce_returns]
    simp [Cursor.run, Cursor.step, Cursor.execute, callOnce_code]
  have hfuel : Cursor.new.next? callOnce #[] ⟨some 4, some 1⟩ 0 =
      some (.failed (.fuelExhausted 4), ⟨2, .zero, #[], ∅, .exhausted⟩) := by
    simp only [Cursor.next?, callOnce_begin]
    rw [show UInt32.toNat 4 = 4 from rfl, callOnce_returns]
  have hcalling :
      Cursor.new.PassesUnder callOnce #[] (some 1) ⟨3, .zero, #[⟨2, .zero⟩], ∅, .fresh⟩ :=
    .during callOnce_begin callOnce_calls
  exact ⟨⟨_, hlooser ⟨some 5, some 1⟩ {} 0 .exhausted _ ⟨trivial, trivial⟩ hexhausted
      (by rintro ⟨⟩)⟩,
    hless (some 1) 4 3 0 _ hfuel (by decide), _, hcalling, rfl,
    hframes 1 _ (Nat.zero_le _) hcalling⟩

end PatternMachine
