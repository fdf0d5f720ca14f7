import Mathlib.Data.List.Induction
import Mathlib.Tactic.ByContra
import PatternMachine.Proofs.Labels
import PatternMachine.Proofs.Limits
import PatternMachine.Proofs.Safety

/-!
# Where jumps lead

Linking refuses code in which a label is defined twice or never, and says which one it met first.  A
program that is linked jumps to its own blocks only, so that a search can leave its code in one way:
by running off the end.

* `RepeatsFirst`, `DanglesFirst` — the block that first defines a label again, and the first jump to
  a label that no block defines.
* `Program.Resolves` — every jump of a program leads to a place in its code.
* `Cursor.Inside` — the next instruction and all returns are in the code, or right behind its end.

Principal results: `link_eq_duplicateLabel_iff`, `link_eq_undefinedLabel_iff`, `link_isOk_iff` —
what linking comes to.  `resolve?_of_link` — labels are resolved to the blocks that define them.
`step_inside`, `run_inside`, `next?_inside` — a search of a linked program stays inside.
`linked_programs_stay_inside` — all of it, for any list of instructions.
-/

set_option autoImplicit false

namespace PatternMachine

namespace Program

variable {code : List Instruction} {captures : List CaptureSlot} {text : String} {label : Label}
variable {program : Program}

/-! ## Labels that are defined twice -/

/-- A block defines a label again that a block before it has defined, and it is the first that does
so. -/
def RepeatsFirst (code : List Instruction) (label : Label) : Prop :=
  ∃ before comment after, code = before ++ .block label comment :: after ∧
    (labelsOf before).Nodup ∧ label ∈ labelsOf before

/-- Making a table of two pieces of code is making it of the first, and going on with the second. -/
theorem tabulate_append (index : Nat) (table : Std.HashMap Label Nat) (is js : List Instruction) :
    tabulate index table (is ++ js) =
      match tabulate index table is with
      | .error e => .error e
      | .ok table => tabulate (index + is.length) table js := by
  induction is generalizing index table with
  | nil => rfl
  | cons i is ih =>
    rw [List.cons_append, tabulate, tabulate]
    split
    · rw [ih, List.length_cons, Nat.add_assoc, Nat.add_comm 1]
    · split
      · rfl
      · rw [ih, List.length_cons, Nat.add_assoc, Nat.add_comm 1]

/-- **The first block that defines a label again makes linking fail.** -/
theorem RepeatsFirst.tabulate (h : RepeatsFirst code label) :
    tabulate 0 ∅ code = .error (.duplicateLabel label) := by
  obtain ⟨before, comment, after, rfl, hnodup, hmem⟩ := h
  obtain ⟨table, htable, hlabels⟩ := @tabulate_isOk 0 ∅ before hnodup (by simp)
  have hcontains : table.contains label = true :=
    Std.HashMap.mem_iff_contains.mp ((hlabels label).mpr (.inr hmem))
  rw [tabulate_append, htable]
  simp [Program.tabulate, Instruction.label?, hcontains]

/-- If labels are not defined once, there is a block that first defines one again. -/
theorem exists_repeatsFirst (h : ¬ (labelsOf code).Nodup) : ∃ label, RepeatsFirst code label := by
  induction code using List.reverseRecOn with
  | nil => simp at h
  | append_singleton code i ih =>
    by_cases hcode : (labelsOf code).Nodup
    · -- so it is the last instruction that defines a label again
      cases i with
      | block label comment =>
        refine ⟨label, code, comment, [], rfl, hcode, ?_⟩
        by_contra hnew
        apply h
        rw [labelsOf_append, List.nodup_append]
        refine ⟨hcode, by simp [labelsOf_cons, Instruction.label?], ?_⟩
        rintro l hl l' hl' rfl
        obtain rfl : l = label := by simpa [labelsOf_cons, Instruction.label?] using hl'
        exact hnew hl
      | _ => exact absurd (by simpa [labelsOf_cons, Instruction.label?] using hcode) h
    · obtain ⟨label, before, comment, after, rfl, hnodup, hmem⟩ := ih hcode
      exact ⟨label, before, comment, after ++ [i], by simp, hnodup, hmem⟩

/-! ## Labels that are missing -/

/-- An instruction jumps to a label that no block defines, and it is the first that does so. -/
def DanglesFirst (code : List Instruction) (label : Label) : Prop :=
  ∃ before i after, code = before ++ i :: after ∧ i.target? = some label ∧
    label ∉ labelsOf code ∧ ∀ target ∈ targetsOf before, target ∈ labelsOf code

theorem firstUndefined?_eq_some_iff {table : Std.HashMap Label Nat}
    (htable : ∀ label, label ∈ table ↔ label ∈ labelsOf code) :
    firstUndefined? table code = some label ↔ DanglesFirst code label := by
  have hcontains : ∀ label, table.contains label = true ↔ label ∈ labelsOf code :=
    fun label => Std.HashMap.mem_iff_contains.symm.trans (htable label)
  unfold firstUndefined?
  rw [List.find?_eq_some_iff_append]
  constructor
  · rintro ⟨hmissing, targets, later, htargets, hdefined⟩
    obtain ⟨before, rest, rfl, hbefore, hrest⟩ := List.filterMap_eq_append_iff.mp htargets
    obtain ⟨skipped, i, after, rfl, hskipped, hi, _⟩ := List.filterMap_eq_cons_iff.mp hrest
    refine ⟨before ++ skipped, i, after, by simp, hi, ?_, fun target htarget => ?_⟩
    · rw [← hcontains]
      simpa using hmissing
    · rw [← hcontains]
      have hnone : targetsOf skipped = [] := List.filterMap_eq_nil_iff.mpr hskipped
      rw [targetsOf_append, hnone, List.append_nil, targetsOf, hbefore] at htarget
      simpa using hdefined target htarget
  · rintro ⟨before, i, after, hcode, hi, hmissing, hdefined⟩
    refine ⟨?_, targetsOf before, targetsOf after, ?_, fun target htarget => ?_⟩
    · rw [← hcontains] at hmissing
      simpa using hmissing
    · have happend : targetsOf (before ++ i :: after) =
          targetsOf before ++ targetsOf (i :: after) :=
        targetsOf_append
      rwa [← hcode, targetsOf_cons, hi] at happend
    · simpa using (hcontains target).mpr (hdefined target htarget)

theorem firstUndefined?_eq_none_iff {table : Std.HashMap Label Nat}
    (htable : ∀ label, label ∈ table ↔ label ∈ labelsOf code) :
    firstUndefined? table code = none ↔ ∀ target ∈ targetsOf code, target ∈ labelsOf code := by
  unfold firstUndefined?
  rw [List.find?_eq_none]
  refine forall₂_congr fun target _ => ?_
  rw [← htable target, Std.HashMap.mem_iff_contains]
  simp

/-! ## What linking comes to -/

theorem RepeatsFirst.link (h : RepeatsFirst code label) :
    link code captures text = .error (.duplicateLabel label) := by
  simp [Program.link, h.tabulate]

/-- If no label is defined twice, linking only asks for a label that is missing. -/
theorem link_of_nodup (captures : List CaptureSlot) (text : String)
    (hnodup : (labelsOf code).Nodup) :
    ∃ table, (∀ label, label ∈ table ↔ label ∈ labelsOf code) ∧
      link code captures text =
        match firstUndefined? table code with
        | some label => .error (.undefinedLabel label)
        | none => .ok ⟨code.toArray, table, captures, text⟩ := by
  obtain ⟨table, htable, hlabels⟩ := @tabulate_isOk 0 ∅ code hnodup (by simp)
  refine ⟨table, by simpa using hlabels, ?_⟩
  cases hfirst : firstUndefined? table code <;> simp [link, htable, hfirst]

/-- **Linking fails at the first label that is defined again.** -/
theorem link_eq_duplicateLabel_iff :
    link code captures text = .error (.duplicateLabel label) ↔ RepeatsFirst code label := by
  refine ⟨fun h => ?_, RepeatsFirst.link⟩
  by_cases hnodup : (labelsOf code).Nodup
  · obtain ⟨table, _, hlink⟩ := link_of_nodup captures text hnodup
    rw [hlink] at h
    split at h <;> cases h
  · obtain ⟨other, hrepeats⟩ := exists_repeatsFirst hnodup
    cases h.symm.trans hrepeats.link
    exact hrepeats

/-- **Linking fails at the first label that is missing**, if none is defined twice. -/
theorem link_eq_undefinedLabel_iff :
    link code captures text = .error (.undefinedLabel label) ↔
      (labelsOf code).Nodup ∧ DanglesFirst code label := by
  by_cases hnodup : (labelsOf code).Nodup
  · obtain ⟨table, hlabels, hlink⟩ := link_of_nodup captures text hnodup
    rw [hlink, ← firstUndefined?_eq_some_iff hlabels]
    cases firstUndefined? table code <;> simp [hnodup]
  · obtain ⟨other, hrepeats⟩ := exists_repeatsFirst hnodup
    simp [hnodup, hrepeats.link]

/-- **Code is linked exactly if it defines every label once, and all that it jumps to.** -/
theorem link_isOk_iff :
    (∃ program, link code captures text = .ok program) ↔
      (labelsOf code).Nodup ∧ ∀ target ∈ targetsOf code, target ∈ labelsOf code := by
  by_cases hnodup : (labelsOf code).Nodup
  · obtain ⟨table, hlabels, hlink⟩ := link_of_nodup captures text hnodup
    rw [hlink, ← firstUndefined?_eq_none_iff hlabels]
    cases firstUndefined? table code <;> simp [hnodup]
  · obtain ⟨other, hrepeats⟩ := exists_repeatsFirst hnodup
    simp [hnodup, hrepeats.link]

/-- **Labels are resolved to the blocks that define them**, and no others are. -/
theorem resolve?_of_link (h : link code captures text = .ok program) (label : Label) (a : Nat) :
    program.resolve? label = some a ↔ ∃ comment, code[a]? = some (.block label comment) := by
  obtain ⟨hcode, _, hlinked⟩ := linked_of_link h
  have hget : program.code[a]? = code[a]? := by rw [← hcode, Array.getElem?_toList]
  constructor
  · intro hlabel
    rw [← hget]
    exact block_of_link h hlabel
  · rintro ⟨comment, hblock⟩
    exact hlinked a label comment (by rw [hget, hblock])

/-- Every jump of a program leads to a place in its code, and so does its start, if it has one. -/
structure Resolves (program : Program) : Prop where
  target : ∀ i ∈ program.code, ∀ label, i.target? = some label →
    ∃ a, program.resolve? label = some a
  lt : ∀ label a, program.resolve? label = some a → a < program.code.size

theorem resolves_of_link (h : link code captures text = .ok program) : program.Resolves where
  target i hi label hlabel := by
    obtain ⟨hcode, _, _⟩ := linked_of_link h
    obtain ⟨_, hdefined⟩ := link_isOk_iff.mp ⟨program, h⟩
    have htarget : label ∈ targetsOf code := by
      refine List.mem_filterMap.mpr ⟨i, ?_, hlabel⟩
      rw [← hcode]
      exact Array.mem_def.mp hi
    obtain ⟨j, hj, hjlabel⟩ := List.mem_filterMap.mp (hdefined label htarget)
    obtain ⟨a, ha⟩ := List.mem_iff_getElem?.mp hj
    cases j with
    | block defined comment =>
      cases hjlabel
      exact ⟨a, (resolve?_of_link h label a).mpr ⟨comment, ha⟩⟩
    | _ => cases hjlabel
  lt label a hlabel := by
    obtain ⟨comment, hblock⟩ := block_of_link h hlabel
    exact (Array.getElem?_eq_some_iff.mp hblock).1

end Program

/-! ## Searches stay in the code -/

/-- The next instruction and all returns are in the code, or right behind its end. -/
structure Cursor.Inside (program : Program) (c : Cursor) : Prop where
  ip : c.ip ≤ program.code.size
  frames : ∀ frame ∈ c.frames, frame.returnTo ≤ program.code.size

/-- A step leads inside; if there is no instruction to carry out, it is because the end of the code
is reached. -/
structure Step.Inside (program : Program) (step : Step) : Prop where
  cursor : step.cursor.Inside program
  ended : ∀ ip, step.answer? = some (.failed (.invalidJump ip)) → ip = program.code.size

namespace Cursor

variable {program : Program} {subject : Subject} {depth : Option UInt32} {c d e : Cursor}

theorem inside_new (program : Program) : Cursor.new.Inside program :=
  ⟨Nat.zero_le _, by simp [Cursor.new]⟩

/-- What is not about the place in the code does not matter. -/
theorem Inside.congr (h : c.Inside program) (hip : d.ip = c.ip) (hframes : d.frames = c.frames) :
    d.Inside program :=
  ⟨hip ▸ h.ip, hframes ▸ h.frames⟩

theorem Inside.running (h : c.Inside program) : (Step.running c).Inside program :=
  ⟨h, nofun⟩

theorem Inside.fail (h : c.Inside program) {error : RuntimeError}
    (herror : ∀ ip, error ≠ .invalidJump ip) : (c.fail error).Inside program where
  cursor := h.congr rfl rfl
  ended ip heq := by
    cases heq
    exact absurd rfl (herror ip)

theorem Inside.jump (h : c.Inside program) (hresolves : program.Resolves) {i : Instruction}
    {target : Label} (hi : i ∈ program.code) (htarget : i.target? = some target) :
    (c.jump program target).Inside program := by
  obtain ⟨a, ha⟩ := hresolves.target i hi target htarget
  rw [Cursor.jump, ha]
  exact Inside.running ⟨Nat.le_of_lt (hresolves.lt target a ha), h.frames⟩

theorem Inside.withGroup (h : c.Inside program) (id : NodeId) (g : Option GroupState)
    {error : RuntimeError} (herror : ∀ ip, error ≠ .invalidJump ip) :
    (c.withGroup id g error).Inside program := by
  cases g with
  | some g => exact Inside.running (h.congr rfl rfl)
  | none => exact h.fail herror

theorem Condition.eval_ne_invalidJump {condition : Condition} {error : RuntimeError}
    (h : condition.eval subject c = .error error) (ip : Nat) : error ≠ .invalidJump ip := by
  cases condition with
  | count group comparison value =>
    simp only [Condition.eval] at h
    split at h <;> cases h
    simp
  | _ => cases h

theorem Inside.execute (h : c.Inside program) (hresolves : program.Resolves) {here : Nat}
    (hhere : here ≤ program.code.size) {i : Instruction} (hi : i ∈ program.code) :
    (c.execute program subject depth here i).Inside program := by
  cases i with
  | block label comment | trace message => exact h.running
  | set r operand | enter group capturing => exact Inside.running (h.congr rfl rfl)
  | add r operand | sub r operand =>
    simp only [Cursor.execute]
    split
    · exact Inside.running (h.congr rfl rfl)
    · exact h.fail (by simp)
  | branch condition target =>
    simp only [Cursor.execute]
    split
    · exact h.jump hresolves hi rfl
    · exact h.running
    · rename_i error herror
      exact h.fail (Condition.eval_ne_invalidJump herror)
  | goto target => exact h.jump hresolves hi rfl
  | call target =>
    simp only [Cursor.execute]
    split
    · exact h.fail (by simp)
    · have hpushed : Cursor.Inside program
          { c with frames := c.frames.push ⟨c.ip, c.registers⟩ } := by
        refine ⟨h.ip, fun frame hframe => ?_⟩
        rcases Array.mem_push.mp hframe with hframe | rfl
        · exact h.frames frame hframe
        · exact h.ip
      exact hpushed.jump hresolves hi rfl
  | ret =>
    simp only [Cursor.execute]
    split
    · rename_i frame hframe
      refine Inside.running ⟨h.frames frame (Array.mem_of_back? hframe), fun other hother => ?_⟩
      rw [Array.mem_def, Array.toList_pop] at hother
      exact h.frames other (Array.mem_def.mpr (List.dropLast_subset _ hother))
    · exact h.fail (by simp)
  | yield => exact ⟨h.congr rfl rfl, by simp [Cursor.execute, Step.answer?]⟩
  | exhausted => exact ⟨⟨hhere, h.frames⟩, by simp [Cursor.execute, Step.answer?]⟩
  | leave group | countUp group | pushPos group | popPos group => exact h.withGroup _ _ (by simp)
  | countDown group =>
    simp only [Cursor.execute]
    split
    · exact h.withGroup _ _ (by simp)
    · exact h.fail (by simp)

/-- **A step of a linked program stays inside**, and fails to find an instruction only at the end
of the code. -/
theorem step_inside (hresolves : program.Resolves) (h : c.Inside program) :
    (c.step program subject depth).Inside program := by
  simp only [step]
  split
  · rename_i i hi
    have hlt : c.ip < program.code.size := (Array.getElem?_eq_some_iff.mp hi).1
    have hpast : Cursor.Inside program { c with ip := c.ip + 1 } := ⟨hlt, h.frames⟩
    exact hpast.execute hresolves h.ip (Array.mem_of_getElem? hi)
  · rename_i hnone
    refine ⟨h.congr rfl rfl, fun ip heq => ?_⟩
    cases heq
    exact Nat.le_antisymm h.ip (Array.getElem?_eq_none_iff.mp hnone)

/-- **A run of a linked program stays inside.** -/
theorem run_inside (hresolves : program.Resolves) (n : Nat) (h : c.Inside program) :
    (c.run program subject depth n).Inside program := by
  induction n generalizing c with
  | zero => exact h.running
  | succ n ih =>
    have hstep : (c.step program subject depth).Inside program := step_inside hresolves h
    rw [run]
    split
    · rename_i d hd
      rw [hd] at hstep
      exact ih hstep.cursor
    · rename_i d answer hd
      rwa [hd] at hstep

/-- A search of a linked program that says where to begin begins inside. -/
theorem begin_inside (hresolves : program.Resolves)
    (hsearch : (program.resolve? .search).isSome = true) (h : c.Inside program) :
    (c.begin program).Inside program := by
  unfold begin
  split
  · exact ⟨h, nofun⟩
  · exact h.running
  · split
    · rename_i a ha
      exact Inside.running ⟨Nat.le_of_lt (hresolves.lt _ a ha), h.frames⟩
    · rename_i hnone
      rw [hnone] at hsearch
      cases hsearch

/-- **A question leaves a search of a linked program inside.** -/
theorem next?_inside (hresolves : program.Resolves)
    (hsearch : (program.resolve? .search).isSome = true) (h : c.Inside program) {limits : Limits}
    {patience : Nat} {answer : Answer}
    (hnext : c.next? program subject limits patience = some (answer, d)) :
    d.Inside program ∧ ∀ ip, answer = .failed (.invalidJump ip) → ip = program.code.size := by
  have hbegin := begin_inside hresolves hsearch h
  rcases next?_eq_some hnext with heq | ⟨b, n, heq, hrun, _⟩ | ⟨b, e, fuel, heq, _, hrun, rfl, rfl⟩
  · rw [heq] at hbegin
    exact ⟨hbegin.cursor, fun ip hip => hbegin.ended ip (congrArg some hip)⟩
  · rw [heq] at hbegin
    have hinside : (b.run program subject limits.depth n).Inside program :=
      run_inside hresolves n hbegin.cursor
    rw [hrun] at hinside
    exact ⟨hinside.cursor, fun ip hip => hinside.ended ip (congrArg some hip)⟩
  · rw [heq] at hbegin
    have hinside : (b.run program subject limits.depth fuel.toNat).Inside program :=
      run_inside hresolves fuel.toNat hbegin.cursor
    rw [hrun] at hinside
    exact ⟨hinside.cursor.congr rfl rfl, nofun⟩

/-- Wherever a search of a linked program has come, it is inside. -/
theorem Reachable.inside {allowed : Limits → Prop} (hresolves : program.Resolves)
    (hsearch : (program.resolve? .search).isSome = true)
    (h : c.Reachable program subject allowed) : c.Inside program := by
  induction h with
  | new => exact inside_new program
  | next _ _ hnext ih => exact (next?_inside hresolves hsearch ih hnext).1

theorem Passes.inside (hresolves : program.Resolves)
    (hsearch : (program.resolve? .search).isSome = true) (h : c.Inside program)
    (he : c.Passes program subject e) : e.Inside program := by
  cases he with
  | here => exact h
  | @during d _ depth n hbegin hrun =>
    have hbegins := begin_inside hresolves hsearch h
    rw [hbegin] at hbegins
    have hinside : (d.run program subject depth n).Inside program :=
      run_inside hresolves n hbegins.cursor
    rw [hrun] at hinside
    exact hinside.cursor

end Cursor

open Program in
/-- **Linking is exact, and linked programs stay in their code.**  For any list of instructions,
there is a program exactly if no label is defined by two blocks, and every label that is jumped to
by some block.  A label that is defined twice makes linking fail, at the first block that defines
one again; otherwise a label that is missing does, at the first jump to one.  In a program, labels
are resolved to the blocks that define them.  If it says where to begin, whatever limits there are
for the questions, the next instruction and all returns never lie behind the end of the code; so
the only place at which an instruction can be missing is the end of the code. -/
theorem linked_programs_stay_inside (code : List Instruction) (captures : List CaptureSlot)
    (text : String) :
    ((∃ program, link code captures text = .ok program) ↔
      (labelsOf code).Nodup ∧ ∀ target ∈ targetsOf code, target ∈ labelsOf code) ∧
    (∀ label, link code captures text = .error (.duplicateLabel label) ↔
      RepeatsFirst code label) ∧
    (∀ label, link code captures text = .error (.undefinedLabel label) ↔
      (labelsOf code).Nodup ∧ DanglesFirst code label) ∧
    ∀ program, link code captures text = .ok program →
      (∀ label a, program.resolve? label = some a ↔
        ∃ comment, code[a]? = some (.block label comment)) ∧
      ((program.resolve? .search).isSome = true →
        ∀ (subject : Subject) (c : Cursor), c.Reachable program subject (fun _ => True) →
          (∀ e, c.Passes program subject e →
            e.ip ≤ code.length ∧ ∀ frame ∈ e.frames, frame.returnTo ≤ code.length) ∧
          ∀ limits patience ip d,
            c.next? program subject limits patience = some (.failed (.invalidJump ip), d) →
              ip = code.length) := by
  refine ⟨link_isOk_iff, fun _ => link_eq_duplicateLabel_iff,
    fun _ => link_eq_undefinedLabel_iff, fun program hlink => ⟨resolve?_of_link hlink, ?_⟩⟩
  intro hsearch subject c hc
  have hresolves := resolves_of_link hlink
  have hsize : program.code.size = code.length := by
    rw [← (linked_of_link hlink).1, Array.length_toList]
  have hinside := hc.inside hresolves hsearch
  refine ⟨fun e he => ?_, fun limits patience ip d hnext => ?_⟩
  · obtain ⟨hip, hframes⟩ := he.inside hresolves hsearch hinside
    rw [hsize] at hip hframes
    exact ⟨hip, hframes⟩
  · rw [← hsize]
    exact (Cursor.next?_inside hresolves hsearch hinside hnext).2 ip rfl

/-- Code of which the last instruction reports a match. -/
def yieldLast : List Instruction := [.block .search none, .yield]

/-- A search that goes on behind a match at the end of the code runs off this end. -/
theorem linked_programs_stay_inside_yieldLast :
    ∃ program, Program.link yieldLast [] "" = .ok program ∧ ∃ m c d,
      Cursor.new.next? program #[] {} 2 = some (.found m, c) ∧
      c.next? program #[] {} 1 = some (.failed (.invalidJump yieldLast.length), d) := by
  obtain ⟨hok, _, _, hlinked⟩ := linked_programs_stay_inside yieldLast [] ""
  obtain ⟨program, hlink⟩ := hok.mpr ⟨by decide, by decide⟩
  obtain ⟨hresolve, hstays⟩ := hlinked program hlink
  have hsearch : program.resolve? .search = some 0 := (hresolve .search 0).mpr ⟨none, rfl⟩
  have hcode : program.code = #[.block .search none, .yield] :=
    Array.toList_inj.mp (Program.linked_of_link hlink).1
  have hfound : ∃ m, Cursor.new.next? program #[] {} 2 =
      some (.found m, ⟨2, .zero, #[], ∅, .suspended⟩) := by
    simp [Cursor.next?, Cursor.begin, Cursor.new, hsearch, Cursor.run, Cursor.step, hcode,
      Cursor.execute]
  have hfailed : Cursor.next? program #[] {} 1 ⟨2, .zero, #[], ∅, .suspended⟩ =
      some (.failed (.invalidJump 2), ⟨2, .zero, #[], ∅, .exhausted⟩) := by
    simp [Cursor.next?, Cursor.begin, Cursor.run, Cursor.step, hcode, Cursor.fail]
  obtain ⟨m, hfound⟩ := hfound
  have hreachable : Cursor.Reachable program #[] (fun _ => True) _ := .next .new trivial hfound
  rw [(hstays (by simp [hsearch]) #[] _ hreachable).2 {} 1 2 _ hfailed] at hfailed
  exact ⟨program, hlink, m, _, _, hfound, hfailed⟩

end PatternMachine
