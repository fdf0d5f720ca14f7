import PatternMachine.Search.Run
import PatternMachine.Proofs.Ways

/-!
# Sound steps

What a step does, seen without the stage of the search and without how states are stored.

* `Groups` — the state of every group; a group that was never entered is in the new state.
* `Config` — the index of the next instruction, the registers, the pending calls, and the groups.
  A pending call also remembers the states that the groups had when it was made.
* `Moves` — the steps that go well: registers stay in range, groups are entered before they are
  used, no group begins more repetitions than its ceiling, and a call is returned from only in the
  states of the groups in which it was made.
* `Shows` — a cursor stands for a configuration.

Principal results: `Shows.step`, `Shows.yield` — the machine makes every sound step, unless the
limit on pending calls forbids it.  `Moves.within` — sound steps keep the counts of all groups
within their ceilings.
-/

set_option autoImplicit false

namespace PatternMachine

/-- The state of every group. -/
abbrev Groups := PerNode GroupState

namespace Groups

/-- No group was ever entered. -/
def new : Groups := fun _ => .new

/-- The spans that the current stay in every group has recorded. -/
def spans (groups : Groups) : Records := fun id => (groups id).current.spans

/-- No group has begun more repetitions than its ceiling allows, in any stay. -/
def Within (ceiling : PerNode Nat) (groups : Groups) : Prop :=
  ∀ id, ∀ stay ∈ (groups id).current :: (groups id).outer, stay.count ≤ ceiling id

theorem within_new (ceiling : PerNode Nat) : Within ceiling new := by
  intro id stay hstay
  simp only [new, GroupState.new, List.mem_cons, List.not_mem_nil, or_false] at hstay
  subst hstay
  exact Nat.zero_le _

theorem Within.set {ceiling : PerNode Nat} {groups : Groups} {id : NodeId} {g : GroupState}
    (h : Within ceiling groups) (hg : ∀ stay ∈ g.current :: g.outer, stay.count ≤ ceiling id) :
    Within ceiling (groups.set id g) := by
  intro other stay hstay
  by_cases ho : other = id
  · subst ho
    rw [PerNode.set_self] at hstay
    exact hg stay hstay
  · rw [PerNode.set_of_ne _ _ ho] at hstay
    exact h other stay hstay

/-- The stays that are put aside keep their counts. -/
theorem Within.setCurrent {ceiling : PerNode Nat} {groups : Groups} {id : NodeId} {g : GroupState}
    (h : Within ceiling groups) (hcount : g.current.count ≤ ceiling id)
    (houter : g.outer = (groups id).outer) : Within ceiling (groups.set id g) := by
  refine h.set ?_
  intro stay hstay
  rcases List.mem_cons.mp hstay with rfl | hstay
  · exact hcount
  · exact h id stay (List.mem_cons_of_mem _ (houter ▸ hstay))

end Groups

/-- A call that has not come back, with the states of the groups when it was made. -/
structure Pending where
  frame : Frame
  groups : Groups

/-- Where a search stands. The latest pending call comes first. -/
structure Config where
  ip : Nat
  registers : Registers
  pending : List Pending
  groups : Groups

/-- The recorded spans by capture index, when the slots say which group records which index. -/
def Records.captures (slots : List CaptureSlot) (records : Records) : Captures :=
  slots.foldl (fun captures slot => captures.append slot.index (records slot.group)) ∅

/-- The match that a search reports at an offset: its span is the last one of the whole match. -/
def Records.report (slots : List CaptureSlot) (p : Nat) (records : Records) : Match :=
  ⟨((records.captures slots).group wholeMatch).getLast?.getD ⟨p, p⟩, records.captures slots⟩

namespace Condition

/-- Whether a condition holds. -/
def holds (subject : Subject) (rs : Registers) (groups : Groups) : Condition → Bool
  | .register r comparison operand =>
    comparison.test (rs.get r) (operand.eval subject rs)
  | .count group comparison value => comparison.test (groups group).current.count value
  | .literal bytes expected => occursAt subject bytes rs.pos == expected
  | .newline offset expected => newlineAt subject rs.pos offset == expected

/-- Whether the group that a condition asks for was entered. -/
def Ready (groups : Groups) : Condition → Prop
  | .count group _ _ => (groups group).outer ≠ []
  | _ => True

end Condition

/-- One sound step, and the match that it reports if it does. -/
inductive Moves (program : Program) (subject : Subject) (ceiling : PerNode Nat) :
    Config → Option Match → Config → Prop
  | block {a rs pending groups label comment}
      (hi : program.code[a]? = some (.block label comment)) :
      Moves program subject ceiling ⟨a, rs, pending, groups⟩ none ⟨a + 1, rs, pending, groups⟩
  | trace {a rs pending groups message} (hi : program.code[a]? = some (.trace message)) :
      Moves program subject ceiling ⟨a, rs, pending, groups⟩ none ⟨a + 1, rs, pending, groups⟩
  | set {a rs pending groups r operand} (hi : program.code[a]? = some (.set r operand)) :
      Moves program subject ceiling ⟨a, rs, pending, groups⟩ none
        ⟨a + 1, rs.set r (operand.eval subject rs), pending, groups⟩
  | add {a rs pending groups r operand} (hi : program.code[a]? = some (.add r operand))
      (hlt : rs.get r + operand.eval subject rs < wordSize) :
      Moves program subject ceiling ⟨a, rs, pending, groups⟩ none
        ⟨a + 1, rs.set r (rs.get r + operand.eval subject rs), pending, groups⟩
  | sub {a rs pending groups r operand} (hi : program.code[a]? = some (.sub r operand))
      (hle : operand.eval subject rs ≤ rs.get r) :
      Moves program subject ceiling ⟨a, rs, pending, groups⟩ none
        ⟨a + 1, rs.set r (rs.get r - operand.eval subject rs), pending, groups⟩
  | taken {a b rs pending groups condition label}
      (hi : program.code[a]? = some (.branch condition label)) (hready : condition.Ready groups)
      (hholds : condition.holds subject rs groups = true)
      (hb : program.resolve? label = some b) :
      Moves program subject ceiling ⟨a, rs, pending, groups⟩ none ⟨b, rs, pending, groups⟩
  | passed {a rs pending groups condition label}
      (hi : program.code[a]? = some (.branch condition label)) (hready : condition.Ready groups)
      (hholds : condition.holds subject rs groups = false) :
      Moves program subject ceiling ⟨a, rs, pending, groups⟩ none ⟨a + 1, rs, pending, groups⟩
  | goto {a b rs pending groups label} (hi : program.code[a]? = some (.goto label))
      (hb : program.resolve? label = some b) :
      Moves program subject ceiling ⟨a, rs, pending, groups⟩ none ⟨b, rs, pending, groups⟩
  | call {a b rs pending groups label} (hi : program.code[a]? = some (.call label))
      (hb : program.resolve? label = some b) :
      Moves program subject ceiling ⟨a, rs, pending, groups⟩ none
        ⟨b, rs, ⟨⟨a + 1, rs⟩, groups⟩ :: pending, groups⟩
  | ret {a rs pending groups frame} (hi : program.code[a]? = some .ret) :
      Moves program subject ceiling ⟨a, rs, ⟨frame, groups⟩ :: pending, groups⟩ none
        ⟨frame.returnTo, frame.saved, pending, groups⟩
  | yield {a rs pending groups} (hi : program.code[a]? = some .yield) :
      Moves program subject ceiling ⟨a, rs, pending, groups⟩
        (some (groups.spans.report program.captures rs.pos)) ⟨a + 1, rs, pending, groups⟩
  | enter {a rs pending groups id capturing}
      (hi : program.code[a]? = some (.enter id capturing)) :
      Moves program subject ceiling ⟨a, rs, pending, groups⟩ none
        ⟨a + 1, rs, pending, groups.set id (groups id).enter⟩
  | leave {a rs pending groups id g} (hi : program.code[a]? = some (.leave id))
      (hg : (groups id).leave? = some g) :
      Moves program subject ceiling ⟨a, rs, pending, groups⟩ none
        ⟨a + 1, rs, pending, groups.set id g⟩
  | countUp {a rs pending groups id} (hi : program.code[a]? = some (.countUp id))
      (hactive : (groups id).outer ≠ []) (hlt : (groups id).current.count < ceiling id)
      (hword : (groups id).current.count + 1 < wordSize) :
      Moves program subject ceiling ⟨a, rs, pending, groups⟩ none
        ⟨a + 1, rs, pending, groups.set id (groups id).countUp⟩
  | countDown {a rs pending groups id g} (hi : program.code[a]? = some (.countDown id))
      (hg : (groups id).countDown? = some g) :
      Moves program subject ceiling ⟨a, rs, pending, groups⟩ none
        ⟨a + 1, rs, pending, groups.set id g⟩
  | pushPos {a rs pending groups id} (hi : program.code[a]? = some (.pushPos id))
      (hactive : (groups id).outer ≠ []) :
      Moves program subject ceiling ⟨a, rs, pending, groups⟩ none
        ⟨a + 1, rs, pending, groups.set id ((groups id).push rs.pos)⟩
  | popPos {a rs pending groups id g} (hi : program.code[a]? = some (.popPos id))
      (hg : (groups id).pop? = some g) :
      Moves program subject ceiling ⟨a, rs, pending, groups⟩ none
        ⟨a + 1, rs, pending, groups.set id g⟩

/-! ## Counts -/

theorem GroupState.outer_of_leave? {g g' : GroupState} (h : g.leave? = some g') :
    g.outer = g'.current :: g'.outer := by
  unfold leave? at h
  split at h
  · cases h
  · rename_i ho
    cases h
    exact ho

theorem GroupState.count_of_countDown? {g g' : GroupState} (h : g.countDown? = some g') :
    g.current.count = g'.current.count + 1 ∧ g'.current.marks = g.current.marks ∧
      g'.outer = g.outer := by
  unfold countDown? at h
  split at h
  · cases h
  · rename_i hc
    cases h
    exact ⟨hc, rfl, rfl⟩

theorem GroupState.marks_of_pop? {g g' : GroupState} (h : g.pop? = some g') :
    g.current.marks ≠ [] ∧ g'.current.count = g.current.count ∧ g'.outer = g.outer := by
  unfold pop? at h
  split at h
  · cases h
  · rename_i hm
    cases h
    exact ⟨by simp [hm], rfl, rfl⟩

/-- **Sound steps keep the counts within the ceilings.** -/
theorem Moves.within {program : Program} {subject : Subject} {ceiling : PerNode Nat}
    {x y : Config} {out : Option Match} (hm : Moves program subject ceiling x out y)
    (h : x.groups.Within ceiling) : y.groups.Within ceiling := by
  cases hm with
  | enter hi =>
    refine h.set ?_
    intro stay hstay
    rcases List.mem_cons.mp hstay with rfl | hstay
    · exact Nat.zero_le _
    · exact h _ stay hstay
  | leave hi hg =>
    refine h.set ?_
    intro stay hstay
    exact h _ stay (List.mem_cons_of_mem _ (by rw [GroupState.outer_of_leave? hg]; exact hstay))
  | countUp hi hactive hlt hword =>
    refine h.setCurrent ?_ rfl
    simp only [GroupState.countUp, Nat.mod_eq_of_lt hword]
    exact hlt
  | @countDown _ _ _ groups id g hi hg =>
    obtain ⟨hcount, _, houter⟩ := GroupState.count_of_countDown? hg
    have hcurrent : (groups id).current.count ≤ ceiling id := h _ _ List.mem_cons_self
    exact h.setCurrent (by omega) houter
  | @pushPos _ _ _ groups id hi hactive =>
    have hcurrent : (groups id).current.count ≤ ceiling id := h _ _ List.mem_cons_self
    exact h.setCurrent hcurrent rfl
  | @popPos _ _ _ groups id g hi hg =>
    obtain ⟨_, hcount, houter⟩ := GroupState.marks_of_pop? hg
    have hcurrent : (groups id).current.count ≤ ceiling id := h _ _ List.mem_cons_self
    exact h.setCurrent (by omega) houter
  | _ => exact h

/-! ## The machine makes sound steps -/

/-- A cursor stands for a configuration. The stage of the search does not matter, nor does it
whether a group that is in the new state is stored. -/
structure Shows (c : Cursor) (x : Config) : Prop where
  ip : c.ip = x.ip
  registers : c.registers = x.registers
  frames : c.frames.toList = (x.pending.map Pending.frame).reverse
  groups : ∀ id, (c.group? id).getD .new = x.groups id

theorem Shows.stored {c : Cursor} {x : Config} (h : Shows c x) {id : NodeId}
    (hne : x.groups id ≠ .new) : c.group? id = some (x.groups id) := by
  have hid := h.groups id
  cases hg : c.group? id with
  | none =>
    rw [hg] at hid
    exact absurd hid.symm hne
  | some g =>
    rw [hg] at hid
    exact congrArg some hid

theorem GroupState.ne_new_of_outer {g : GroupState} (h : g.outer ≠ []) : g ≠ .new := by
  rintro rfl
  exact h rfl

theorem GroupState.ne_new_of_leave? {g g' : GroupState} (h : g.leave? = some g') : g ≠ .new := by
  rintro rfl
  cases h

theorem GroupState.ne_new_of_countDown? {g g' : GroupState} (h : g.countDown? = some g') :
    g ≠ .new := by
  rintro rfl
  cases h

theorem GroupState.ne_new_of_pop? {g g' : GroupState} (h : g.pop? = some g') : g ≠ .new := by
  rintro rfl
  cases h

theorem Shows.setGroup {c : Cursor} {a : Nat} {rs : Registers} {pending : List Pending}
    {groups : Groups} (h : Shows c ⟨a, rs, pending, groups⟩) (id : NodeId) (g : GroupState) :
    Shows (c.setGroup id g) ⟨a, rs, pending, groups.set id g⟩ := by
  refine ⟨h.ip, h.registers, h.frames, ?_⟩
  intro other
  rw [Cursor.group?_setGroup]
  by_cases ho : id = other
  · subst ho
    simp
  · rw [if_neg ho, h.groups other]
    exact (PerNode.set_of_ne _ _ (Ne.symm ho)).symm

theorem Shows.setRegister {c : Cursor} {a : Nat} {rs : Registers} {pending : List Pending}
    {groups : Groups} (h : Shows c ⟨a, rs, pending, groups⟩) (r : Register) (value : Nat) :
    Shows (c.setRegister r value) ⟨a, rs.set r value, pending, groups⟩ :=
  ⟨h.ip, congrArg (Registers.set · r value) h.registers, h.frames, h.groups⟩

/-- The cursor past the instruction that is to be carried out. -/
theorem Shows.advance {c : Cursor} {a : Nat} {rs : Registers} {pending : List Pending}
    {groups : Groups} (h : Shows c ⟨a, rs, pending, groups⟩) (b : Nat) :
    Shows { c with ip := b } ⟨b, rs, pending, groups⟩ :=
  ⟨rfl, h.registers, h.frames, h.groups⟩

theorem Condition.eval_of_shows (subject : Subject) {c : Cursor} {x : Config} (h : Shows c x)
    {condition : Condition} (hready : condition.Ready x.groups) :
    condition.eval subject c = .ok (condition.holds subject x.registers x.groups) := by
  cases condition with
  | register r comparison operand => simp [eval, holds, h.registers]
  | count group comparison value =>
    simp [eval, holds, h.stored (GroupState.ne_new_of_outer hready)]
  | literal bytes expected => simp [eval, holds, h.registers]
  | newline offset expected => simp [eval, holds, h.registers]

theorem Shows.spans {c : Cursor} {x : Config} (h : Shows c x) (id : NodeId) :
    c.spans id = x.groups.spans id := by
  unfold Cursor.spans Groups.spans
  rw [← h.groups id]
  cases c.group? id <;> rfl

theorem Shows.report {c : Cursor} {x : Config} (h : Shows c x) (slots : List CaptureSlot) :
    c.report slots = x.groups.spans.report slots x.registers.pos := by
  have hcaptures : c.captures slots = x.groups.spans.captures slots := by
    unfold Cursor.captures Records.captures
    congr 1
    funext captures slot
    rw [h.spans]
  simp [Cursor.report, Records.report, hcaptures, Cursor.position, h.registers]

/-- The cursor past an instruction, from which the instruction is carried out. -/
theorem Shows.fetch {program : Program} {c : Cursor} {a : Nat} {rs : Registers}
    {pending : List Pending} {groups : Groups} {i : Instruction}
    (h : Shows c ⟨a, rs, pending, groups⟩) (hi : program.code[a]? = some i) (subject : Subject)
    (depth : Option UInt32) :
    ∃ c', c.step program subject depth = c'.execute program subject depth a i ∧
      Shows c' ⟨a + 1, rs, pending, groups⟩ ∧ c'.stage = c.stage ∧ c'.groups = c.groups := by
  refine ⟨{ c with ip := a + 1 }, ?_, h.advance _, rfl, rfl⟩
  have hip : c.ip = a := h.ip
  simp [Cursor.step, hip, hi]

/-- How the machine takes a sound step to `y`: it makes the step, or it stops because more calls
would be pending than allowed. -/
def Made (depth : Option UInt32) (c : Cursor) (y : Config) (s : Step) : Prop :=
  (∃ d, s = .running d ∧ Shows d y ∧ d.stage = c.stage) ∨
    ∃ limit d, depth = some limit ∧ s = .halted d (.failed (.callDepthExceeded limit)) ∧
      d.stage = .exhausted ∧ d.groups = c.groups

theorem Made.running {depth : Option UInt32} {c d : Cursor} {y : Config} (h : Shows d y)
    (hstage : d.stage = c.stage) : Made depth c y (.running d) :=
  Or.inl ⟨d, rfl, h, hstage⟩

/-- A step is made as its instruction is carried out by the cursor past it. -/
theorem Shows.step_of_execute {program : Program} {subject : Subject} {depth : Option UInt32}
    {c : Cursor} {a : Nat} {rs : Registers} {pending : List Pending} {groups : Groups}
    {i : Instruction} {y : Config} (h : Shows c ⟨a, rs, pending, groups⟩)
    (hi : program.code[a]? = some i)
    (hmade : ∀ c', Shows c' ⟨a + 1, rs, pending, groups⟩ →
      Made depth c' y (c'.execute program subject depth a i)) :
    Made depth c y (c.step program subject depth) := by
  obtain ⟨c', hstep, hc, hstage, hgroups⟩ := h.fetch hi subject depth
  rw [hstep]
  rcases hmade c' hc with ⟨d, hrun, hd, hdstage⟩ | ⟨limit, d, hdepth, hrun, hdstage, hdgroups⟩
  · exact Or.inl ⟨d, hrun, hd, hdstage.trans hstage⟩
  · exact Or.inr ⟨limit, d, hdepth, hrun, hdstage, hdgroups.trans hgroups⟩

/-- **The machine makes every sound step.** -/
theorem Shows.step {program : Program} {subject : Subject} {ceiling : PerNode Nat} {c : Cursor}
    {x y : Config} (h : Shows c x) (hm : Moves program subject ceiling x none y)
    (depth : Option UInt32) : Made depth c y (c.step program subject depth) := by
  cases hm with
  | block hi => exact h.step_of_execute hi fun c' hc => .running hc rfl
  | trace hi => exact h.step_of_execute hi fun c' hc => .running hc rfl
  | set hi =>
    refine h.step_of_execute hi fun c' hc => ?_
    rw [Cursor.execute, hc.registers]
    exact .running (hc.setRegister _ _) rfl
  | add hi hlt =>
    refine h.step_of_execute hi fun c' hc => ?_
    rw [Cursor.execute, hc.registers, if_pos hlt]
    exact .running (hc.setRegister _ _) rfl
  | sub hi hle =>
    refine h.step_of_execute hi fun c' hc => ?_
    rw [Cursor.execute, hc.registers, if_pos hle]
    exact .running (hc.setRegister _ _) rfl
  | taken hi hready hholds hb =>
    refine h.step_of_execute hi fun c' hc => ?_
    have heval := Condition.eval_of_shows subject hc hready
    rw [hholds] at heval
    rw [Cursor.execute, heval]
    simp only [Cursor.jump, hb]
    exact .running (hc.advance _) rfl
  | passed hi hready hholds =>
    refine h.step_of_execute hi fun c' hc => ?_
    have heval := Condition.eval_of_shows subject hc hready
    rw [hholds] at heval
    rw [Cursor.execute, heval]
    exact .running hc rfl
  | goto hi hb =>
    refine h.step_of_execute hi fun c' hc => ?_
    rw [Cursor.execute]
    simp only [Cursor.jump, hb]
    exact .running (hc.advance _) rfl
  | call hi hb =>
    refine h.step_of_execute hi fun c' hc => ?_
    rw [Cursor.execute]
    cases hreached : c'.reachedDepth? depth with
    | some limit =>
      have hdepth : depth = some limit := by
        unfold Cursor.reachedDepth? at hreached
        rw [Option.filter_eq_some_iff] at hreached
        exact hreached.1
      exact Or.inr ⟨limit, _, hdepth, rfl, rfl, rfl⟩
    | none =>
      simp only [Cursor.jump, hb]
      refine .running ⟨rfl, hc.registers, ?_, hc.groups⟩ rfl
      simp [hc.frames, hc.ip, hc.registers]
  | @ret a rs pending groups frame hi =>
    refine h.step_of_execute hi fun c' hc => ?_
    have hback : c'.frames.back? = some frame := by
      rw [← Array.getLast?_toList, hc.frames]
      simp
    rw [Cursor.execute, hback]
    refine .running ⟨rfl, rfl, ?_, hc.groups⟩ rfl
    simp [hc.frames]
  | @enter a rs pending groups id capturing hi =>
    refine h.step_of_execute hi fun c' hc => ?_
    rw [Cursor.execute, hc.groups id]
    exact .running (hc.setGroup _ _) rfl
  | leave hi hg =>
    refine h.step_of_execute hi fun c' hc => ?_
    rw [Cursor.execute, hc.stored (GroupState.ne_new_of_leave? hg), Option.bind_some, hg]
    exact .running (hc.setGroup _ _) rfl
  | countUp hi hactive hlt hword =>
    refine h.step_of_execute hi fun c' hc => ?_
    rw [Cursor.execute, hc.stored (GroupState.ne_new_of_outer hactive)]
    exact .running (hc.setGroup _ _) rfl
  | countDown hi hg =>
    refine h.step_of_execute hi fun c' hc => ?_
    rw [Cursor.execute, hc.stored (GroupState.ne_new_of_countDown? hg)]
    simp only [hg]
    exact .running (hc.setGroup _ _) rfl
  | pushPos hi hactive =>
    refine h.step_of_execute hi fun c' hc => ?_
    rw [Cursor.execute, hc.stored (GroupState.ne_new_of_outer hactive), hc.registers]
    exact .running (hc.setGroup _ _) rfl
  | popPos hi hg =>
    refine h.step_of_execute hi fun c' hc => ?_
    rw [Cursor.execute, hc.stored (GroupState.ne_new_of_pop? hg), Option.bind_some, hg]
    exact .running (hc.setGroup _ _) rfl

/-- **The machine reports what a sound step reports.** -/
theorem Shows.yield {program : Program} {subject : Subject} {ceiling : PerNode Nat} {c : Cursor}
    {x y : Config} {m : Match} (h : Shows c x) (hm : Moves program subject ceiling x (some m) y)
    (depth : Option UInt32) :
    ∃ d, c.step program subject depth = .halted d (.found m) ∧ Shows d y ∧
      d.stage = .suspended := by
  cases hm with
  | yield hi =>
    obtain ⟨c', hstep, hc, _, _⟩ := h.fetch hi subject depth
    rw [hstep, Cursor.execute, hc.report]
    exact ⟨_, rfl, ⟨hc.ip, hc.registers, hc.frames, hc.groups⟩, rfl⟩

end PatternMachine
