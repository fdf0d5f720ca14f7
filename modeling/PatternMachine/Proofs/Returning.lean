import PatternMachine.Proofs.Configuration
import PatternMachine.Proofs.Linking

/-!
# Code that comes back

A block never falls through to what follows it: it hands on to a label, and in the end the latest
pending call is taken back.  So what is to be said of a piece of code is which matches are found
until that call comes back.

* `Leads` — sound steps from one configuration to another, with the matches found on the way.
* `Returns` — from an index on, the machine finds given matches and comes back from the latest call,
  with the groups as they were when the call was made.
* `Serves` — the same of a label, whatever the registers hold beside the position.
* `Guards` — branches that keep the machine from going on.
* `Drains` — the search goes on, without going wrong, until it reports that there is no further
  match.

Principal results: one rule for every instruction (`Returns.set`, …, `Returns.call`), so that a
proof about a block reads along its code; `Serves.of_head` enters a block by its label.
-/

set_option autoImplicit false

namespace PatternMachine

/-- Sound steps from one configuration to another, and the matches reported on the way. -/
inductive Leads (program : Program) (subject : Subject) (ceiling : PerNode Nat) :
    Config → List Match → Config → Prop
  | refl (x : Config) : Leads program subject ceiling x [] x
  | step {x y z : Config} {ms : List Match} (hm : Moves program subject ceiling x none y)
      (h : Leads program subject ceiling y ms z) : Leads program subject ceiling x ms z
  | found {x y z : Config} {m : Match} {ms : List Match}
      (hm : Moves program subject ceiling x (some m) y)
      (h : Leads program subject ceiling y ms z) : Leads program subject ceiling x (m :: ms) z

/-- Sound steps until the search reports that there is no further match. -/
inductive Drains (program : Program) (subject : Subject) (ceiling : PerNode Nat) :
    Config → List Match → Prop
  | done {x : Config} (hi : program.code[x.ip]? = some .exhausted) :
      Drains program subject ceiling x []
  | step {x y : Config} {ms : List Match} (hm : Moves program subject ceiling x none y)
      (h : Drains program subject ceiling y ms) : Drains program subject ceiling x ms
  | found {x y : Config} {m : Match} {ms : List Match}
      (hm : Moves program subject ceiling x (some m) y)
      (h : Drains program subject ceiling y ms) : Drains program subject ceiling x (m :: ms)

section

variable {program : Program} {subject : Subject} {ceiling : PerNode Nat}

theorem Leads.trans {x y z : Config} {ms ms' : List Match}
    (h : Leads program subject ceiling x ms y) (h' : Leads program subject ceiling y ms' z) :
    Leads program subject ceiling x (ms ++ ms') z := by
  induction h with
  | refl => exact h'
  | step hm _ ih => exact .step hm (ih h')
  | found hm _ ih => exact .found hm (ih h')

theorem Leads.drains {x y : Config} {ms ms' : List Match}
    (h : Leads program subject ceiling x ms y) (h' : Drains program subject ceiling y ms') :
    Drains program subject ceiling x (ms ++ ms') := by
  induction h with
  | refl => exact h'
  | step hm _ ih => exact .step hm (ih h')
  | found hm _ ih => exact .found hm (ih h')

end

/-- From index `a` on, the machine finds the matches `ms` and comes back from the latest call, which
was made when the groups were in the states `kept`. -/
def Returns (program : Program) (subject : Subject) (ceiling : PerNode Nat) (a : Nat)
    (rs : Registers) (groups kept : Groups) (ms : List Match) : Prop :=
  ∀ frame pending, Leads program subject ceiling ⟨a, rs, ⟨frame, kept⟩ :: pending, groups⟩ ms
    ⟨frame.returnTo, frame.saved, pending, kept⟩

/-- When the position is `p`, going on at a label finds the matches `ms` and comes back. -/
def Serves (program : Program) (subject : Subject) (ceiling : PerNode Nat) (label : Label)
    (p : Nat) (groups : Groups) (ms : List Match) : Prop :=
  ∃ a, program.resolve? label = some a ∧
    ∀ rs : Registers, rs.pos = p → Returns program subject ceiling a rs groups groups ms

/-- Branches that lead away to a label exactly if it is `blocked` to go on. Where nothing can block,
they are left out. -/
inductive Guards (subject : Subject) (rs : Registers) (groups : Groups) (label : Label)
    (blocked : Bool) : List Instruction → Prop
  | absent (hfree : blocked = false) : Guards subject rs groups label blocked []
  | present {condition : Condition} (hready : condition.Ready groups)
      (hholds : condition.holds subject rs groups = blocked) :
      Guards subject rs groups label blocked [.branch condition label]

/-- A minimum of 0 needs no guard. -/
theorem Guards.ofMin {subject : Subject} {rs : Registers} {groups : Groups} {label : Label}
    {min : UInt32} {count : Nat} {condition : Condition} (hready : condition.Ready groups)
    (hholds : condition.holds subject rs groups = decide (count < min.toNat)) :
    Guards subject rs groups label (decide (count < min.toNat))
      (if min = 0 then [] else [.branch condition label]) := by
  split
  · rename_i hzero
    rw [hzero]
    exact .absent (decide_eq_false (Nat.not_lt_zero count))
  · exact .present hready hholds

/-! ## One rule for every instruction -/

section

variable {program : Program} {subject : Subject} {ceiling : PerNode Nat}
variable {a b p : Nat} {rs : Registers} {groups kept : Groups} {ms ms' : List Match}
variable {is : List Instruction} {label : Label} {id : NodeId} {g : GroupState}

namespace Returns

theorem block {comment : Option String} (h : program.HasAt a (.block label comment :: is))
    (hrest : program.HasAt (a + 1) is →
      Returns program subject ceiling (a + 1) rs groups kept ms) :
    Returns program subject ceiling a rs groups kept ms :=
  fun frame pending => .step (.block h.head) (hrest h.tail frame pending)

theorem set {r : Register} {operand : Operand} (h : program.HasAt a (.set r operand :: is))
    (hrest : program.HasAt (a + 1) is →
      Returns program subject ceiling (a + 1) (rs.set r (operand.eval subject rs)) groups kept ms) :
    Returns program subject ceiling a rs groups kept ms :=
  fun frame pending => .step (.set h.head) (hrest h.tail frame pending)

theorem add {r : Register} {operand : Operand} (h : program.HasAt a (.add r operand :: is))
    (hlt : rs.get r + operand.eval subject rs < wordSize)
    (hrest : program.HasAt (a + 1) is → Returns program subject ceiling (a + 1)
      (rs.set r (rs.get r + operand.eval subject rs)) groups kept ms) :
    Returns program subject ceiling a rs groups kept ms :=
  fun frame pending => .step (.add h.head hlt) (hrest h.tail frame pending)

theorem sub {r : Register} {operand : Operand} (h : program.HasAt a (.sub r operand :: is))
    (hle : operand.eval subject rs ≤ rs.get r)
    (hrest : program.HasAt (a + 1) is → Returns program subject ceiling (a + 1)
      (rs.set r (rs.get r - operand.eval subject rs)) groups kept ms) :
    Returns program subject ceiling a rs groups kept ms :=
  fun frame pending => .step (.sub h.head hle) (hrest h.tail frame pending)

theorem taken {condition : Condition} (h : program.HasAt a (.branch condition label :: is))
    (hready : condition.Ready groups) (hholds : condition.holds subject rs groups = true)
    (hb : program.resolve? label = some b)
    (hrest : Returns program subject ceiling b rs groups kept ms) :
    Returns program subject ceiling a rs groups kept ms :=
  fun frame pending => .step (.taken h.head hready hholds hb) (hrest frame pending)

theorem passed {condition : Condition} (h : program.HasAt a (.branch condition label :: is))
    (hready : condition.Ready groups) (hholds : condition.holds subject rs groups = false)
    (hrest : program.HasAt (a + 1) is →
      Returns program subject ceiling (a + 1) rs groups kept ms) :
    Returns program subject ceiling a rs groups kept ms :=
  fun frame pending => .step (.passed h.head hready hholds) (hrest h.tail frame pending)

theorem goto (h : program.HasAt a (.goto label :: is)) (hb : program.resolve? label = some b)
    (hrest : Returns program subject ceiling b rs groups kept ms) :
    Returns program subject ceiling a rs groups kept ms :=
  fun frame pending => .step (.goto h.head hb) (hrest frame pending)

/-- A call finds what the label finds, and then comes back. -/
theorem call (h : program.HasAt a (.call label :: is))
    (hlabel : Serves program subject ceiling label rs.pos groups ms)
    (hrest : program.HasAt (a + 1) is →
      Returns program subject ceiling (a + 1) rs groups kept ms') :
    Returns program subject ceiling a rs groups kept (ms ++ ms') := by
  obtain ⟨b, hb, hreturns⟩ := hlabel
  intro frame pending
  exact .step (.call h.head hb) ((hreturns rs rfl _ _).trans (hrest h.tail frame pending))

theorem ret (h : program.HasAt a (.ret :: is)) :
    Returns program subject ceiling a rs groups groups [] :=
  fun _ _ => .step (.ret h.head) (.refl _)

theorem yield (h : program.HasAt a (.yield :: is))
    (hrest : program.HasAt (a + 1) is →
      Returns program subject ceiling (a + 1) rs groups kept ms) :
    Returns program subject ceiling a rs groups kept
      (groups.spans.report program.captures rs.pos :: ms) :=
  fun frame pending => .found (.yield h.head) (hrest h.tail frame pending)

theorem enter {capturing : Bool} (h : program.HasAt a (.enter id capturing :: is))
    (hrest : program.HasAt (a + 1) is → Returns program subject ceiling (a + 1) rs
      (groups.set id (groups id).enter) kept ms) :
    Returns program subject ceiling a rs groups kept ms :=
  fun frame pending => .step (.enter h.head) (hrest h.tail frame pending)

theorem leave (h : program.HasAt a (.leave id :: is)) (hg : (groups id).leave? = some g)
    (hrest : program.HasAt (a + 1) is →
      Returns program subject ceiling (a + 1) rs (groups.set id g) kept ms) :
    Returns program subject ceiling a rs groups kept ms :=
  fun frame pending => .step (.leave h.head hg) (hrest h.tail frame pending)

theorem countUp (h : program.HasAt a (.countUp id :: is)) (hactive : (groups id).outer ≠ [])
    (hlt : (groups id).current.count < ceiling id)
    (hword : (groups id).current.count + 1 < wordSize)
    (hrest : program.HasAt (a + 1) is → Returns program subject ceiling (a + 1) rs
      (groups.set id (groups id).countUp) kept ms) :
    Returns program subject ceiling a rs groups kept ms :=
  fun frame pending => .step (.countUp h.head hactive hlt hword) (hrest h.tail frame pending)

theorem countDown (h : program.HasAt a (.countDown id :: is))
    (hg : (groups id).countDown? = some g)
    (hrest : program.HasAt (a + 1) is →
      Returns program subject ceiling (a + 1) rs (groups.set id g) kept ms) :
    Returns program subject ceiling a rs groups kept ms :=
  fun frame pending => .step (.countDown h.head hg) (hrest h.tail frame pending)

theorem pushPos (h : program.HasAt a (.pushPos id :: is)) (hactive : (groups id).outer ≠ [])
    (hrest : program.HasAt (a + 1) is → Returns program subject ceiling (a + 1) rs
      (groups.set id ((groups id).push rs.pos)) kept ms) :
    Returns program subject ceiling a rs groups kept ms :=
  fun frame pending => .step (.pushPos h.head hactive) (hrest h.tail frame pending)

theorem popPos (h : program.HasAt a (.popPos id :: is)) (hg : (groups id).pop? = some g)
    (hrest : program.HasAt (a + 1) is →
      Returns program subject ceiling (a + 1) rs (groups.set id g) kept ms) :
    Returns program subject ceiling a rs groups kept ms :=
  fun frame pending => .step (.popPos h.head hg) (hrest h.tail frame pending)

/-- A guard leads to its label if it blocks, and is passed if it does not. -/
theorem guard (target : Label) (blocked : Bool) {branches : List Instruction}
    (h : program.HasAt a (branches ++ is))
    (hguards : Guards subject rs groups target blocked branches)
    (hblocked : blocked = true → program.HasAt (a + 1) is →
      ∃ b, program.resolve? target = some b ∧
        Returns program subject ceiling b rs groups kept ms)
    (hfree : blocked = false → ∀ b, program.HasAt b is →
      Returns program subject ceiling b rs groups kept ms) :
    Returns program subject ceiling a rs groups kept ms := by
  cases hguards with
  | absent hfalse => exact hfree hfalse a h
  | present hready hholds =>
    cases blocked with
    | true =>
      obtain ⟨b, hb, hreturns⟩ := hblocked rfl h.tail
      exact .taken h hready hholds hb hreturns
    | false => exact .passed h hready hholds (hfree rfl _)

/-! ## Handing on to a label -/

/-- A branch that is taken hands on to its label. -/
theorem takenTo {condition : Condition} (h : program.HasAt a (.branch condition label :: is))
    (hready : condition.Ready groups) (hholds : condition.holds subject rs groups = true)
    (hlabel : Serves program subject ceiling label rs.pos groups ms) :
    Returns program subject ceiling a rs groups groups ms := by
  obtain ⟨b, hb, hreturns⟩ := hlabel
  exact .taken h hready hholds hb (hreturns rs rfl)

theorem gotoTo (h : program.HasAt a (.goto label :: is))
    (hlabel : Serves program subject ceiling label rs.pos groups ms) :
    Returns program subject ceiling a rs groups groups ms := by
  obtain ⟨b, hb, hreturns⟩ := hlabel
  exact .goto h hb (hreturns rs rfl)

end Returns

/-- Where a label is to be found that finds matches. -/
theorem Serves.place (h : Serves program subject ceiling label rs.pos groups ms) :
    ∃ b, program.resolve? label = some b ∧
      Returns program subject ceiling b rs groups groups ms := by
  obtain ⟨b, hb, hreturns⟩ := h
  exact ⟨b, hb, hreturns rs rfl⟩

/-! ## Entering a block -/

/-- A label is served by the block that it heads. -/
theorem Serves.of_block {comment : Option String} (hl : program.Linked)
    (h : program.HasAt a (.block label comment :: is))
    (hrest : program.HasAt (a + 1) is → ∀ rs : Registers, rs.pos = p →
      Returns program subject ceiling (a + 1) rs groups groups ms) :
    Serves program subject ceiling label p groups ms :=
  ⟨a, hl.resolve h, fun rs hp => .block h fun htail => hrest htail rs hp⟩

/-- The same with the message of a traced block behind the label. -/
theorem Serves.of_head {trace : Bool} {comment : String} (hl : program.Linked)
    (h : program.HasAt a (Lowering.head trace label comment ++ is))
    (hrest : ∀ b, program.HasAt b is → ∀ rs : Registers, rs.pos = p →
      Returns program subject ceiling b rs groups groups ms) :
    Serves program subject ceiling label p groups ms := by
  unfold Lowering.head at h
  cases trace with
  | false => exact .of_block hl h fun htail rs hp => hrest _ htail rs hp
  | true =>
    refine .of_block hl h fun htail rs hp frame pending => ?_
    exact .step (.trace htail.head) (hrest _ htail.tail rs hp frame pending)

end

end PatternMachine
