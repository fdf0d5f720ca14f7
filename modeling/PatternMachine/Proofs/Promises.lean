import PatternMachine.Proofs.Undoing

/-!
# What every state of a search keeps to

That the search comes to its end by sound steps is known.  What is still to be said is what holds on
the way: how many calls are pending in every state, and what the groups have recorded wherever a
match is reported.  A block hands on to labels of which no more is known than that they keep to it
as well, and some of them are in loops with it.  So everything is said for a number of steps, and a
label that is met again has fewer of them left.

* `Promise` — how many calls are pending at most, and what holds where a match is reported.
* `Promise.Kept`, `Promise.Upheld` — a number of sound steps, or all of them, from a configuration
  on keep the promise.
* `Promise.Proceeds`, `Promise.Allows` — from an index, or a label, on the promise is kept if it is
  kept after the latest call has come back, and a number of further calls can be pending.

Principal results: one rule for every instruction (`Proceeds.set`, …, `Proceeds.call`), so that a
proof about a block reads along its code; `Allows.of_head` enters a block by its label.
`OnTrack.of_traced` — what every sound step keeps, such as a promise, holds in every state of a
search.
-/

set_option autoImplicit false

namespace PatternMachine

/-- What is promised of every state of a search: that no more than `calls` calls are pending, and
what holds of the position and the groups where a match is reported. -/
structure Promise where
  calls : Nat
  reports : Nat → Groups → Prop

/-- What blocks rely on in the program around them: labels are resolved to their blocks, and the
shared place of failure comes back. -/
structure Program.Framed (program : Program) : Prop where
  linked : program.Linked
  fail : ∃ a, program.HasAt a [.block .fail none, .ret]

/-- Where a call comes back to. -/
def Pending.back (p : Pending) (pending : List Pending) : Config :=
  ⟨p.frame.returnTo, p.frame.saved, pending, p.groups⟩

namespace Promise

section

variable (promise : Promise) (program : Program) (subject : Subject) (ceiling : PerNode Nat)

/-- The promise is kept for `n` sound steps from a configuration on. -/
def Kept : Nat → Config → Prop
  | 0, _ => True
  | n + 1, x => x.pending.length ≤ promise.calls ∧
      ∀ out y, Moves program subject ceiling x out y →
        (out ≠ none → promise.reports x.registers.pos x.groups) ∧ Kept n y

/-- The promise is kept for good from a configuration on. -/
def Upheld (x : Config) : Prop := ∀ n, promise.Kept program subject ceiling n x

/-- From index `a` on the promise is kept for `n` steps, if it is kept after the latest call has
come back and `room` further calls can be pending. -/
def Proceeds (n room a : Nat) (rs : Registers) (groups : Groups) : Prop :=
  ∀ m ≤ n, ∀ (p : Pending) (pending : List Pending), pending.length + 1 + room ≤ promise.calls →
    promise.Kept program subject ceiling m (p.back pending) →
      promise.Kept program subject ceiling m ⟨a, rs, p :: pending, groups⟩

/-- When the position is `p`, the promise allows going on at a label for `n` steps, if `room`
further calls can be pending. -/
def Allows (n room : Nat) (label : Label) (p : Nat) (groups : Groups) : Prop :=
  ∀ a, program.resolve? label = some a → ∀ rs : Registers, rs.pos = p →
    promise.Proceeds program subject ceiling n room a rs groups

end

variable {promise : Promise} {program : Program} {subject : Subject} {ceiling : PerNode Nat}
variable {n m room a b p : Nat} {rs : Registers} {groups : Groups} {label : Label}
variable {is : List Instruction} {id : NodeId}

theorem Kept.of_succ {x : Config} (h : promise.Kept program subject ceiling (n + 1) x) :
    promise.Kept program subject ceiling n x := by
  induction n generalizing x with
  | zero => trivial
  | succ n ih => exact ⟨h.1, fun out y hm => ⟨(h.2 out y hm).1, ih (h.2 out y hm).2⟩⟩

/-- A promise is kept from a configuration on if it is kept wherever a sound step leads. -/
theorem Kept.of_moves {x : Config} (hcalls : x.pending.length ≤ promise.calls)
    (h : ∀ out y, Moves program subject ceiling x out y →
      (out ≠ none → promise.reports x.registers.pos x.groups) ∧
        promise.Kept program subject ceiling n y) :
    promise.Kept program subject ceiling n x :=
  Kept.of_succ ⟨hcalls, h⟩

/-- What is kept for good is kept behind every sound step. -/
theorem Upheld.next {x y : Config} {out : Option Match}
    (h : promise.Upheld program subject ceiling x) (hm : Moves program subject ceiling x out y) :
    promise.Upheld program subject ceiling y :=
  fun n => ((h (n + 1)).2 out y hm).2

/-- A match is reported where it was promised. -/
theorem Upheld.reports_of_moves {x y : Config} {m : Match}
    (h : promise.Upheld program subject ceiling x)
    (hm : Moves program subject ceiling x (some m) y) :
    promise.reports x.registers.pos x.groups :=
  ((h 1).2 (some m) y hm).1 nofun

namespace Proceeds

theorem of_le (h : promise.Proceeds program subject ceiling n room a rs groups) (hm : m ≤ n) :
    promise.Proceeds program subject ceiling m room a rs groups :=
  fun k hk => h k (Nat.le_trans hk hm)

/-- It does no harm if more calls can be pending. -/
theorem of_room {room' : Nat} (h : promise.Proceeds program subject ceiling n room a rs groups)
    (hroom : room ≤ room') : promise.Proceeds program subject ceiling n room' a rs groups :=
  fun k hk p pending hcalls => h k hk p pending (by omega)

theorem zero : promise.Proceeds program subject ceiling 0 room a rs groups := by
  intro m hm p pending _ _
  obtain rfl := Nat.le_zero.mp hm
  trivial

/-- If every sound step leads to where the promise is kept for `n` steps, and neither makes a call
nor comes back from one, the promise is kept for one step more. -/
theorem later (h : ∀ p pending out y,
      Moves program subject ceiling ⟨a, rs, p :: pending, groups⟩ out y →
        (out ≠ none → promise.reports rs.pos groups) ∧
        ∃ b rs' groups', y = ⟨b, rs', p :: pending, groups'⟩ ∧
          promise.Proceeds program subject ceiling n room b rs' groups') :
    promise.Proceeds program subject ceiling (n + 1) room a rs groups := by
  intro m hm p pending hcalls hback
  cases m with
  | zero => trivial
  | succ m =>
    refine ⟨by simp only [List.length_cons]; omega, fun out y hmoves => ?_⟩
    obtain ⟨hreports, b, rs', groups', rfl, hrest⟩ := h p pending out y hmoves
    exact ⟨hreports, hrest m (by omega) p pending hcalls hback.of_succ⟩

/-- The same for a number of steps that need not become less. -/
theorem step (h : ∀ p pending out y,
      Moves program subject ceiling ⟨a, rs, p :: pending, groups⟩ out y →
        (out ≠ none → promise.reports rs.pos groups) ∧
        ∃ b rs' groups', y = ⟨b, rs', p :: pending, groups'⟩ ∧
          promise.Proceeds program subject ceiling n room b rs' groups') :
    promise.Proceeds program subject ceiling n room a rs groups := by
  cases n with
  | zero => exact zero
  | succ n =>
    refine later fun p pending out y hm => ?_
    obtain ⟨hreports, b, rs', groups', hy, hrest⟩ := h p pending out y hm
    exact ⟨hreports, b, rs', groups', hy, hrest.of_le (Nat.le_succ n)⟩

/-! ## One rule for every instruction -/

/-- A label takes a step, which makes up for being in a loop. -/
theorem place {comment : Option String} (h : program.HasAt a (.block label comment :: is))
    (hrest : program.HasAt (a + 1) is →
      promise.Proceeds program subject ceiling n room (a + 1) rs groups) :
    promise.Proceeds program subject ceiling (n + 1) room a rs groups := by
  refine later fun p pending out y hm => ?_
  cases hm <;> cases Eq.trans (Eq.symm ‹program.code[a]? = some _›) h.head
  exact ⟨nofun, _, _, _, rfl, hrest h.tail⟩

theorem block {comment : Option String} (h : program.HasAt a (.block label comment :: is))
    (hrest : program.HasAt (a + 1) is →
      promise.Proceeds program subject ceiling n room (a + 1) rs groups) :
    promise.Proceeds program subject ceiling n room a rs groups :=
  (place h hrest).of_le (Nat.le_succ n)

theorem trace {message : String} (h : program.HasAt a (.trace message :: is))
    (hrest : program.HasAt (a + 1) is →
      promise.Proceeds program subject ceiling n room (a + 1) rs groups) :
    promise.Proceeds program subject ceiling n room a rs groups := by
  refine step fun p pending out y hm => ?_
  cases hm <;> cases Eq.trans (Eq.symm ‹program.code[a]? = some _›) h.head
  exact ⟨nofun, _, _, _, rfl, hrest h.tail⟩

theorem set {r : Register} {operand : Operand} (h : program.HasAt a (.set r operand :: is))
    (hrest : program.HasAt (a + 1) is → promise.Proceeds program subject ceiling n room (a + 1)
      (rs.set r (operand.eval subject rs)) groups) :
    promise.Proceeds program subject ceiling n room a rs groups := by
  refine step fun p pending out y hm => ?_
  cases hm <;> cases Eq.trans (Eq.symm ‹program.code[a]? = some _›) h.head
  exact ⟨nofun, _, _, _, rfl, hrest h.tail⟩

theorem add {r : Register} {operand : Operand} (h : program.HasAt a (.add r operand :: is))
    (hrest : program.HasAt (a + 1) is → promise.Proceeds program subject ceiling n room (a + 1)
      (rs.set r (rs.get r + operand.eval subject rs)) groups) :
    promise.Proceeds program subject ceiling n room a rs groups := by
  refine step fun p pending out y hm => ?_
  cases hm <;> cases Eq.trans (Eq.symm ‹program.code[a]? = some _›) h.head
  exact ⟨nofun, _, _, _, rfl, hrest h.tail⟩

/-- A sound step takes no more from a register than it holds. -/
theorem sub {r : Register} {operand : Operand} (h : program.HasAt a (.sub r operand :: is))
    (hrest : operand.eval subject rs ≤ rs.get r → program.HasAt (a + 1) is →
      promise.Proceeds program subject ceiling n room (a + 1)
        (rs.set r (rs.get r - operand.eval subject rs)) groups) :
    promise.Proceeds program subject ceiling n room a rs groups := by
  refine step fun p pending out y hm => ?_
  cases hm <;> cases Eq.trans (Eq.symm ‹program.code[a]? = some _›) h.head
  exact ⟨nofun, _, _, _, rfl, hrest ‹_› h.tail⟩

theorem branch {condition : Condition} (h : program.HasAt a (.branch condition label :: is))
    (htaken : condition.holds subject rs groups = true → ∀ b, program.resolve? label = some b →
      promise.Proceeds program subject ceiling n room b rs groups)
    (hpassed : condition.holds subject rs groups = false → program.HasAt (a + 1) is →
      promise.Proceeds program subject ceiling n room (a + 1) rs groups) :
    promise.Proceeds program subject ceiling n room a rs groups := by
  refine step fun p pending out y hm => ?_
  cases hm <;> cases Eq.trans (Eq.symm ‹program.code[a]? = some _›) h.head
  · exact ⟨nofun, _, _, _, rfl, htaken ‹_› _ ‹_›⟩
  · exact ⟨nofun, _, _, _, rfl, hpassed ‹_› h.tail⟩

theorem goto (h : program.HasAt a (.goto label :: is))
    (hrest : ∀ b, program.resolve? label = some b →
      promise.Proceeds program subject ceiling n room b rs groups) :
    promise.Proceeds program subject ceiling n room a rs groups := by
  refine step fun p pending out y hm => ?_
  cases hm <;> cases Eq.trans (Eq.symm ‹program.code[a]? = some _›) h.head
  exact ⟨nofun, _, _, _, rfl, hrest _ ‹_›⟩

/-- A call takes room for one. -/
theorem call (h : program.HasAt a (.call label :: is))
    (hlabel : promise.Allows program subject ceiling n room label rs.pos groups)
    (hrest : program.HasAt (a + 1) is →
      promise.Proceeds program subject ceiling n (room + 1) (a + 1) rs groups) :
    promise.Proceeds program subject ceiling n (room + 1) a rs groups := by
  intro m hm p pending hcalls hback
  cases m with
  | zero => trivial
  | succ m =>
    refine ⟨by simp only [List.length_cons]; omega, fun out y hmoves => ?_⟩
    cases hmoves <;> cases Eq.trans (Eq.symm ‹program.code[a]? = some _›) h.head
    refine ⟨nofun, hlabel _ ‹_› rs rfl m (by omega) _ _ ?_ ?_⟩
    · simp only [List.length_cons]
      omega
    · exact hrest h.tail m (by omega) p pending hcalls hback.of_succ

/-- Coming back is what is provided for. -/
theorem ret (h : program.HasAt a (.ret :: is)) :
    promise.Proceeds program subject ceiling n room a rs groups := by
  intro m hm p pending hcalls hback
  cases m with
  | zero => trivial
  | succ m =>
    refine ⟨by simp only [List.length_cons]; omega, fun out y hmoves => ?_⟩
    cases hmoves <;> cases Eq.trans (Eq.symm ‹program.code[a]? = some _›) h.head
    exact ⟨nofun, hback.of_succ⟩

theorem yield (h : program.HasAt a (.yield :: is)) (hreports : promise.reports rs.pos groups)
    (hrest : program.HasAt (a + 1) is →
      promise.Proceeds program subject ceiling n room (a + 1) rs groups) :
    promise.Proceeds program subject ceiling n room a rs groups := by
  refine step fun p pending out y hm => ?_
  cases hm <;> cases Eq.trans (Eq.symm ‹program.code[a]? = some _›) h.head
  exact ⟨fun _ => hreports, _, _, _, rfl, hrest h.tail⟩

theorem enter {capturing : Bool} (h : program.HasAt a (.enter id capturing :: is))
    (hrest : program.HasAt (a + 1) is → promise.Proceeds program subject ceiling n room (a + 1) rs
      (groups.set id (groups id).enter)) :
    promise.Proceeds program subject ceiling n room a rs groups := by
  refine step fun p pending out y hm => ?_
  cases hm <;> cases Eq.trans (Eq.symm ‹program.code[a]? = some _›) h.head
  exact ⟨nofun, _, _, _, rfl, hrest h.tail⟩

theorem leave (h : program.HasAt a (.leave id :: is))
    (hrest : ∀ g, program.HasAt (a + 1) is →
      promise.Proceeds program subject ceiling n room (a + 1) rs (groups.set id g)) :
    promise.Proceeds program subject ceiling n room a rs groups := by
  refine step fun p pending out y hm => ?_
  cases hm <;> cases Eq.trans (Eq.symm ‹program.code[a]? = some _›) h.head
  exact ⟨nofun, _, _, _, rfl, hrest _ h.tail⟩

/-- A sound step begins a repetition only where the count does not wrap around. -/
theorem countUp (h : program.HasAt a (.countUp id :: is))
    (hrest : (groups id).current.count + 1 < wordSize → program.HasAt (a + 1) is →
      promise.Proceeds program subject ceiling n room (a + 1) rs
        (groups.set id (groups id).countUp)) :
    promise.Proceeds program subject ceiling n room a rs groups := by
  refine step fun p pending out y hm => ?_
  cases hm <;> cases Eq.trans (Eq.symm ‹program.code[a]? = some _›) h.head
  exact ⟨nofun, _, _, _, rfl, hrest ‹_› h.tail⟩

theorem countDown (h : program.HasAt a (.countDown id :: is))
    (hrest : ∀ g, (groups id).countDown? = some g → program.HasAt (a + 1) is →
      promise.Proceeds program subject ceiling n room (a + 1) rs (groups.set id g)) :
    promise.Proceeds program subject ceiling n room a rs groups := by
  refine step fun p pending out y hm => ?_
  cases hm <;> cases Eq.trans (Eq.symm ‹program.code[a]? = some _›) h.head
  exact ⟨nofun, _, _, _, rfl, hrest _ ‹_› h.tail⟩

theorem pushPos (h : program.HasAt a (.pushPos id :: is))
    (hrest : program.HasAt (a + 1) is → promise.Proceeds program subject ceiling n room (a + 1) rs
      (groups.set id ((groups id).push rs.pos))) :
    promise.Proceeds program subject ceiling n room a rs groups := by
  refine step fun p pending out y hm => ?_
  cases hm <;> cases Eq.trans (Eq.symm ‹program.code[a]? = some _›) h.head
  exact ⟨nofun, _, _, _, rfl, hrest h.tail⟩

theorem popPos (h : program.HasAt a (.popPos id :: is))
    (hrest : ∀ g, (groups id).pop? = some g → program.HasAt (a + 1) is →
      promise.Proceeds program subject ceiling n room (a + 1) rs (groups.set id g)) :
    promise.Proceeds program subject ceiling n room a rs groups := by
  refine step fun p pending out y hm => ?_
  cases hm <;> cases Eq.trans (Eq.symm ‹program.code[a]? = some _›) h.head
  exact ⟨nofun, _, _, _, rfl, hrest _ ‹_› h.tail⟩

/-- A guard leads to its label if it blocks, and is passed if it does not. -/
theorem guard (target : Label) (blocked : Bool) {branches : List Instruction}
    (h : program.HasAt a (branches ++ is))
    (hguards : Guards subject rs groups target blocked branches)
    (hblocked : blocked = true → program.HasAt (a + 1) is →
      ∀ b, program.resolve? target = some b →
        promise.Proceeds program subject ceiling n room b rs groups)
    (hfree : blocked = false → ∀ b, program.HasAt b is →
      promise.Proceeds program subject ceiling n room b rs groups) :
    promise.Proceeds program subject ceiling n room a rs groups := by
  cases hguards with
  | absent hfalse => exact hfree hfalse a h
  | present _ hholds =>
    refine .branch h (fun htaken => ?_) fun hpassed htail => ?_
    · exact hblocked (hholds ▸ htaken) h.tail
    · exact hfree (hholds ▸ hpassed) _ htail

/-- What is known where a label stands is known wherever a jump to it leads. -/
theorem at_label (h : promise.Proceeds program subject ceiling n room a rs groups)
    (hl : program.resolve? label = some a) (b : Nat) (hb : program.resolve? label = some b) :
    promise.Proceeds program subject ceiling n room b rs groups := by
  obtain rfl : a = b := Option.some.inj (hl.symm.trans hb)
  exact h

end Proceeds

namespace Allows

theorem of_le (h : promise.Allows program subject ceiling n room label p groups) (hm : m ≤ n) :
    promise.Allows program subject ceiling m room label p groups :=
  fun a ha rs hrs => (h a ha rs hrs).of_le hm

theorem of_room {room' : Nat} (h : promise.Allows program subject ceiling n room label p groups)
    (hroom : room ≤ room') : promise.Allows program subject ceiling n room' label p groups :=
  fun a ha rs hrs => (h a ha rs hrs).of_room hroom

theorem zero : promise.Allows program subject ceiling 0 room label p groups :=
  fun _ _ _ _ => .zero

/-- A jump to a label at which the promise allows going on. -/
theorem jump (h : promise.Allows program subject ceiling n room label rs.pos groups) (b : Nat)
    (hb : program.resolve? label = some b) :
    promise.Proceeds program subject ceiling n room b rs groups :=
  h b hb rs rfl

/-- Going on at a label is going on in the block that it heads, with one step less. -/
theorem of_block {comment : Option String} (hl : program.Linked)
    (h : program.HasAt a (.block label comment :: is))
    (hrest : program.HasAt (a + 1) is → ∀ rs : Registers, rs.pos = p →
      promise.Proceeds program subject ceiling n room (a + 1) rs groups) :
    promise.Allows program subject ceiling (n + 1) room label p groups :=
  fun b hb rs hrs => (Proceeds.place h fun h => hrest h rs hrs).at_label (hl.resolve h) b hb

/-- The same with the message of a traced block behind the label. -/
theorem of_head_succ {trace : Bool} {comment : String} (hl : program.Linked)
    (h : program.HasAt a (Lowering.head trace label comment ++ is))
    (hrest : ∀ b, program.HasAt b is → ∀ rs : Registers, rs.pos = p →
      promise.Proceeds program subject ceiling n room b rs groups) :
    promise.Allows program subject ceiling (n + 1) room label p groups := by
  unfold Lowering.head at h
  cases trace with
  | false => exact .of_block hl h fun h rs hrs => hrest _ h rs hrs
  | true => exact .of_block hl h fun h rs hrs => .trace h fun h => hrest _ h rs hrs

/-- Where a label is not met again, the step that it takes need not be counted. -/
theorem of_head {trace : Bool} {comment : String} (hl : program.Linked)
    (h : program.HasAt a (Lowering.head trace label comment ++ is))
    (hrest : ∀ b, program.HasAt b is → ∀ rs : Registers, rs.pos = p →
      promise.Proceeds program subject ceiling n room b rs groups) :
    promise.Allows program subject ceiling n room label p groups :=
  (of_head_succ hl h hrest).of_le (Nat.le_succ n)

/-- The shared place of failure only comes back. -/
theorem fail (hf : program.Framed) :
    promise.Allows program subject ceiling n room .fail p groups := by
  obtain ⟨a, h⟩ := hf.fail
  exact fun b hb _ _ => (Proceeds.block h fun h => .ret h).at_label (hf.linked.resolve h) b hb

end Allows

end Promise

/-! ## Whole searches -/

section

variable {program : Program} {subject : Subject} {ceiling : PerNode Nat} {depth : Option UInt32}
variable {c d : Cursor} {calls : List Cursor} {x y final : Config} {ms : List Match} {start : Nat}
variable {J : Config → Prop} {m : Match}

/-- The search follows sound steps that lead to `final`, and `J` holds where it stands. -/
def OnTrack (program : Program) (subject : Subject) (ceiling : PerNode Nat) (final : Config)
    (J : Config → Prop) (c : Cursor) : Prop :=
  ∃ x ms, Shows c x ∧ Leads program subject ceiling x ms final ∧ J x

namespace OnTrack

/-- **What every sound step keeps holds in every state of a search.** -/
theorem of_traced (hstart : program.resolve? .search = some start)
    (hfinal : program.code[final.ip]? = some .exhausted)
    (hleads : Leads program subject ceiling ⟨start, .zero, [], .new⟩ ms final)
    (hinit : J ⟨start, .zero, [], .new⟩)
    (hkeep : ∀ x out y, J x → Moves program subject ceiling x out y → J y)
    (h : c.Traced program subject calls) : OnTrack program subject ceiling final J c := by
  induction h with
  | begun hbegin => exact ⟨_, ms, .of_begin hstart hbegin, hleads, hinit⟩
  | step _ _ hstep ih =>
    obtain ⟨x, ms, hc, hleads, hx⟩ := ih
    obtain ⟨y, hm, hshows, hrest⟩ := Undoing.moves_of_running hfinal hc hleads hstep
    exact ⟨y, ms, hshows, hrest, hkeep _ _ _ hx hm⟩
  | found _ hstep ih =>
    obtain ⟨x, ms, hc, hleads, hx⟩ := ih
    obtain ⟨y, ms', hm, hshows, hrest⟩ := Undoing.moves_of_found hfinal hc hleads hstep
    exact ⟨y, ms', hshows, hrest, hkeep _ _ _ hx hm⟩

/-- The step by which a search reports a match is a sound one, too. -/
theorem found (hfinal : program.code[final.ip]? = some .exhausted)
    (h : OnTrack program subject ceiling final J c)
    (hstep : c.step program subject depth = .halted d (.found m)) :
    ∃ x y, J x ∧ Moves program subject ceiling x (some m) y ∧ Shows d y := by
  obtain ⟨x, ms, hc, hleads, hx⟩ := h
  obtain ⟨y, _, hm, hshows, _⟩ := Undoing.moves_of_found hfinal hc hleads hstep
  exact ⟨x, y, hx, hm, hshows⟩

end OnTrack

end

end PatternMachine
