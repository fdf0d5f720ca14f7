import PatternMachine.Proofs.Safety
import Mathlib.Data.List.Forall2

/-!
# Going back undoes what was done

A call keeps the registers and gets them back when it comes back. The groups are not kept: every
change of their states has to be undone by the code itself, on every path.

* `Cursor.groupState`, `Cursor.callFrame` — the state of a group, never entered or not, and what a
  call keeps that a cursor makes.
* `Cursor.Traced` — the states of a search from its begin on, through all suspensions, each with the
  cursors whose calls have not come back.
* `Cursor.Restored` — nothing is left of a search.
* `Undoing` — the invariant: the rest of the search is sound, and every call that has not come back
  is one that the sound steps remember.

Principal result: `returns_undo_calls` — a call comes back when every group is in the state in which
it was when the call was made, and an unlimited search that says that there is no further match has
undone all that it did.  `Undoing.step`, `Undoing.found` — one step keeps the invariant;
`Undoing.of_traced` — so the whole search does.
-/

set_option autoImplicit false

namespace PatternMachine

namespace Cursor

/-- The state of a group. A group that was never entered is in the new state. -/
def groupState (c : Cursor) (id : NodeId) : GroupState := (c.group? id).getD .new

/-- What a call keeps that stands at the cursor. -/
def callFrame (c : Cursor) : Frame := ⟨c.ip + 1, c.registers⟩

/-- The calls that have not come back after an instruction, given by the cursors that made them with
the latest first. -/
def callsAfter (c : Cursor) (calls : List Cursor) : Instruction → List Cursor
  | .call _ => c :: calls
  | .ret => calls.tail
  | _ => calls

/-- The states of a search, however it is limited and wherever it is suspended, with the cursors
whose calls have not come back. A suspended search goes on with the cursor that it left. -/
inductive Traced (program : Program) (subject : Subject) : Cursor → List Cursor → Prop
  | begun {c : Cursor} (hbegin : Cursor.new.begin program = .running c) :
      Traced program subject c []
  | step {c d : Cursor} {calls : List Cursor} {i : Instruction} {depth : Option UInt32}
      (h : Traced program subject c calls) (hi : program.code[c.ip]? = some i)
      (hstep : c.step program subject depth = .running d) :
      Traced program subject d (c.callsAfter calls i)
  | found {c d : Cursor} {calls : List Cursor} {m : Match} {depth : Option UInt32}
      (h : Traced program subject c calls)
      (hstep : c.step program subject depth = .halted d (.found m)) :
      Traced program subject d calls

/-- Nothing is left of a search: no call is pending, the registers are 0, and no group has begun a
repetition, recorded a position or put a stay aside. -/
structure Restored (c : Cursor) : Prop where
  frames : c.frames = #[]
  registers : c.registers = .zero
  groups : ∀ id g, c.group? id = some g → g = .new

end Cursor

variable {program : Program} {subject : Subject} {ceiling : PerNode Nat} {depth : Option UInt32}
variable {c d : Cursor} {calls : List Cursor} {x y : Config} {ms : List Match}

/-! ## Runs are traced -/

/-- There is an instruction wherever a step leads on. -/
theorem Cursor.fetched_of_running (h : c.step program subject depth = .running d) :
    ∃ i, program.code[c.ip]? = some i := by
  cases hi : program.code[c.ip]? with
  | some i => exact ⟨i, rfl⟩
  | none => simp [Cursor.step, hi, Cursor.fail] at h

/-- Every state of a run is traced if its first one is. -/
theorem Cursor.Traced.running {n : Nat} (h : c.Traced program subject calls)
    (hrun : c.run program subject depth n = .running d) :
    ∃ calls', d.Traced program subject calls' := by
  induction n generalizing c calls with
  | zero =>
    cases hrun
    exact ⟨calls, h⟩
  | succ n ih =>
    rw [Cursor.run] at hrun
    cases hstep : c.step program subject depth with
    | halted e answer => simp [hstep] at hrun
    | running e =>
      rw [hstep] at hrun
      obtain ⟨i, hi⟩ := Cursor.fetched_of_running hstep
      exact ih (h.step hi hstep) hrun

/-- A run that halts does so by a step from a state that is traced. -/
theorem Cursor.Traced.halted {n : Nat} {answer : Answer} (h : c.Traced program subject calls)
    (hrun : c.run program subject depth n = .halted d answer) :
    ∃ (e : Cursor) (calls' : List Cursor), e.Traced program subject calls' ∧
      e.step program subject depth = .halted d answer := by
  induction n generalizing c calls with
  | zero => cases hrun
  | succ n ih =>
    rw [Cursor.run] at hrun
    cases hstep : c.step program subject depth with
    | halted e answer' =>
      rw [hstep] at hrun
      cases hrun
      exact ⟨c, calls, h, hstep⟩
    | running e =>
      rw [hstep] at hrun
      obtain ⟨i, hi⟩ := Cursor.fetched_of_running hstep
      exact ih (h.step hi hstep) hrun

/-- A search begins where nothing has happened. -/
theorem Shows.of_begin {start : Nat} (hstart : program.resolve? .search = some start)
    (hbegin : Cursor.new.begin program = .running c) : Shows c ⟨start, .zero, [], .new⟩ := by
  simp only [Cursor.begin, Cursor.new, hstart, Step.running.injEq] at hbegin
  subst hbegin
  refine ⟨rfl, rfl, rfl, fun id => ?_⟩
  simp [Cursor.group?, Groups.new]

/-! ## The invariant -/

/-- A pending call is that of a cursor: it keeps the same, and the groups were in the same states
when it was made. -/
structure Pending.MadeBy (caller : Cursor) (p : Pending) : Prop where
  frame : p.frame = caller.callFrame
  groups : ∀ id, p.groups id = caller.groupState id

/-- From a cursor sound steps lead to `final`, and the calls that have not come back are those that
the sound steps remember. -/
def Undoing (program : Program) (subject : Subject) (ceiling : PerNode Nat) (final : Config)
    (c : Cursor) (calls : List Cursor) : Prop :=
  ∃ x ms, Shows c x ∧ Leads program subject ceiling x ms final ∧
    List.Forall₂ Pending.MadeBy calls x.pending

/-- Sound steps remember the calls that have not come back. -/
theorem Moves.madeBy {i : Instruction} {out : Option Match}
    (hm : Moves program subject ceiling x out y) (hc : Shows c x)
    (hi : program.code[c.ip]? = some i) (h : List.Forall₂ Pending.MadeBy calls x.pending) :
    List.Forall₂ Pending.MadeBy (c.callsAfter calls i) y.pending := by
  rw [hc.ip] at hi
  cases hm with
  | call hi' =>
    cases hi.symm.trans hi'
    refine .cons ⟨?_, fun id => (hc.groups id).symm⟩ h
    rw [Cursor.callFrame, hc.ip, hc.registers]
  | ret hi' =>
    cases hi.symm.trans hi'
    cases h with
    | cons _ hrest => exact hrest
  | block hi' | trace hi' | set hi' | add hi' _ | sub hi' _ | taken hi' _ _ _ | passed hi' _ _
  | goto hi' _ | yield hi' | enter hi' | leave hi' _ | countUp hi' _ _ _ | countDown hi' _
  | pushPos hi' _ | popPos hi' _ =>
    cases hi.symm.trans hi'
    exact h

/-- A sound step takes a call back only with the groups as they were when it was made. -/
theorem Moves.pending_of_ret {out : Option Match} (hm : Moves program subject ceiling x out y)
    (hi : program.code[x.ip]? = some .ret) :
    ∃ frame, x.pending = ⟨frame, x.groups⟩ :: y.pending := by
  cases hm with
  | ret _ => exact ⟨_, rfl⟩
  | block hi' | trace hi' | set hi' | add hi' _ | sub hi' _ | taken hi' _ _ _ | passed hi' _ _
  | goto hi' _ | yield hi' | enter hi' | leave hi' _ | countUp hi' _ _ _ | countDown hi' _
  | pushPos hi' _ | popPos hi' _ | call hi' _ => cases hi.symm.trans hi'

namespace Undoing

variable {final : Config}

/-- At the end of the search the machine says that there is no further match. -/
theorem step_of_shows_final (hfinal : program.code[final.ip]? = some .exhausted)
    (hc : Shows c final) (depth : Option UInt32) :
    c.step program subject depth = .halted { c with stage := .exhausted } .exhausted := by
  have hip : c.ip = final.ip := hc.ip
  simp [Cursor.step, hip, hfinal, Cursor.execute]

/-- A step of a search that follows sound steps is the next one of them. -/
theorem moves_of_running (hfinal : program.code[final.ip]? = some .exhausted) (hc : Shows c x)
    (hleads : Leads program subject ceiling x ms final)
    (hstep : c.step program subject depth = .running d) :
    ∃ y, Moves program subject ceiling x none y ∧ Shows d y ∧
      Leads program subject ceiling y ms final := by
  cases hleads with
  | refl => cases (step_of_shows_final hfinal hc depth).symm.trans hstep
  | step hm hrest =>
    rcases hc.step hm depth with ⟨d', hd', hshows, _⟩ | ⟨limit, d', _, hd', _⟩
    · cases hd'.symm.trans hstep
      exact ⟨_, hm, hshows, hrest⟩
    · cases hd'.symm.trans hstep
  | found hm hrest =>
    obtain ⟨d', hd', _⟩ := hc.yield hm depth
    cases hd'.symm.trans hstep

/-- So is a step that reports a match. -/
theorem moves_of_found {m : Match} (hfinal : program.code[final.ip]? = some .exhausted)
    (hc : Shows c x) (hleads : Leads program subject ceiling x ms final)
    (hstep : c.step program subject depth = .halted d (.found m)) :
    ∃ y ms', Moves program subject ceiling x (some m) y ∧ Shows d y ∧
      Leads program subject ceiling y ms' final := by
  cases hleads with
  | refl => cases (step_of_shows_final hfinal hc depth).symm.trans hstep
  | step hm hrest =>
    rcases hc.step hm depth with ⟨d', hd', _⟩ | ⟨limit, d', _, hd', _⟩
    · cases hd'.symm.trans hstep
    · cases hd'.symm.trans hstep
  | found hm hrest =>
    obtain ⟨d', hd', hshows, _⟩ := hc.yield hm depth
    cases hd'.symm.trans hstep
    exact ⟨_, _, hm, hshows, hrest⟩

/-- **One step keeps the invariant.** -/
theorem step {i : Instruction} (hfinal : program.code[final.ip]? = some .exhausted)
    (h : Undoing program subject ceiling final c calls) (hi : program.code[c.ip]? = some i)
    (hstep : c.step program subject depth = .running d) :
    Undoing program subject ceiling final d (c.callsAfter calls i) := by
  obtain ⟨x, ms, hc, hleads, hcalls⟩ := h
  obtain ⟨y, hm, hshows, hrest⟩ := moves_of_running hfinal hc hleads hstep
  exact ⟨y, ms, hshows, hrest, hm.madeBy hc hi hcalls⟩

/-- **A step that reports a match keeps the invariant**, and no call is made or comes back. -/
theorem found {m : Match} (hfinal : program.code[final.ip]? = some .exhausted)
    (h : Undoing program subject ceiling final c calls)
    (hstep : c.step program subject depth = .halted d (.found m)) :
    Undoing program subject ceiling final d calls := by
  obtain ⟨x, ms, hc, hleads, hcalls⟩ := h
  obtain ⟨y, ms', hm, hshows, hrest⟩ := moves_of_found hfinal hc hleads hstep
  cases hm with
  | yield => exact ⟨_, ms', hshows, hrest, hcalls⟩

/-- **The whole search keeps the invariant.** -/
theorem of_traced {start : Nat} (hstart : program.resolve? .search = some start)
    (hfinal : program.code[final.ip]? = some .exhausted)
    (hleads : Leads program subject ceiling ⟨start, .zero, [], .new⟩ ms final)
    (h : c.Traced program subject calls) : Undoing program subject ceiling final c calls := by
  induction h with
  | begun hbegin => exact ⟨_, ms, .of_begin hstart hbegin, hleads, .nil⟩
  | step _ hi hstep ih => exact ih.step hfinal hi hstep
  | found _ hstep ih => exact ih.found hfinal hstep

/-- What is pending are the calls that have not come back. -/
theorem frames (h : Undoing program subject ceiling final c calls) :
    c.frames.toList = (calls.map Cursor.callFrame).reverse := by
  obtain ⟨x, ms, hc, _, hcalls⟩ := h
  have hframes : x.pending.map Pending.frame = calls.map Cursor.callFrame := by
    generalize x.pending = pending at hcalls
    induction hcalls with
    | nil => rfl
    | cons hmade _ ih => simp [hmade.frame, ih]
  rw [hc.frames, hframes]

/-- A call comes back with the groups as they were when it was made. -/
theorem ret (hfinal : program.code[final.ip]? = some .exhausted)
    (h : Undoing program subject ceiling final c calls)
    (hi : program.code[c.ip]? = some .ret) :
    ∃ caller rest, calls = caller :: rest ∧ ∀ id, c.groupState id = caller.groupState id := by
  obtain ⟨x, ms, hc, hleads, hcalls⟩ := h
  have hpending : ∃ frame rest, x.pending = ⟨frame, x.groups⟩ :: rest := by
    have hx : program.code[x.ip]? = some .ret := hc.ip ▸ hi
    cases hleads with
    | refl => cases hfinal.symm.trans hx
    | step hm _ | found hm _ =>
      obtain ⟨frame, hframe⟩ := hm.pending_of_ret hx
      exact ⟨frame, _, hframe⟩
  obtain ⟨frame, rest, hpending⟩ := hpending
  rw [hpending] at hcalls
  cases hcalls with
  | cons hmade _ => exact ⟨_, _, rfl, fun id => (hc.groups id).trans (hmade.groups id)⟩

/-- Where a search says that there is no further match, the sound steps are at their end. -/
theorem exhausted (hfinal : program.code[final.ip]? = some .exhausted)
    (h : Undoing program subject ceiling final c calls)
    (hstep : c.step program subject depth = .halted d .exhausted) : Shows d final := by
  obtain ⟨x, ms, hc, hleads, _⟩ := h
  cases hleads with
  | refl =>
    rw [step_of_shows_final hfinal hc] at hstep
    cases hstep
    exact ⟨hc.ip, hc.registers, hc.frames, hc.groups⟩
  | step hm hrest =>
    rcases hc.step hm depth with ⟨d', hd', _⟩ | ⟨limit, d', _, hd', _⟩
    · cases hd'.symm.trans hstep
    · cases hd'.symm.trans hstep
  | found hm hrest =>
    obtain ⟨d', hd', _⟩ := hc.yield hm depth
    cases hd'.symm.trans hstep

end Undoing

/-- Where the machine shows no pending call, zeros and new groups, nothing is left of the search. -/
theorem Shows.restored {a : Nat} (h : Shows c ⟨a, .zero, [], .new⟩) : c.Restored where
  frames := by simpa using h.frames
  registers := h.registers
  groups := by
    intro id g hg
    have hid := h.groups id
    rw [hg] at hid
    exact hid

/-! ## Questions -/

/-- How a question is answered: the search is exhausted already, or it comes to an answer by a run
that halts, or its fuel is used up. -/
theorem Standing.next?_cases {limits : Limits} {patience : Nat} {answer : Answer}
    (h : Standing program subject ceiling c ms)
    (hnext : c.next? program subject limits patience = some (answer, d)) :
    (c.stage = .exhausted ∧ d = c) ∨
      ∃ e n, c.begin program = .running e ∧
        ((e.run program subject limits.depth n = .halted d answer ∧
            Outcome program subject ceiling limits.depth ms (.halted d answer)) ∨
          limits.fuel ≠ none ∧ d.stage = .exhausted) := by
  unfold Cursor.next? at hnext
  rcases h.begin with ⟨hstage, _, hbegin⟩ | ⟨e, hbegin, hongoing⟩
  · rw [hbegin] at hnext
    cases hnext
    exact Or.inl ⟨hstage, rfl⟩
  · right
    have hhalts : ∀ n answer', e.run program subject limits.depth n = .halted d answer' →
        Outcome program subject ceiling limits.depth ms (.halted d answer') :=
      fun n _ hrun => hrun ▸ Outcome.run hongoing limits.depth n
    simp only [hbegin] at hnext
    split at hnext
    · rename_i fuel hfuel
      split at hnext
      · rename_i hrun
        cases hnext
        exact ⟨e, fuel.toNat, hbegin, Or.inl ⟨hrun, hhalts _ _ hrun⟩⟩
      · cases hnext
        exact ⟨e, fuel.toNat, hbegin, Or.inr ⟨hfuel ▸ nofun, rfl⟩⟩
    · split at hnext
      · rename_i hrun
        cases hnext
        exact ⟨e, patience, hbegin, Or.inl ⟨hrun, hhalts _ _ hrun⟩⟩
      · cases hnext

/-- Between two questions a search is fresh, suspended in a state that is traced, or exhausted. -/
inductive Resting (program : Program) (subject : Subject) : Cursor → Prop
  | fresh : Resting program subject .new
  | suspended {c : Cursor} {calls : List Cursor} (hstage : c.stage = .suspended)
      (h : c.Traced program subject calls) : Resting program subject c
  | exhausted {c : Cursor} (hstage : c.stage = .exhausted) : Resting program subject c

/-- A search that goes on does so in a state that is traced. -/
theorem Resting.begin (h : Resting program subject c) (hbegin : c.begin program = .running d) :
    ∃ calls, d.Traced program subject calls := by
  cases h with
  | fresh => exact ⟨[], .begun hbegin⟩
  | @suspended _ calls hstage h =>
    simp only [Cursor.begin, hstage, Step.running.injEq] at hbegin
    subst hbegin
    exact ⟨calls, h⟩
  | exhausted hstage => simp [Cursor.begin, hstage] at hbegin

/-- **Whatever questions are asked**, a search is traced wherever it can go on. -/
theorem Standing.resting {allowed : Limits → Prop} (h : Standing program subject ceiling .new ms)
    (hc : c.Reachable program subject allowed) : Resting program subject c := by
  induction hc with
  | new => exact .fresh
  | next hc _ hnext ih =>
    obtain ⟨ms', hstanding⟩ := h.of_reachable hc
    rcases hstanding.next?_cases hnext with
      ⟨hstage, rfl⟩ | ⟨e, n, hbegin, ⟨hrun, houtcome⟩ | ⟨_, hstage⟩⟩
    · exact .exhausted hstage
    · cases houtcome with
      | found hstage _ =>
        obtain ⟨calls, htraced⟩ := ih.begin hbegin
        obtain ⟨f, calls', hf, hstep⟩ := htraced.halted hrun
        exact .suspended hstage (hf.found hstep)
      | exhausted hstage _ => exact .exhausted hstage
      | tooDeep _ hstage _ => exact .exhausted hstage
    · exact .exhausted hstage

/-- With the answer that there is no further match a search is exhausted. -/
theorem Standing.stage_of_next? {limits : Limits} {patience : Nat}
    (h : Standing program subject ceiling c ms)
    (hnext : c.next? program subject limits patience = some (.exhausted, d)) :
    d.stage = .exhausted := by
  rcases h.next?_cases hnext with ⟨hstage, rfl⟩ | ⟨e, n, _, ⟨_, houtcome⟩ | ⟨_, hstage⟩⟩
  · exact hstage
  · cases houtcome with
    | exhausted hstage _ => exact hstage
  · exact hstage

/-- An unlimited search is exhausted only when nothing is left of it. -/
theorem Standing.restored {start stop : Nat} (h : Standing program subject ceiling .new ms)
    (hstart : program.resolve? .search = some start)
    (hstop : program.code[stop]? = some .exhausted)
    (hleads : Leads program subject ceiling ⟨start, .zero, [], .new⟩ ms ⟨stop, .zero, [], .new⟩)
    (hc : c.Reachable program subject (· = {})) (hstage : c.stage = .exhausted) : c.Restored := by
  induction hc with
  | new => cases hstage
  | next hc hallowed hnext ih =>
    subst hallowed
    obtain ⟨ms', hstanding⟩ := h.of_reachable hc
    rcases hstanding.next?_cases hnext with
      ⟨_, rfl⟩ | ⟨e, n, hbegin, ⟨hrun, houtcome⟩ | ⟨hfuel, _⟩⟩
    · exact ih hstage
    · cases houtcome with
      | found hsuspended _ => cases hsuspended.symm.trans hstage
      | exhausted _ _ =>
        obtain ⟨calls, htraced⟩ := (h.resting hc).begin hbegin
        obtain ⟨f, calls', hf, hstep⟩ := htraced.halted hrun
        have hundoing := Undoing.of_traced hstart hstop hleads hf
        exact (hundoing.exhausted hstop hstep).restored
      | tooDeep hdepth => cases hdepth
    · exact absurd rfl hfuel

/-- An unlimited search comes to the answer that there is no further match. -/
theorem Standing.exhausts (h : Standing program subject ceiling c ms)
    (hc : c.Reachable program subject (· = {})) :
    ∃ (e d : Cursor) (patience : Nat), e.Reachable program subject (· = {}) ∧
      e.next? program subject {} patience = some (.exhausted, d) := by
  induction ms generalizing c with
  | nil =>
    obtain ⟨enough, d, hnext, _⟩ := h.next
    exact ⟨c, d, enough, hc, hnext enough (Nat.le_refl _)⟩
  | cons m ms ih =>
    obtain ⟨enough, d, hnext, hd, _⟩ := h.next
    exact ih hd (hc.next rfl (hnext enough (Nat.le_refl _)))

section

variable {tree : Pattern} {options : CompileOptions}

/-- **Going back undoes exactly what was done.**  In every state of the search of a compiled
pattern, the pending calls are those that have not come back; and a call that comes back finds every
group in the state in which it was when the call was made.  The states of a search are all traced,
whatever its limits were; and an unlimited search that says that there is no further match has
nothing left of what it did. -/
theorem returns_undo_calls (hcompile : compile tree options = .ok program)
    (hsize : subject.size < 2 ^ 63) :
    (∀ (c : Cursor) calls, c.Traced program subject calls →
      c.frames.toList = (calls.map Cursor.callFrame).reverse ∧
      (program.code[c.ip]? = some .ret →
        ∃ caller rest, calls = caller :: rest ∧ c.frames.back? = some caller.callFrame ∧
          ∀ id, c.groupState id = caller.groupState id)) ∧
    (∀ (c d e : Cursor) depth n, c.Reachable program subject (fun _ => True) →
      c.begin program = .running d → d.run program subject depth n = .running e →
        ∃ calls, e.Traced program subject calls) ∧
    ∀ (c d : Cursor) patience, c.Reachable program subject (· = {}) →
      c.next? program subject {} patience = some (.exhausted, d) → d.Restored := by
  obtain ⟨hwf, root, hcompiled⟩ := wellFormed_of_compile hcompile
  obtain ⟨start, stop, hstart, hstop, hleads⟩ := hcompiled.leads_back hwf hsize
  have hstanding := hcompiled.standing hwf hsize
  refine ⟨fun c calls htraced => ?_, fun c d e depth n hc hbegin hrun => ?_,
    fun c d patience hc hnext => ?_⟩
  · have hundoing := Undoing.of_traced hstart hstop hleads htraced
    refine ⟨hundoing.frames, fun hret => ?_⟩
    obtain ⟨caller, rest, rfl, hgroups⟩ := hundoing.ret hstop hret
    refine ⟨caller, rest, rfl, ?_, hgroups⟩
    rw [← Array.getLast?_toList, hundoing.frames]
    simp
  · obtain ⟨calls, htraced⟩ := (hstanding.resting hc).begin hbegin
    exact htraced.running hrun
  · refine hstanding.restored hstart hstop hleads (hc.next rfl hnext) ?_
    obtain ⟨ms', hc'⟩ := hstanding.of_reachable hc
    exact hc'.stage_of_next? hnext

/-- The search with the pattern `reportingStar`, which suspends inside of repetitions, comes to its
end and has nothing left. -/
theorem returns_undo_calls_reportingStar :
    ∃ program, compile reportingStar {} = .ok program ∧
      ∃ (c d : Cursor) (patience : Nat), c.Reachable program #[97, 97] (· = {}) ∧
        c.next? program #[97, 97] {} patience = some (.exhausted, d) ∧ d.Restored ∧
        ∀ (e : Cursor) calls, e.Traced program #[97, 97] calls →
          e.frames.toList = (calls.map Cursor.callFrame).reverse := by
  obtain ⟨program, hcompile⟩ := reportingStar_compiles
  have hsize : (#[97, 97] : Subject).size < 2 ^ 63 := by decide
  obtain ⟨hwf, root, hcompiled⟩ := wellFormed_of_compile hcompile
  obtain ⟨c, d, patience, hc, hnext⟩ := (hcompiled.standing hwf hsize).exhausts .new
  obtain ⟨htraced, _, hrestored⟩ := returns_undo_calls hcompile hsize
  exact ⟨program, hcompile, c, d, patience, hc, hnext, hrestored c d patience hc hnext,
    fun e calls he => (htraced e calls he).1⟩

end

end PatternMachine
