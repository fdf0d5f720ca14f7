import PatternMachine.Proofs.Draining

/-!
# The answers of a search

* `Cursor.answer?`, `Cursor.Answers` — the answers to a sequence of questions; that they are given
  matches, and from then on that there is no further one.
* `Cursor.Reachable` — the cursors that questions under admissible limits lead to.
* `Cursor.Within` — no group that is stored has begun more repetitions than its ceiling.
* `Standing` — where a search can stand between two questions, with the matches that are to come.
* `Outcome` — what a number of steps can lead to.

Principal results: `Outcome.run` — no number of steps leads elsewhere.  `Standing.next` — without
limits every question is answered.  `Standing.answers` — so the matches that are to come are
answered.  `Standing.of_next?` — under limits only these can make a search fail.
-/

set_option autoImplicit false

namespace PatternMachine

namespace Cursor

/-- The answer to the last of `i + 1` questions that are asked one after the other; nothing if
patience ends before. -/
def answer? (program : Program) (subject : Subject) (limits : Limits) (patience : Nat) :
    Nat → Cursor → Option Answer
  | 0, c => (c.next? program subject limits patience).map Prod.fst
  | i + 1, c =>
    (c.next? program subject limits patience).bind fun r =>
      answer? program subject limits patience i r.2

/-- With enough patience, and without limits, every question is answered: first with the matches
`ms`, one after the other, and from then on that there is no further one. -/
def Answers (program : Program) (subject : Subject) (c : Cursor) (ms : List Match) : Prop :=
  ∃ enough, ∀ patience, enough ≤ patience → ∀ i,
    c.answer? program subject {} patience i =
      some (match ms[i]? with
        | some m => .found m
        | none => .exhausted)

/-- The cursors that a search comes to between questions, when every question is asked under
`allowed` limits. -/
inductive Reachable (program : Program) (subject : Subject) (allowed : Limits → Prop) :
    Cursor → Prop
  | new : Reachable program subject allowed .new
  | next {c d : Cursor} {limits : Limits} {patience : Nat} {answer : Answer}
      (h : Reachable program subject allowed c) (hallowed : allowed limits)
      (hnext : c.next? program subject limits patience = some (answer, d)) :
      Reachable program subject allowed d

/-- No group has begun more repetitions than its ceiling allows, in any stay. -/
def Within (ceiling : PerNode Nat) (c : Cursor) : Prop :=
  ∀ id g, c.group? id = some g → ∀ stay ∈ g.current :: g.outer, stay.count ≤ ceiling id

end Cursor

variable {program : Program} {subject : Subject} {ceiling : PerNode Nat} {depth : Option UInt32}
variable {c d : Cursor} {x : Config} {ms : List Match}

theorem Shows.within (h : Shows c x) (hx : x.groups.Within ceiling) : c.Within ceiling := by
  intro id g hg stay hstay
  have hid := h.groups id
  rw [hg, Option.getD_some] at hid
  exact hx id stay (hid ▸ hstay)

theorem Cursor.Within.of_groups (h : c.Within ceiling) (hgroups : d.groups = c.groups) :
    d.Within ceiling := by
  intro id g hg
  exact h id g (by rw [← hg, Cursor.group?, Cursor.group?, hgroups])

/-- A search on its way to the matches `ms`. -/
structure Ongoing (program : Program) (subject : Subject) (ceiling : PerNode Nat) (c : Cursor)
    (ms : List Match) : Prop where
  stage : c.stage ≠ .exhausted
  drains : ∃ x, Shows c x ∧ x.groups.Within ceiling ∧ Drains program subject ceiling x ms

/-- Where a search can stand between two questions, when the matches `ms` are to come. -/
inductive Standing (program : Program) (subject : Subject) (ceiling : PerNode Nat) :
    Cursor → List Match → Prop
  | fresh {start : Nat} {ms : List Match} (hstart : program.resolve? .search = some start)
      (hdrains : Drains program subject ceiling ⟨start, .zero, [], .new⟩ ms) :
      Standing program subject ceiling .new ms
  | suspended {c : Cursor} {ms : List Match} (hstage : c.stage = .suspended)
      (h : Ongoing program subject ceiling c ms) : Standing program subject ceiling c ms
  | exhausted {c : Cursor} (hstage : c.stage = .exhausted) (h : c.Within ceiling) :
      Standing program subject ceiling c []

/-- What a number of steps can lead to when the matches `ms` are to come. -/
inductive Outcome (program : Program) (subject : Subject) (ceiling : PerNode Nat)
    (depth : Option UInt32) : List Match → Step → Prop
  | running {d : Cursor} {ms : List Match} (h : Ongoing program subject ceiling d ms) :
      Outcome program subject ceiling depth ms (.running d)
  | found {d : Cursor} {m : Match} {ms : List Match} (hstage : d.stage = .suspended)
      (h : Ongoing program subject ceiling d ms) :
      Outcome program subject ceiling depth (m :: ms) (.halted d (.found m))
  | exhausted {d : Cursor} (hstage : d.stage = .exhausted) (h : d.Within ceiling) :
      Outcome program subject ceiling depth [] (.halted d .exhausted)
  | tooDeep {d : Cursor} {ms : List Match} {limit : UInt32} (hdepth : depth = some limit)
      (hstage : d.stage = .exhausted) (h : d.Within ceiling) :
      Outcome program subject ceiling depth ms (.halted d (.failed (.callDepthExceeded limit)))

/-! ## Steps -/

/-- **One step keeps to the outcomes.** -/
theorem Outcome.step (h : Ongoing program subject ceiling c ms) (depth : Option UInt32) :
    Outcome program subject ceiling depth ms (c.step program subject depth) := by
  obtain ⟨hstage, x, hshows, hwithin, hdrains⟩ := h
  cases hdrains with
  | done hi =>
    obtain ⟨a, rs, pending, groups⟩ := x
    obtain ⟨c', hstep, hc, _, hgroups⟩ := hshows.fetch hi subject depth
    rw [hstep, Cursor.execute]
    exact .exhausted rfl ((hshows.within hwithin).of_groups hgroups)
  | @step _ y _ hm hrest =>
    rcases hshows.step hm depth with
      ⟨d, hstep, hd, hdstage⟩ | ⟨limit, d, hdepth, hstep, hdstage, hgroups⟩
    · rw [hstep]
      exact .running ⟨hdstage ▸ hstage, y, hd, hm.within hwithin, hrest⟩
    · rw [hstep]
      exact .tooDeep hdepth hdstage ((hshows.within hwithin).of_groups hgroups)
  | @found _ y m _ hm hrest =>
    obtain ⟨d, hstep, hd, hdstage⟩ := hshows.yield hm depth
    rw [hstep]
    refine .found hdstage ⟨?_, y, hd, hm.within hwithin, hrest⟩
    rw [hdstage]
    intro hexhausted
    cases hexhausted

/-- **Every run keeps to the outcomes.** -/
theorem Outcome.run (h : Ongoing program subject ceiling c ms) (depth : Option UInt32) (n : Nat) :
    Outcome program subject ceiling depth ms (c.run program subject depth n) := by
  induction n generalizing c with
  | zero => exact .running h
  | succ n ih =>
    rw [Cursor.run]
    have hstep := Outcome.step h depth
    cases hs : c.step program subject depth with
    | running d =>
      rw [hs] at hstep
      cases hstep with
      | running hd => exact ih hd
    | halted d answer =>
      rw [hs] at hstep
      exact hstep

/-- A search that is on its way halts. -/
theorem Drains.halts (hd : Drains program subject ceiling x ms) (h : Shows c x)
    (depth : Option UInt32) :
    ∃ n d answer, c.run program subject depth n = .halted d answer := by
  induction hd generalizing c with
  | @done x hi =>
    obtain ⟨a, rs, pending, groups⟩ := x
    obtain ⟨c', hstep, _⟩ := h.fetch hi subject depth
    exact ⟨1, _, _, by rw [Cursor.run, hstep, Cursor.execute]⟩
  | step hm _ ih =>
    rcases h.step hm depth with ⟨d, hstep, hd, _⟩ | ⟨limit, d, _, hstep, _⟩
    · obtain ⟨n, e, answer, hrun⟩ := ih hd
      exact ⟨n + 1, e, answer, by rw [Cursor.run, hstep]; exact hrun⟩
    · exact ⟨1, d, _, by rw [Cursor.run, hstep]⟩
  | found hm _ _ =>
    obtain ⟨d, hstep, _, _⟩ := h.yield hm depth
    exact ⟨1, d, _, by rw [Cursor.run, hstep]⟩

theorem Ongoing.halts (h : Ongoing program subject ceiling c ms) (depth : Option UInt32) :
    ∃ n d answer, c.run program subject depth n = .halted d answer := by
  obtain ⟨_, hshows, _, hdrains⟩ := h.drains
  exact hdrains.halts hshows depth

/-! ## Questions -/

/-- A search begins to answer a question, unless it is exhausted. -/
theorem Standing.begin (h : Standing program subject ceiling c ms) :
    (c.stage = .exhausted ∧ ms = [] ∧ c.begin program = .halted c .exhausted) ∨
      ∃ d, c.begin program = .running d ∧ Ongoing program subject ceiling d ms := by
  cases h with
  | fresh hstart hdrains =>
    rename_i start
    refine Or.inr ⟨{ Cursor.new with ip := start, registers := .zero }, ?_, nofun, _, ?_,
      Groups.within_new _, hdrains⟩
    · simp [Cursor.begin, Cursor.new, hstart]
    · refine ⟨rfl, rfl, rfl, fun id => ?_⟩
      simp [Cursor.new, Cursor.group?, Groups.new]
  | suspended hstage h => exact Or.inr ⟨c, by simp [Cursor.begin, hstage], h⟩
  | exhausted hstage h => exact Or.inl ⟨hstage, rfl, by simp [Cursor.begin, hstage]⟩

/-- The answer to the next question when the matches `ms` are to come. -/
def answerOf (ms : List Match) : Answer :=
  match ms.head? with
  | some m => .found m
  | none => .exhausted

/-- **Without limits every question is answered.** -/
theorem Standing.next (h : Standing program subject ceiling c ms) :
    ∃ enough d, (∀ patience, enough ≤ patience →
        c.next? program subject {} patience = some (answerOf ms, d)) ∧
      Standing program subject ceiling d ms.tail ∧ (ms = [] → d.stage = .exhausted) := by
  rcases h.begin with ⟨hstage, rfl, hbegin⟩ | ⟨d, hbegin, hongoing⟩
  · exact ⟨0, c, fun _ _ => by rw [Cursor.next?, hbegin]; rfl, h, fun _ => hstage⟩
  obtain ⟨n, e, answer, hrun⟩ := hongoing.halts none
  have hnext : ∀ patience, n ≤ patience →
      c.next? program subject {} patience = some (answer, e) := by
    intro patience hle
    simp only [Cursor.next?, hbegin, Cursor.run_halted_mono hle hrun]
  have houtcome := Outcome.run hongoing none n
  rw [hrun] at houtcome
  cases houtcome with
  | found hstage hrest => exact ⟨n, e, hnext, .suspended hstage hrest, nofun⟩
  | exhausted hstage hwithin => exact ⟨n, e, hnext, .exhausted hstage hwithin, fun _ => hstage⟩
  | tooDeep hdepth => cases hdepth

/-- An exhausted search says that there is no further match, and is left as it is. -/
theorem Cursor.next?_of_exhausted (hstage : c.stage = .exhausted) (program : Program)
    (subject : Subject) (limits : Limits) (patience : Nat) :
    c.next? program subject limits patience = some (.exhausted, c) := by
  simp [next?, begin, hstage]

/-- An exhausted search says forever that there is no further match. -/
theorem Cursor.answer?_of_exhausted (hstage : c.stage = .exhausted) (limits : Limits)
    (patience i : Nat) : c.answer? program subject limits patience i = some .exhausted := by
  have hnext := next?_of_exhausted hstage program subject limits patience
  induction i with
  | zero => simp [answer?, hnext]
  | succ i ih => simpa [answer?, hnext] using ih

/-- **The matches that are to come are answered.** -/
theorem Standing.answers (h : Standing program subject ceiling c ms) :
    c.Answers program subject ms := by
  induction ms generalizing c with
  | nil =>
    obtain ⟨enough, d, hnext, _, hstage⟩ := h.next
    refine ⟨enough, fun patience hle i => ?_⟩
    cases i with
    | zero => simp [Cursor.answer?, hnext patience hle, answerOf]
    | succ i =>
      have : d.answer? program subject {} patience i = some .exhausted :=
        Cursor.answer?_of_exhausted (hstage rfl) {} patience i
      simpa [Cursor.answer?, hnext patience hle] using this
  | cons m ms ih =>
    obtain ⟨enough, d, hnext, hd, _⟩ := h.next
    obtain ⟨enough', hanswers⟩ := ih hd
    refine ⟨max enough enough', fun patience hle i => ?_⟩
    have hfirst := hnext patience (by omega)
    cases i with
    | zero => simp [Cursor.answer?, hfirst, answerOf]
    | succ i =>
      have := hanswers patience (by omega) i
      simpa [Cursor.answer?, hfirst] using this

/-- A search has one sequence of answers. -/
theorem Cursor.Answers.unique {ms' : List Match} (h : c.Answers program subject ms)
    (h' : c.Answers program subject ms') : ms = ms' := by
  obtain ⟨enough, hanswers⟩ := h
  obtain ⟨enough', hanswers'⟩ := h'
  apply List.ext_getElem?
  intro i
  have heq := (hanswers (max enough enough') (by omega) i).symm.trans
    (hanswers' (max enough enough') (by omega) i)
  cases hi : ms[i]? <;> cases hi' : ms'[i]? <;> simp_all

/-- The errors that limits can cause. -/
inductive Limits.Causes : Limits → RuntimeError → Prop
  | fuel {limits : Limits} {limit : UInt32} (h : limits.fuel = some limit) :
      Causes limits (.fuelExhausted limit)
  | depth {limits : Limits} {limit : UInt32} (h : limits.depth = some limit) :
      Causes limits (.callDepthExceeded limit)

/-- **Only limits make a search fail**, and whatever the answer is, the search stands where it can
go on. -/
theorem Standing.of_next? {limits : Limits} {patience : Nat} {answer : Answer}
    (h : Standing program subject ceiling c ms)
    (hnext : c.next? program subject limits patience = some (answer, d)) :
    (∃ ms', Standing program subject ceiling d ms') ∧
      ∀ e, answer = .failed e → limits.Causes e := by
  rcases h.begin with ⟨_, rfl, hbegin⟩ | ⟨c', hbegin, hongoing⟩
  · simp only [Cursor.next?, hbegin, Option.some.injEq, Prod.mk.injEq] at hnext
    obtain ⟨rfl, rfl⟩ := hnext
    exact ⟨⟨_, h⟩, nofun⟩
  have hhalted : ∀ n e answer', c'.run program subject limits.depth n = .halted e answer' →
      (∃ ms', Standing program subject ceiling e ms') ∧
        ∀ err, answer' = .failed err → limits.Causes err := by
    intro n e answer' hrun
    have houtcome := Outcome.run hongoing limits.depth n
    rw [hrun] at houtcome
    cases houtcome with
    | found hstage hrest => exact ⟨⟨_, .suspended hstage hrest⟩, nofun⟩
    | exhausted hstage hwithin => exact ⟨⟨_, .exhausted hstage hwithin⟩, nofun⟩
    | tooDeep hdepth hstage hwithin =>
      refine ⟨⟨_, .exhausted hstage hwithin⟩, fun err herr => ?_⟩
      cases herr
      exact .depth hdepth
  simp only [Cursor.next?, hbegin] at hnext
  split at hnext
  · rename_i fuel hfuel
    split at hnext
    · rename_i e answer' hrun
      simp only [Option.some.injEq, Prod.mk.injEq] at hnext
      obtain ⟨rfl, rfl⟩ := hnext
      exact hhalted _ _ _ hrun
    · rename_i e hrun
      simp only [Option.some.injEq, Prod.mk.injEq] at hnext
      obtain ⟨rfl, rfl⟩ := hnext
      have houtcome := Outcome.run hongoing limits.depth fuel.toNat
      rw [hrun] at houtcome
      cases houtcome with
      | running he =>
        obtain ⟨x, hshows, hwithin, _⟩ := he.drains
        refine ⟨⟨_, .exhausted rfl ((hshows.within hwithin).of_groups rfl)⟩, fun err herr => ?_⟩
        cases herr
        exact .fuel hfuel
  · split at hnext
    · rename_i e answer' hrun
      simp only [Option.some.injEq, Prod.mk.injEq] at hnext
      obtain ⟨rfl, rfl⟩ := hnext
      exact hhalted _ _ _ hrun
    · cases hnext

/-- Wherever a search stands, no group has begun more repetitions than its ceiling. -/
theorem Standing.within (h : Standing program subject ceiling c ms) : c.Within ceiling := by
  cases h with
  | fresh _ _ =>
    intro id g hg
    simp [Cursor.new, Cursor.group?] at hg
  | suspended _ h =>
    obtain ⟨x, hshows, hwithin, _⟩ := h.drains
    exact hshows.within hwithin
  | exhausted _ h => exact h

end PatternMachine
