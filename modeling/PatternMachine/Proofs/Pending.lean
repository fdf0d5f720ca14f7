import PatternMachine.Proofs.Labels
import PatternMachine.Proofs.Suspending

/-!
# How many calls are pending

The calls that wait for the rest of a pattern are counted along its tree: `Pattern.calls` says how
many of them a tree leaves pending while the search goes on behind it.  The wrapped tree adds five
at most, and there are never more than that.

* `Promise.Observed` — a promise that is kept wherever the search of a program goes.

Principal results: `step_eq_or_tooDeep` — a limit on calls shows only where one more would be made.
`Observed.run_depth_le` — no run comes to more calls than promised, and `Observed.run_of_room` — a
limit that allows for them changes no run.  `pending_calls_bounded` — so the search of a compiled
pattern never has more calls pending than its tree says, and a limit that allows for them does
nothing.
-/

set_option autoImplicit false

namespace PatternMachine

variable {program : Program} {subject : Subject} {ceiling : PerNode Nat} {depth : Option UInt32}
variable {promise : Promise} {final x y : Config} {c d e : Cursor} {calls : List Cursor}
variable {limit : UInt32}

/-! ## Steps -/

namespace Cursor

/-- **A limit on calls shows only where one more would be made**: the step is the same without it,
or it fails, with the pending calls as they were. -/
theorem step_eq_or_tooDeep (c : Cursor) (program : Program) (subject : Subject)
    (depth : Option UInt32) :
    c.step program subject depth = c.step program subject none ∨
      ∃ target limit, program.code[c.ip]? = some (.call target) ∧ depth = some limit ∧
        limit.toNat ≤ c.depth ∧
        c.step program subject depth =
          fail { c with ip := c.ip + 1 } (.callDepthExceeded limit) := by
  simp only [step]
  cases hi : program.code[c.ip]? with
  | none => exact .inl rfl
  | some i =>
    cases i with
    | call target =>
      cases hreached : reachedDepth? { c with ip := c.ip + 1 } depth with
      | none =>
        left
        simp only [execute, hreached]
        rfl
      | some limit =>
        right
        obtain ⟨hdepth, hle⟩ := Option.filter_eq_some_iff.mp hreached
        exact ⟨target, limit, rfl, hdepth, of_decide_eq_true hle, by simp only [execute, hreached]⟩
    | _ => exact .inl rfl

end Cursor

theorem Shows.depth_eq (h : Shows c x) : c.depth = x.pending.length := by
  rw [Cursor.depth, ← Array.length_toList, h.frames, List.length_reverse, List.length_map]

/-- A sound step at a call makes one. -/
theorem Moves.length_pending_of_call {out : Option Match} {target : Label}
    (hm : Moves program subject ceiling x out y)
    (hi : program.code[x.ip]? = some (.call target)) :
    y.pending.length = x.pending.length + 1 := by
  cases hm with
  | call _ _ => rfl
  | block hi' | trace hi' | set hi' | add hi' _ | sub hi' _ | taken hi' _ _ _ | passed hi' _ _
  | goto hi' _ | ret hi' | yield hi' | enter hi' | leave hi' _ | countUp hi' _ _ _ | countDown hi' _
  | pushPos hi' _ | popPos hi' _ => cases hi.symm.trans hi'

/-! ## Promises that are kept throughout a search -/

theorem Promise.Upheld.length_pending_le (h : promise.Upheld program subject ceiling x) :
    x.pending.length ≤ promise.calls :=
  (h 1).1

/-- The search of a program follows sound steps to `final`, and a promise is kept wherever it
goes. -/
structure Promise.Observed (promise : Promise) (program : Program) (subject : Subject)
    (ceiling : PerNode Nat) (final : Config) : Prop where
  stops : program.code[final.ip]? = some .exhausted
  track : ∀ (c : Cursor) calls, c.Traced program subject calls →
    OnTrack program subject ceiling final (promise.Upheld program subject ceiling) c

namespace Promise.Observed

theorem depth_le (h : promise.Observed program subject ceiling final)
    (hc : c.Traced program subject calls) : c.depth ≤ promise.calls := by
  obtain ⟨x, ms, hshows, _, hx⟩ := h.track c calls hc
  rw [hshows.depth_eq]
  exact hx.length_pending_le

/-- A call is made only where one more can be pending. -/
theorem depth_lt_of_call {target : Label} (h : promise.Observed program subject ceiling final)
    (hc : c.Traced program subject calls) (hi : program.code[c.ip]? = some (.call target)) :
    c.depth < promise.calls := by
  obtain ⟨x, ms, hshows, hleads, hx⟩ := h.track c calls hc
  rw [hshows.ip] at hi
  have hmoves : ∀ {out y}, Moves program subject ceiling x out y → c.depth < promise.calls := by
    intro out y hm
    have hy := (hx.next hm).length_pending_le
    rw [hm.length_pending_of_call hi] at hy
    rw [hshows.depth_eq]
    exact hy
  cases hleads with
  | refl => cases hi.symm.trans h.stops
  | step hm _ | found hm _ => exact hmoves hm

/-- **A limit that allows for the promised calls changes no step.** -/
theorem step_of_room (h : promise.Observed program subject ceiling final)
    (hc : c.Traced program subject calls) (hroom : promise.calls ≤ limit.toNat) :
    c.step program subject (some limit) = c.step program subject none := by
  rcases c.step_eq_or_tooDeep program subject (some limit) with
    hsame | ⟨target, limit', hi, hlimit, hle, _⟩
  · exact hsame
  · cases hlimit
    have hlt := h.depth_lt_of_call hc hi
    omega

/-- **A limit that allows for the promised calls changes no run.** -/
theorem run_of_room (h : promise.Observed program subject ceiling final)
    (hc : c.Traced program subject calls) (hroom : promise.calls ≤ limit.toNat) (n : Nat) :
    c.run program subject (some limit) n = c.run program subject none n := by
  induction n generalizing c calls with
  | zero => rfl
  | succ n ih =>
    rw [Cursor.run, Cursor.run, h.step_of_room hc hroom]
    split
    · rename_i d hstep
      obtain ⟨i, hi⟩ := Cursor.fetched_of_running hstep
      exact ih (hc.step hi hstep)
    · rfl

/-- **No step comes to more calls than promised**, under whatever limit. -/
theorem step_depth_le (h : promise.Observed program subject ceiling final)
    (hc : c.Traced program subject calls) (depth : Option UInt32) :
    (c.step program subject depth).cursor.depth ≤ promise.calls := by
  have hle : c.depth ≤ promise.calls := h.depth_le hc
  rcases c.step_eq_or_tooDeep program subject depth with hsame | ⟨_, _, _, _, _, hfails⟩
  · obtain ⟨x, ms, hshows, hleads, hx⟩ := h.track c calls hc
    rw [hsame]
    cases hleads with
    | refl =>
      rw [Undoing.step_of_shows_final h.stops hshows]
      exact hle
    | step hm _ =>
      rcases hshows.step hm none with ⟨d, hstep, hd, _⟩ | ⟨_, _, hlimit, _⟩
      · rw [hstep, Step.cursor, hd.depth_eq]
        exact (hx.next hm).length_pending_le
      · cases hlimit
    | found hm _ =>
      obtain ⟨d, hstep, hd, _⟩ := hshows.yield hm none
      rw [hstep, Step.cursor, hd.depth_eq]
      exact (hx.next hm).length_pending_le
  · rw [hfails]
    exact hle

/-- **No run comes to more calls than promised**, under whatever limit. -/
theorem run_depth_le (h : promise.Observed program subject ceiling final)
    (hc : c.Traced program subject calls) (depth : Option UInt32) (n : Nat) :
    (c.run program subject depth n).cursor.depth ≤ promise.calls := by
  induction n generalizing c calls with
  | zero => exact h.depth_le hc
  | succ n ih =>
    have hle := h.step_depth_le hc depth
    rw [Cursor.run]
    split
    · rename_i d hstep
      obtain ⟨i, hi⟩ := Cursor.fetched_of_running hstep
      exact ih (hc.step hi hstep)
    · rename_i d answer hstep
      rwa [hstep] at hle

end Promise.Observed

/-! ## Questions -/

section

variable {ms : List Match} {allowed : Limits → Prop}

/-- **Between two questions no more calls are pending than promised.** -/
theorem Promise.Observed.depth_le_of_reachable (h : promise.Observed program subject ceiling final)
    (hstanding : Standing program subject ceiling .new ms)
    (hc : c.Reachable program subject allowed) : c.depth ≤ promise.calls := by
  induction hc with
  | new => exact Nat.zero_le _
  | @next c d limits _ _ hc _ hnext ih =>
    rcases Cursor.next?_eq_some hnext with hbegin | ⟨b, n, hbegin, hrun, _⟩ |
      ⟨b, e, fuel, hbegin, _, hrun, _, rfl⟩
    · have hframes := Cursor.begin_frames program c
      rw [hbegin] at hframes
      rw [Cursor.depth] at ih ⊢
      rwa [← hframes] at ih
    · obtain ⟨calls, hb⟩ := (hstanding.resting hc).begin hbegin
      have hle := h.run_depth_le hb limits.depth n
      rwa [hrun] at hle
    · obtain ⟨calls, hb⟩ := (hstanding.resting hc).begin hbegin
      have hle := h.run_depth_le hb limits.depth fuel.toNat
      rwa [hrun] at hle

/-- **Nor are there on the way to an answer.** -/
theorem Promise.Observed.depth_le_of_passes (h : promise.Observed program subject ceiling final)
    (hstanding : Standing program subject ceiling .new ms)
    (hc : c.Reachable program subject allowed) (he : c.Passes program subject e) :
    e.depth ≤ promise.calls := by
  cases he with
  | here => exact h.depth_le_of_reachable hstanding hc
  | @during d _ depth n hbegin hrun =>
    obtain ⟨calls, hd⟩ := (hstanding.resting hc).begin hbegin
    have hle := h.run_depth_le hd depth n
    rwa [hrun] at hle

/-- **A limit that allows for the promised calls changes no answer.** -/
theorem Promise.Observed.next?_of_room (h : promise.Observed program subject ceiling final)
    (hstanding : Standing program subject ceiling .new ms)
    (hc : c.Reachable program subject allowed) (hroom : promise.calls ≤ limit.toNat)
    (fuel : Option UInt32) (patience : Nat) :
    c.next? program subject ⟨fuel, some limit⟩ patience =
      c.next? program subject ⟨fuel, none⟩ patience := by
  unfold Cursor.next?
  cases hbegin : c.begin program with
  | halted d answer => rfl
  | running d =>
    obtain ⟨calls, hd⟩ := (hstanding.resting hc).begin hbegin
    simp only [h.run_of_room hd hroom]

end

/-! ## Compiled patterns -/

/-- The nodes around a tree have five calls pending at most. -/
theorem Pattern.calls_wrapped_le {tree root : Pattern} (hroot : tree.wrapped? = some root)
    (size : Nat) : 1 + root.calls size ≤ 5 + tree.calls size := by
  have hdelimited : tree.delimited.calls size = 3 + tree.calls size := by
    have hwhole : isTransparent (some wholeMatch) .once = false := rfl
    have hceiling : Quantifier.once.ceiling size = 1 := rfl
    simp only [delimited, calls, hwhole, hceiling, if_neg Bool.false_ne_true]
    omega
  obtain ⟨_, rfl⟩ := wrapped?_eq_some hroot
  split
  · omega
  · rw [calls, hdelimited, scan, calls, Quantifier.unitCalls]
    split <;> omega

/-- Where no group is repeated without a bound, the subject does not matter. -/
theorem Pattern.calls_eq_of_bounded {tree : Pattern}
    (h : ∀ id body capture q, .group id body capture q ∈ tree.nodes → q.max ≠ .unbounded)
    (size size' : Nat) : tree.calls size = tree.calls size' := by
  induction tree with
  | concat id first second ihFirst ihSecond =>
    rw [calls, calls, ihFirst fun i b c q hn => h i b c q (by simp [nodes, hn]),
      ihSecond fun i b c q hn => h i b c q (by simp [nodes, hn])]
  | alternation id first second ihFirst ihSecond =>
    rw [calls, calls, ihFirst fun i b c q hn => h i b c q (by simp [nodes, hn]),
      ihSecond fun i b c q hn => h i b c q (by simp [nodes, hn])]
  | group id body capture q ih =>
    have hceiling : q.ceiling size = q.ceiling size' := by
      have hmax := h id body capture q (self_mem_nodes _)
      unfold Quantifier.ceiling
      split
      · rfl
      · exact absurd ‹_› hmax
    rw [calls, calls, hceiling, ih fun i b c q hn => h i b c q (by simp [nodes, hn])]
  | _ => rfl

/-- The search of a compiled pattern keeps the promise of the calls that its wrapped tree has
pending. -/
theorem Compiled.observed {tree root : Pattern} {trace : Bool} {literals : Nat}
    (h : Compiled tree root trace program) (hwf : tree.WellFormed literals)
    (hsize : subject.size < 2 ^ 63) :
    ∃ final, Promise.Observed ⟨1 + root.calls subject.size, fun _ _ => True⟩ program subject
      (root.ceilings subject.size) final := by
  obtain ⟨start, stop, hstart, hstop, hleads⟩ := h.leads_back hwf hsize
  have hinit : Promise.Upheld ⟨1 + root.calls subject.size, fun _ _ => True⟩ program subject
      (root.ceilings subject.size) ⟨start, .zero, [], .new⟩ :=
    h.upheld hwf hsize (Nat.le_refl _) (fun _ _ _ => trivial) (fun _ _ _ => trivial) hstart
  exact ⟨_, hstop, fun c calls hc =>
    OnTrack.of_traced hstart hstop hleads hinit (fun _ _ _ => .next) hc⟩

section

variable {tree : Pattern} {options : CompileOptions}

/-- **The pending calls are bounded by the pattern.**  Whatever questions are asked, in every state
that the search of a compiled pattern comes by, no more calls are pending than the tree has by its
shape, and five for the nodes around it.  A limit on calls that allows for so many changes no
answer, so it never ends a search.  And without groups that are repeated without a bound, the number
is the same for all subjects. -/
theorem pending_calls_bounded (hcompile : compile tree options = .ok program) :
    (∀ (subject : Subject) (c : Cursor), subject.size < 2 ^ 63 →
      c.Reachable program subject (fun _ => True) →
        (∀ e, c.Passes program subject e → e.depth ≤ 5 + tree.calls subject.size) ∧
        ∀ limit : UInt32, 5 + tree.calls subject.size ≤ limit.toNat → ∀ fuel patience,
          c.next? program subject ⟨fuel, some limit⟩ patience =
            c.next? program subject ⟨fuel, none⟩ patience ∧
          ∀ exceeded d, c.next? program subject ⟨fuel, some limit⟩ patience ≠
            some (.failed (.callDepthExceeded exceeded), d)) ∧
    ((∀ id body capture q, .group id body capture q ∈ tree.nodes → q.max ≠ .unbounded) →
      ∃ bound, ∀ subject : Subject, 5 + tree.calls subject.size = bound) := by
  obtain ⟨hwf, root, hcompiled⟩ := wellFormed_of_compile hcompile
  refine ⟨fun subject c hsize hc => ?_, fun hbounded => ?_⟩
  · have hwrapped := Pattern.calls_wrapped_le hcompiled.wrapped subject.size
    have hstanding := hcompiled.standing hwf hsize
    obtain ⟨final, hobserved⟩ := hcompiled.observed hwf hsize
    refine ⟨fun e he => ?_, fun limit hlimit fuel patience => ?_⟩
    · exact Nat.le_trans (hobserved.depth_le_of_passes hstanding hc he) hwrapped
    · have hroom := Nat.le_trans hwrapped hlimit
      have hsame := hobserved.next?_of_room hstanding hc hroom fuel patience
      refine ⟨hsame, fun exceeded d hnext => ?_⟩
      obtain ⟨ms, hgoes⟩ := hstanding.of_reachable hc
      -- without the limit nothing can make this error
      cases (hgoes.of_next? (hsame.symm.trans hnext)).2 _ rfl with
      | depth hnone => cases hnone
  · exact ⟨5 + tree.calls 0, fun subject => by rw [Pattern.calls_eq_of_bounded hbounded _ 0]⟩

/-- The pattern `(?:a|(b?)){0,2}`. -/
def upToTwo : Pattern :=
  .group 1 (.alternation 2 (.literal 3 [97] .once)
    (.group 4 (.literal 5 [98] ⟨0, .finite 1, true⟩) (some 1) .once)) none ⟨0, .finite 2, true⟩

/-- The search for `upToTwo` has 17 calls pending at most, whatever it is searched in. -/
theorem pending_calls_bounded_upToTwo :
    ∃ program, compile upToTwo {} = .ok program ∧
      (∀ e, Cursor.new.Passes program #[98, 97] e → e.depth ≤ 17) ∧
      (∀ patience, Cursor.new.next? program #[98, 97] ⟨none, some 17⟩ patience =
        Cursor.new.next? program #[98, 97] {} patience) ∧
      ∃ bound, ∀ subject : Subject, 5 + upToTwo.calls subject.size = bound := by
  obtain ⟨program, hcompile⟩ : ∃ program, compile upToTwo {} = .ok program :=
    compile_isOk_of_isSome ⟨by decide, by decide⟩ (by decide)
  obtain ⟨hsearches, hbounded⟩ := pending_calls_bounded hcompile
  obtain ⟨hdepth, hlimit⟩ := hsearches #[98, 97] .new (by decide) .new
  refine ⟨program, hcompile, hdepth, fun patience => (hlimit 17 (by decide) none patience).1,
    hbounded ?_⟩
  intro id body capture q hmem
  simp only [upToTwo, Pattern.nodes, List.mem_cons, List.cons_append, List.nil_append,
    Pattern.group.injEq, reduceCtorEq, false_or, List.not_mem_nil, or_false] at hmem
  rcases hmem with ⟨_, _, _, rfl⟩ | ⟨_, _, _, rfl⟩ <;> decide

end

end PatternMachine
