import PatternMachine.Proofs.Limits
import PatternMachine.Proofs.Tiling

/-!
# What a search has recorded where it stops

* `Pattern.Recorded` — what the groups have recorded where the end of a whole pattern is reached.
* `Pattern.promise` — how many calls the search of a tree has pending at most, and that it reports
  matches where this is recorded.

Principal results: `Compiled.upheld` — the search of a compiled pattern keeps every promise that
allows for the calls of the wrapped tree, and for reporting matches where the groups have recorded
what they should.  `match_records` — so at every match the last span of the whole match is that of
the match, and every group of the tree has recorded spans that lie one behind the other inside of
it.
-/

set_option autoImplicit false

namespace PatternMachine

open Lowering

/-- What the groups have recorded where the end of the whole pattern is reached at offset `p`: the
whole match the offset at which it began, and `p`, and the groups of the tree what they should. -/
def Pattern.Recorded (tree : Pattern) (size p : Nat) (groups : Groups) : Prop :=
  ∃ low, low ≤ p ∧ p ≤ size ∧ (groups tree.wholeSlot.group).current.marks = [p, low] ∧
    tree.Settled low p groups

/-- What is promised of the search of a tree that is wrapped as `root`. -/
def Pattern.promise (tree root : Pattern) (size : Nat) : Promise :=
  ⟨1 + root.calls size, tree.Recorded size⟩

namespace Promise

variable {promise : Promise} {program : Program} {subject : Subject} {ceiling : PerNode Nat}
variable {n room a p limit : Nat} {next : Label} {trace : Bool} {is : List Instruction}
variable {tree root : Pattern}

/-- The tree as the whole match, with the end marker behind it. -/
theorem delimited_allows (hf : program.Framed) (hsize : subject.size < 2 ^ 63)
    (hwf : tree.delimited.WellFormed limit)
    (hfree : tree.endFree = false → ∀ p groups, promise.reports p groups)
    (hreports : ∀ p groups, tree.Recorded subject.size p groups → promise.reports p groups)
    {groups : Groups} (h : program.HasAt a (tree.delimited.code trace next ++ is))
    (hp : p ≤ subject.size) (hunused : ∀ id ∈ tree.ids, (groups id).current.marks = []) :
    promise.Allows program subject ceiling n (room + tree.delimited.calls subject.size)
      (.node tree.delimited.id) p groups := by
  have hparts := hwf.concat
  obtain ⟨hbody, hid, -, hempty⟩ := hparts.first.group
  rw [Pattern.delimited, Pattern.code_concat, List.append_assoc, List.append_assoc] at h
  refine .of_head hf.linked h fun b h rs hrs => ?_
  subst hrs
  refine Allows.fall_through ?_ hf.linked h
  refine group_allows hf hsize hid hempty rfl h (fun _ h => code_carries hf hsize hbody hfree h)
    hp (Nat.le_refl _) (.of_unused (Nat.le_refl _) hunused) fun stop after hreach hstop hown => ?_
  obtain ⟨k, hmin, hmax, htiled⟩ := hown
  -- the whole match is repeated exactly once, so that it has recorded one span
  obtain rfl : k = 1 := by
    have hle : k ≤ 1 := of_decide_eq_true hmax
    have hge : 1 ≤ k := hmin
    omega
  have hmarks : (after tree.wholeSlot.group).current.marks = [stop, rs.pos] := by
    have hspan := htiled rfl
    generalize hm : (after (tree.maxId + 1)).current.marks = marks at hspan
    cases hspan with
    | cons hstart _ =>
      cases hstart
      exact hm
  have hend := h.right
  rw [Pattern.code_endMarker, List.append_assoc] at hend
  refine .of_head hf.linked hend fun b h rs' hrs' => ?_
  subst hrs'
  refine .yield h (hreports _ _ ⟨rs.pos, hreach.le, hreach.le_size, hmarks, hstop⟩) fun h => ?_
  exact .goto h (Allows.fail hf).jump

/-- The wrapped tree, when no group was used. -/
theorem wrapped_allows (hf : program.Framed) (hsize : subject.size < 2 ^ 63)
    (hroot : tree.wrapped? = some root) (hwf : root.WellFormed limit)
    (hfree : tree.endFree = false → ∀ p groups, promise.reports p groups)
    (hreports : ∀ p groups, tree.Recorded subject.size p groups → promise.reports p groups)
    (h : program.HasAt a (root.code trace next ++ is)) :
    promise.Allows program subject ceiling n (room + root.calls subject.size) (.node root.id) 0
      .new := by
  obtain ⟨_, hshape⟩ := Pattern.wrapped?_eq_some hroot
  by_cases hanchored : tree.startAnchored = true
  · rw [if_pos hanchored] at hshape
    subst hshape
    exact delimited_allows hf hsize hwf hfree hreports h (Nat.zero_le _) fun _ _ => rfl
  · rw [if_neg hanchored] at hshape
    subst hshape
    rw [Pattern.code_concat, List.append_assoc, List.append_assoc] at h
    rw [Pattern.calls, Nat.add_comm (tree.scan.calls _), ← Nat.add_assoc]
    refine .of_head hf.linked h fun b h rs hrs => ?_
    refine Allows.fall_through ?_ hf.linked h
    have hat := h
    rw [Pattern.scan, Pattern.code_wildcard, List.append_assoc] at hat
    refine .of_head hf.linked hat fun b h' rs' hrs' => ?_
    refine wildcardBlock_proceeds hf h'.left (hrs'.trans hrs) (Nat.zero_le _) fun k _ hk => ?_
    exact delimited_allows hf hsize hwf.concat.second hfree hreports h.right hk fun _ _ => rfl

end Promise

namespace Compiled

variable {tree root : Pattern} {trace : Bool} {program : Program} {subject : Subject}
variable {ceiling : PerNode Nat} {promise : Promise} {limit : Nat}

theorem framed (h : Compiled tree root trace program) : program.Framed :=
  ⟨h.linked, _, h.hasAt_root.right⟩

/-- **The search of a compiled pattern keeps every promise** that allows for the calls of the
wrapped tree, and for reporting matches where the groups have recorded what they should. -/
theorem upheld (h : Compiled tree root trace program) (hwf : tree.WellFormed limit)
    (hsize : subject.size < 2 ^ 63) (hcalls : 1 + root.calls subject.size ≤ promise.calls)
    (hfree : tree.endFree = false → ∀ p groups, promise.reports p groups)
    (hreports : ∀ p groups, tree.Recorded subject.size p groups → promise.reports p groups)
    {start : Nat} (hstart : program.resolve? .search = some start) :
    promise.Upheld program subject ceiling ⟨start, .zero, [], .new⟩ := by
  intro n
  have hroot := hwf.wrapped h.wrapped
  -- when the tree has come back, the search is over
  have hover : ∀ {a}, program.HasAt a [.block .failForever none, .exhausted, .goto .failForever] →
      promise.Kept program subject ceiling n ⟨a, .zero, [], .new⟩ := by
    intro a hat
    refine .of_moves (Nat.zero_le _) fun out y hm => ?_
    cases hm <;> cases Eq.trans (Eq.symm ‹program.code[a]? = some _›) hat.head
    refine ⟨nofun, .of_moves (Nat.zero_le _) fun out y hm => ?_⟩
    cases hm <;> cases Eq.trans (Eq.symm ‹program.code[a + 1]? = some _›) hat.tail.head
  have hcall : ∀ {a}, program.HasAt a [.call (.node root.id), .block .failForever none, .exhausted,
      .goto .failForever] → promise.Kept program subject ceiling n ⟨a, .zero, [], .new⟩ := by
    intro a hat
    refine .of_moves (Nat.zero_le _) fun out y hm => ?_
    cases hm <;> cases Eq.trans (Eq.symm ‹program.code[a]? = some _›) hat.head
    have htree : promise.Allows program subject ceiling n (0 + root.calls subject.size)
        (.node root.id) 0 .new :=
      Promise.wrapped_allows h.framed hsize h.wrapped hroot hfree hreports h.hasAt_root
    refine ⟨nofun, htree.jump _ ‹_› n (Nat.le_refl n) _ _ ?_ (hover hat.tail)⟩
    simpa using hcalls
  have hat := h.hasAt_opening
  unfold Compilation.opening head at hat
  have hzero : start = 0 := by
    have hplace : program.resolve? .search = some 0 := by
      cases trace <;> exact h.linked.resolve hat
    exact Option.some.inj (hstart.symm.trans hplace)
  subst hzero
  cases trace with
  | false =>
    refine .of_moves (Nat.zero_le _) fun out y hm => ?_
    cases hm <;> cases Eq.trans (Eq.symm ‹program.code[0]? = some _›) hat.head
    exact ⟨nofun, hcall hat.tail⟩
  | true =>
    refine .of_moves (Nat.zero_le _) fun out y hm => ?_
    cases hm <;> cases Eq.trans (Eq.symm ‹program.code[0]? = some _›) hat.head
    refine ⟨nofun, .of_moves (Nat.zero_le _) fun out y hm => ?_⟩
    cases hm <;> cases Eq.trans (Eq.symm ‹program.code[1]? = some _›) hat.tail.head
    exact ⟨nofun, hcall hat.tail.tail⟩

end Compiled

/-! ## Matches -/

/-- Why a search that answers with a match stops: by a step from a state that is traced. -/
theorem Standing.step_of_found {program : Program} {subject : Subject} {ceiling : PerNode Nat}
    {ms : List Match} {allowed : Limits → Prop} {c d : Cursor} {limits : Limits} {patience : Nat}
    {m : Match} (h : Standing program subject ceiling .new ms)
    (hc : c.Reachable program subject allowed)
    (hnext : c.next? program subject limits patience = some (.found m, d)) :
    ∃ (e : Cursor) (calls : List Cursor), e.Traced program subject calls ∧
      e.step program subject limits.depth = .halted d (.found m) := by
  rcases Cursor.next?_eq_some hnext with hbegin | ⟨b, n, hbegin, hrun, _⟩ |
    ⟨_, _, _, _, _, _, hfailed, _⟩
  · unfold Cursor.begin at hbegin
    split at hbegin
    · cases hbegin
    · cases hbegin
    · split at hbegin <;> cases hbegin
  · obtain ⟨calls, hb⟩ := (h.resting hc).begin hbegin
    exact hb.halted hrun
  · cases hfailed

section

variable {tree root : Pattern} {size p : Nat} {groups : Groups}

/-- What a match reports of the whole match: its span behind those of the groups of the tree that
have the same index. -/
theorem Pattern.Recorded.report (hroot : tree.wrapped? = some root)
    (h : tree.Recorded size p groups) :
    ∃ low, low ≤ p ∧ p ≤ size ∧ tree.Settled low p groups ∧
      (groups.spans.report (Compilation.captureTable root) p).span = ⟨low, p⟩ ∧
      (groups.spans.report (Compilation.captureTable root) p).captures.group wholeMatch =
        (((Compilation.captureTable tree).filter fun slot => slot.index == wholeMatch).flatMap
          fun slot => groups.spans slot.group) ++ [⟨low, p⟩] := by
  obtain ⟨low, hlow, hp, hmarks, hsettled⟩ := h
  have hwhole : groups.spans tree.wholeSlot.group = [⟨low, p⟩] := by
    simp [Groups.spans, Activation.spans, hmarks, spansOf]
  have hgroup : (groups.spans.captures (Compilation.captureTable root)).group wholeMatch =
      (((Compilation.captureTable tree).filter fun slot => slot.index == wholeMatch).flatMap
        fun slot => groups.spans slot.group) ++ [⟨low, p⟩] := by
    rw [Records.group_captures_eq, captureTable_wrapped hroot, List.flatMap_append, if_pos rfl,
      List.flatMap_singleton, hwhole]
  refine ⟨low, hlow, hp, hsettled, ?_, hgroup⟩
  simp [Records.report, hgroup]

/-- A tree of which no group has an index has no slot for it. -/
theorem Pattern.filter_captureTable_eq_nil {index : UInt32}
    (h : ∀ id body q, .group id body (some index) q ∉ tree.nodes) :
    ((Compilation.captureTable tree).filter fun slot => slot.index == index) = [] := by
  rw [List.filter_eq_nil_iff]
  intro slot hslot hindex
  rw [Compilation.captureTable, List.mem_mergeSort, Pattern.mem_captureSlots] at hslot
  obtain ⟨body, q, hmem⟩ := hslot
  rw [beq_iff_eq.mp hindex] at hmem
  exact h _ _ _ hmem

end

section

variable {tree root : Pattern} {options : CompileOptions} {program : Program} {subject : Subject}
variable {c d : Cursor} {limits : Limits} {patience : Nat} {m : Match}

/-- **Where a search stops at a match, the groups have recorded what they should**, and the match
reports it. -/
theorem Compiled.recorded_of_found {trace : Bool} {limit : Nat}
    (h : Compiled tree root trace program) (hwf : tree.WellFormed limit)
    (hend : tree.endFree = true) (hsize : subject.size < 2 ^ 63)
    (hc : c.Reachable program subject fun _ => True)
    (hnext : c.next? program subject limits patience = some (.found m, d)) :
    ∃ groups : Groups, tree.Recorded subject.size d.position groups ∧
      (∀ id, d.groupState id = groups id) ∧
      m = groups.spans.report (Compilation.captureTable root) d.position := by
  obtain ⟨start, stop, hstart, hstop, hleads⟩ := h.leads_back hwf hsize
  obtain ⟨e, calls, htraced, hstep⟩ := (h.standing hwf hsize).step_of_found hc hnext
  -- the promise is kept from the start on, so it is kept where the match is reported
  have hinit : (tree.promise root subject.size).Upheld program subject
      (root.ceilings subject.size) ⟨start, .zero, [], .new⟩ :=
    h.upheld hwf hsize (Nat.le_refl _) (by simp [hend]) (fun _ _ h => h) hstart
  have htrack := OnTrack.of_traced hstart hstop hleads hinit (fun _ _ _ => .next) htraced
  obtain ⟨x, y, hx, hm, hshows⟩ := htrack.found hstop hstep
  have hrecorded := hx.reports_of_moves hm
  cases hm with
  | yield =>
    refine ⟨_, ?_, hshows.groups, ?_⟩
    · rw [Cursor.position, hshows.registers]
      exact hrecorded
    · rw [Cursor.position, hshows.registers, h.captures]

/-- **What a match records.**  Where the search of a compiled pattern stops at a match, its position
is where the span of the match ends, and the span lies inside of the subject.  The last span under
the index of the whole match is that of the match, and it is the only one unless a group of the tree
has this index.  The positions that a group of the tree has recorded are the ends of spans: of none,
or of as many as its quantifier admits.  They all lie inside of the match, and each of them ends
where the next one begins. -/
theorem match_records (hcompile : compile tree options = .ok program)
    (hend : tree.endFree = true) (hsize : subject.size < 2 ^ 63)
    (hc : c.Reachable program subject fun _ => True)
    (hnext : c.next? program subject limits patience = some (.found m, d)) :
    d.position = m.span.stop ∧ m.span.start ≤ m.span.stop ∧ m.span.stop ≤ subject.size ∧
    (m.captures.group wholeMatch).getLast? = some m.span ∧
    ((∀ id body q, .group id body (some wholeMatch) q ∉ tree.nodes) →
      m.captures.group wholeMatch = [m.span]) ∧
    ∀ id body index q, .group id body (some index) q ∈ tree.nodes →
      ∃ spans : List Span,
        (d.groupState id).current.marks.reverse = spans.flatMap (fun s => [s.start, s.stop]) ∧
        (spans = [] ∨ q.min.toNat ≤ spans.length ∧ q.max.covers spans.length = true) ∧
        (∀ s ∈ spans, m.span.start ≤ s.start ∧ s.start ≤ s.stop ∧ s.stop ≤ m.span.stop) ∧
        spans.IsChain fun s t => s.stop = t.start := by
  obtain ⟨hwf, root, hcompiled⟩ := wellFormed_of_compile hcompile
  obtain ⟨groups, hrecorded, hgroups, rfl⟩ :=
    hcompiled.recorded_of_found hwf hend hsize hc hnext
  obtain ⟨low, hlow, hp, hsettled, hspan, hwhole⟩ := hrecorded.report hcompiled.wrapped
  rw [hspan, hwhole]
  refine ⟨rfl, hlow, hp, by simp, fun hnone => ?_, fun id body index q hmem => ?_⟩
  · rw [Pattern.filter_captureTable_eq_nil hnone]
    rfl
  · obtain ⟨start, stop, k, hstart, hstop, htiled, hk⟩ := hsettled id body index q hmem
    obtain ⟨spans, hmarks, hlength, hchain, hinside, _⟩ := htiled.spans
    refine ⟨spans, by rw [hgroups id, hmarks], ?_, fun s hs => ?_, hchain⟩
    · rw [← hlength, List.length_eq_zero_iff] at hk
      exact hk
    · obtain ⟨hfirst, hordered, hlast⟩ := hinside s hs
      exact ⟨Nat.le_trans hstart hfirst, hordered, Nat.le_trans hlast hstop⟩

/-- The first match of `(a)*b` in the text `aab`: the group has recorded one span for each `a`, one
behind the other. -/
theorem match_records_aStarB :
    ∃ (program : Program) (d : Cursor) (m : Match) (patience : Nat) (spans : List Span),
      compile aStarB {} = .ok program ∧
      Cursor.new.next? program #[97, 97, 98] {} patience = some (.found m, d) ∧
      m.span = ⟨0, 3⟩ ∧ d.position = 3 ∧ m.captures.group wholeMatch = [⟨0, 3⟩] ∧
      (d.groupState 2).current.marks.reverse = spans.flatMap (fun s => [s.start, s.stop]) ∧
      spans.IsChain fun s t => s.stop = t.start := by
  obtain ⟨program, hcompile⟩ := aStarB_compiles
  have hsize : (#[97, 97, 98] : Subject).size < 2 ^ 63 := by decide
  obtain ⟨_, hstanding⟩ := standing_of_compile hcompile (by decide) hsize
  obtain ⟨m, hm, hspan⟩ : ∃ m, (aStarB.matchesIn #[97, 97, 98]).head? = some m ∧
      m.span = ⟨0, 3⟩ := by
    have hfirst : (aStarB.matchesIn #[97, 97, 98]).head?.map Match.span = some ⟨0, 3⟩ := by
      decide
    simpa using hfirst
  obtain ⟨patience, d, hnext, _⟩ := hstanding.next
  have hfound := hnext patience (Nat.le_refl patience)
  rw [answerOf, hm] at hfound
  obtain ⟨hposition, _, _, _, honly, hgroups⟩ :=
    match_records hcompile (by decide) hsize .new hfound
  obtain ⟨spans, hmarks, _, _, hchain⟩ :=
    hgroups 2 (.literal 3 [97] .once) 1 ⟨0, .unbounded, true⟩ (by decide)
  refine ⟨program, d, m, patience, spans, hcompile, hfound, hspan, ?_, ?_, hmarks, hchain⟩
  · rw [hposition, hspan]
  · rw [honly (by simp [aStarB, Pattern.nodes, wholeMatch]), hspan]

end

end PatternMachine
