import PatternMachine.Proofs.Shapes
import PatternMachine.Proofs.Suspending

/-!
# Groups that no longer record

Whether a group records its spans has no influence on what is matched.

* `Pattern.uncaptured` — the tree in which one group no longer records its spans.
* `Records.AgreeBut` — what other groups than one have recorded is the same.
* `Forgets` — two searches stand at the same match, and one of them does not report a group.

Principal results: `Quantifier.rounds_related` — rounds find the same from related records.
`found_uncaptured` — so what is found is the same, if nothing depends on the group.
`Compiled.reports_of_finds` — whichever groups it reports, the program of a tree passes the same
cursors, and they show what the tree means.  `Forgets.group_eq` — an index that the group does not
have keeps its spans.  `uncaptured_keeps_matches` — so the two searches find the same matches, and
only the spans of the group are not reported.
-/

set_option autoImplicit false

namespace PatternMachine

/-! ## Records -/

/-- Other groups than `id` have recorded the same. -/
def Records.AgreeBut (id : NodeId) (records records' : Records) : Prop :=
  ∀ other, other ≠ id → records' other = records other

namespace Records.AgreeBut

variable {id : NodeId} {records records' : Records}

theorem set (h : AgreeBut id records records') (group : NodeId) (spans : List Span) :
    AgreeBut id (records.set group spans) (records'.set group spans) := by
  intro other ho
  by_cases hgroup : other = group
  · rw [hgroup, PerNode.set_self, PerNode.set_self]
  · rw [PerNode.set_of_ne _ _ hgroup, PerNode.set_of_ne _ _ hgroup, h other ho]

/-- A repetition of any group keeps the agreement, if `id` does not record it any more. -/
theorem note (h : AgreeBut id records records') (group : NodeId) (capture : Option UInt32)
    (start stop : Nat) :
    AgreeBut id (records.note group capture start stop)
      (records'.note group (if group = id then Option.none else capture) start stop) := by
  intro other ho
  by_cases hgroup : group = id
  · subst hgroup
    rw [if_pos rfl, Records.note_of_ne _ _ _ _ ho, Records.note_of_ne _ _ _ _ ho]
    exact h other ho
  · rw [if_neg hgroup]
    unfold Records.note
    split
    · by_cases hother : other = group
      · rw [hother, PerNode.set_self, PerNode.set_self, h group hgroup]
      · rw [PerNode.set_of_ne _ _ hother, PerNode.set_of_ne _ _ hother, h other ho]
    · exact h other ho

/-- Slots of other groups are reported alike. -/
theorem report (h : AgreeBut id records records') {slots : List CaptureSlot}
    (hslots : ∀ slot ∈ slots, slot.group ≠ id) (p : Nat) :
    records'.report slots p = records.report slots p := by
  have hcaptures : records'.captures slots = records.captures slots := by
    refine Captures.ext_group (tidy_captures _ _) (tidy_captures _ _) fun index => ?_
    rw [group_captures_eq, group_captures_eq, List.flatMap_def, List.flatMap_def]
    refine congrArg List.flatten (List.map_congr_left fun slot hslot => ?_)
    exact h slot.group (hslots slot (List.mem_filter.mp hslot).1)
  rw [Records.report, Records.report, hcaptures]

end Records.AgreeBut

/-- **Rounds find the same from related records**, if their bodies do so, if what repetitions
record keeps the relation, and if the group goes on to the same. -/
theorem Quantifier.rounds_related {α : Type} {R : Records → Records → Prop} (q : Quantifier)
    {body body' : (Nat → Records → List α) → Nat → Records → List α}
    {note note' : Nat → Nat → Records → Records} {next next' : Nat → Records → List α}
    (hbody : ∀ f f', (∀ p records records', R records records' → f' p records' = f p records) →
      ∀ p records records', R records records' → body' f' p records' = body f p records)
    (hnote : ∀ start stop records records', R records records' →
      R (note start stop records) (note' start stop records'))
    (hnext : ∀ p records records', R records records' → next' p records' = next p records)
    (left k p : Nat) {records records' : Records} (h : R records records') :
    q.rounds body' note' next' left k p records' = q.rounds body note next left k p records := by
  induction left generalizing k p records records' with
  | zero => rw [rounds, rounds, hnext p _ _ h]
  | succ left ih =>
    rw [rounds, rounds, hnext p _ _ h]
    have hmore := hbody (fun stop after => q.rounds body note next left (k + 1) stop
        (note p stop after))
      (fun stop after => q.rounds body' note' next' left (k + 1) stop (note' p stop after))
      (fun stop after after' hafter => ih (k + 1) stop (hnote p stop after after' hafter)) p _ _ h
    rw [hmore]

/-! ## Trees -/

namespace Pattern

/-- The tree in which the group `target` no longer records its spans. -/
def uncaptured (target : NodeId) : Pattern → Pattern
  | .concat id first second => .concat id (first.uncaptured target) (second.uncaptured target)
  | .alternation id first second =>
    .alternation id (first.uncaptured target) (second.uncaptured target)
  | .group id body capture q =>
    .group id (body.uncaptured target) (if id = target then none else capture) q
  | .empty id => .empty id
  | .endMarker id => .endMarker id
  | .wildcard id q => .wildcard id q
  | .literal id bytes q => .literal id bytes q
  | .anchor id kind => .anchor id kind

variable {target : NodeId}

/-- The tree is like the one in which the group records. -/
theorem alike_uncaptured (target : NodeId) (tree : Pattern) :
    (tree.uncaptured target).Alike tree := by
  induction tree with
  | empty id => exact .empty id
  | endMarker id => exact .endMarker id
  | anchor id kind => exact .anchor id kind
  | wildcard id q => exact .wildcard id rfl rfl
  | literal id bytes q => exact .literal id bytes rfl rfl
  | concat id first second ihFirst ihSecond => exact .concat id ihFirst ihSecond
  | alternation id first second ihFirst ihSecond => exact .alternation id ihFirst ihSecond
  | group id body capture q ih => exact .group id capture _ ih rfl rfl

/-- **What is found does not depend on whether a group records**, if neither what an end marker
reports nor what comes behind the tree depends on its records. -/
theorem found_uncaptured {α : Type} (subject : Subject) {report : Nat → Records → α}
    (hreport : ∀ p records records', Records.AgreeBut target records records' →
      report p records' = report p records)
    (tree : Pattern) {next next' : Nat → Records → List α}
    (hnext : ∀ p records records', Records.AgreeBut target records records' →
      next' p records' = next p records)
    (p : Nat) {records records' : Records} (h : Records.AgreeBut target records records') :
    (tree.uncaptured target).found subject report next' p records' =
      tree.found subject report next p records := by
  induction tree generalizing next next' p records records' with
  | empty id => exact hnext p _ _ h
  | endMarker id => exact congrArg (fun found => [found]) (hreport p _ _ h)
  | wildcard id q =>
    rw [uncaptured, found, found]
    exact congrArg (List.flatMap · _) (funext fun k => hnext (p + k) _ _ h)
  | literal id bytes q =>
    rw [uncaptured, found, found]
    exact congrArg (List.flatMap · _) (funext fun k => hnext (p + k * bytes.length) _ _ h)
  | concat id first second ihFirst ihSecond =>
    exact ihFirst (fun p records records' h => ihSecond hnext p h) p h
  | alternation id first second ihFirst ihSecond =>
    rw [uncaptured, found, found, ihFirst hnext p h, ihSecond hnext p h]
  | group id body capture q ih =>
    rw [uncaptured, found, found]
    refine q.rounds_related (fun f f' hf p records records' h => ih hf p h) ?_ hnext _ _ _
      (h.set id [])
    exact fun start stop records records' h => h.note id capture start stop
  | anchor id kind =>
    rw [uncaptured, found, found, hnext p _ _ h]

theorem captureSlots_uncaptured (target : NodeId) (tree : Pattern) :
    (tree.uncaptured target).captureSlots =
      tree.captureSlots.filter fun slot => slot.group != target := by
  induction tree with
  | concat id first second ihFirst ihSecond | alternation id first second ihFirst ihSecond =>
    simp only [uncaptured, captureSlots, ihFirst, ihSecond, List.filter_append]
  | group id body capture q ih =>
    cases capture with
    | none => simp [uncaptured, captureSlots, ih]
    | some index =>
      by_cases hid : id = target <;> simp [uncaptured, captureSlots, ih, hid]
  | _ => rfl

/-- The slots of the group are left out of the table. -/
theorem captureTable_uncaptured (target : NodeId) (tree : Pattern) :
    Compilation.captureTable (tree.uncaptured target) =
      (Compilation.captureTable tree).filter fun slot => slot.group != target := by
  refine List.Perm.eq_of_pairwise (fun a b _ _ hab hba => slotLe_antisymm a b hab hba)
    (pairwise_captureTable _) ((pairwise_captureTable tree).filter _) ?_
  refine (List.mergeSort_perm _ _).trans ?_
  rw [captureSlots_uncaptured]
  exact ((List.mergeSort_perm _ _).symm.filter _)

/-- The nodes around the tree are the same, as long as they do not have the number of the group. -/
theorem wrapped?_uncaptured {tree root : Pattern} (hroot : tree.wrapped? = some root)
    (htarget : tree.wholeSlot.group ≠ target) :
    (tree.uncaptured target).wrapped? = some (root.uncaptured target) := by
  have halike := alike_uncaptured target tree
  have hdelimited : (tree.uncaptured target).delimited = tree.delimited.uncaptured target := by
    rw [delimited, delimited, uncaptured, uncaptured, uncaptured, halike.maxId_eq]
    rw [show (if tree.maxId + 1 = target then none else some wholeMatch) = some wholeMatch from
      if_neg htarget]
  obtain ⟨_, hshape⟩ := wrapped?_eq_some hroot
  obtain ⟨root', hroot'⟩ := halike.wrapped? hroot
  obtain ⟨_, hshape'⟩ := wrapped?_eq_some hroot'
  rw [hroot', hshape', hshape, halike.startAnchored_eq, hdelimited, halike.maxId_eq, scan,
    halike.maxId_eq]
  split <;> rfl

/-- Slots of other groups are reported alike at every match. -/
theorem reports_uncaptured {slots : List CaptureSlot}
    (hslots : ∀ slot ∈ slots, slot.group ≠ target) (root : Pattern) (subject : Subject) :
    (root.uncaptured target).reports slots subject = root.reports slots subject :=
  found_uncaptured subject (fun p _ _ h => h.report hslots p) root (fun _ _ _ _ => rfl) 0
    fun _ _ => rfl

end Pattern

/-! ## Searches -/

section

variable {program : Program} {subject : Subject} {ceiling : PerNode Nat} {c : Cursor}
variable {ms : List Match} {rs : List (Match × Cursor)}

/-- A search finds the matches that are to come. -/
theorem Standing.finds (h : Standing program subject ceiling c ms) :
    ∃ rs, rs.map Prod.fst = ms ∧ c.Finds program subject rs := by
  induction ms generalizing c with
  | nil =>
    obtain ⟨enough, d, hnext, _, _⟩ := h.next
    exact ⟨[], rfl, .none (hnext enough (Nat.le_refl enough))⟩
  | cons m ms ih =>
    obtain ⟨enough, d, hnext, hd, _⟩ := h.next
    obtain ⟨rs, hrs, hfinds⟩ := ih hd
    exact ⟨(m, d) :: rs, congrArg (m :: ·) hrs, .more (hnext enough (Nat.le_refl enough)) hfinds⟩

/-- Every match of a search is the answer to a question. -/
theorem Cursor.Finds.next? (h : c.Finds program subject rs)
    (hc : c.Reachable program subject fun _ => True) {r : Match × Cursor} (hr : r ∈ rs) :
    ∃ (b : Cursor) (patience : Nat), b.Reachable program subject (fun _ => True) ∧
      b.next? program subject {} patience = some (.found r.1, r.2) := by
  induction h with
  | none => cases hr
  | more hnext _ ih =>
    rcases List.mem_cons.mp hr with rfl | hr
    · exact ⟨_, _, hc, hnext⟩
    · exact ih (hc.next trivial hnext) hr

end

/-- The spans of a group are those of the stay at hand. -/
theorem Cursor.spans_eq (c : Cursor) (id : NodeId) :
    c.spans id = (c.groupState id).current.spans := by
  unfold spans groupState
  cases c.group? id <;> rfl

/-- A match has the span that the whole match has recorded. -/
theorem Records.span_report {tree root : Pattern} {records : Records} {span : Span} {p : Nat}
    (hroot : tree.wrapped? = some root) (hspan : records tree.wholeSlot.group = [span]) :
    (records.report (Compilation.captureTable root) p).span = span := by
  rw [Records.report, group_captures_eq, captureTable_wrapped hroot, List.flatMap_append,
    if_pos rfl, List.flatMap_singleton, hspan]
  simp

/-- A match that reports one slot shows what the group of the slot has recorded. -/
theorem Cursor.spans_of_report {c d : Cursor} {slot : CaptureSlot}
    (h : c.report [slot] = d.report [slot]) : c.spans slot.group = d.spans slot.group := by
  have hgroup := congrArg (fun m : Match => m.captures.group slot.index) h
  have hsingle : ∀ e : Cursor,
      (e.report [slot]).captures.group slot.index = e.spans slot.group := by
    intro e
    rw [Cursor.report, group_captures]
    simp
  simpa only [hsingle] using hgroup

/-- The slot of the whole match is one of a compiled pattern. -/
theorem Compiled.wholeSlot_mem {tree root : Pattern} {trace : Bool} {program : Program}
    (h : Compiled tree root trace program) : tree.wholeSlot ∈ program.captures := by
  rw [h.captures, Compilation.captureTable, List.mem_mergeSort, captureSlots_wrapped h.wrapped]
  exact List.mem_cons_self

namespace Compiled

variable {tree root : Pattern} {trace : Bool} {program : Program} {subject : Subject}
variable {limit : Nat} {rs : List (Match × Cursor)}

/-- **Whichever groups are reported, the cursors that the search of a compiled pattern passes show
what the tree means.** -/
theorem reports_of_finds (h : Compiled tree root trace program) (hwf : tree.WellFormed limit)
    (hsize : subject.size < 2 ^ 63) {slots : List CaptureSlot}
    (hslots : ∀ slot ∈ slots, root.capturing slot.group = true)
    (hfinds : Cursor.new.Finds program subject rs) :
    rs.map (fun r => r.2.report slots) = root.reports slots subject := by
  obtain ⟨start, stop, hstart, hstop, hleads⟩ := h.leads_back_reporting hwf hsize hslots
  have hstanding : Standing (program.reporting slots) subject (root.ceilings subject.size) .new
      (root.reports slots subject ++ []) := .fresh hstart (hleads.drains (.done hstop))
  obtain ⟨rs', hmatches, hfinds'⟩ := hstanding.finds
  rw [List.append_nil] at hmatches
  rw [← hmatches, hfinds'.unique (hfinds.reporting slots), List.map_map]
  rfl

/-- Where a search stops at a match, the whole match has recorded the span of the match. -/
theorem spans_wholeSlot_of_finds (h : Compiled tree root trace program)
    (hwf : tree.WellFormed limit) (hend : tree.endFree = true) (hsize : subject.size < 2 ^ 63)
    (hfinds : Cursor.new.Finds program subject rs) {r : Match × Cursor} (hr : r ∈ rs) :
    r.2.spans tree.wholeSlot.group = [r.1.span] := by
  obtain ⟨b, patience, hb, hnext⟩ := hfinds.next? .new hr
  obtain ⟨groups, ⟨low, _, _, hmarks, _⟩, hgroups, hmatch⟩ :=
    h.recorded_of_found hwf hend hsize hb hnext
  have hspans : groups.spans tree.wholeSlot.group = [⟨low, r.2.position⟩] := by
    simp [Groups.spans, Activation.spans, hmarks, spansOf]
  rw [hmatch, Records.span_report h.wrapped hspans, ← hspans, Cursor.spans_eq, hgroups]
  rfl

end Compiled

/-! ## Two searches -/

/-- Two searches stand at the same match, and the second one no longer reports the group `id`: all
other groups that the first one reports have recorded the same spans, and under every index the
second one reports what the first one would report without the group. -/
structure Forgets (slots : List CaptureSlot) (id : NodeId) (r r' : Match × Cursor) : Prop where
  span : r'.1.span = r.1.span
  others : ∀ slot ∈ slots, slot.group ≠ id → r'.2.spans slot.group = r.2.spans slot.group
  reported : r.1.captures = r.2.captures slots
  remaining : r'.1.captures = r.2.captures (slots.filter fun slot => slot.group != id)

/-- An index that the group does not have keeps its spans. -/
theorem Forgets.group_eq {slots : List CaptureSlot} {id : NodeId} {r r' : Match × Cursor}
    (h : Forgets slots id r r') {index : UInt32} (hindex : ⟨index, id⟩ ∉ slots) :
    r'.1.captures.group index = r.1.captures.group index := by
  rw [h.remaining, h.reported, group_captures, group_captures, List.filter_filter]
  refine congrArg (List.flatMap _) (List.filter_congr fun slot hslot => ?_)
  have hne : slot.index = index → slot.group ≠ id := by
    rintro rfl rfl
    exact hindex hslot
  by_cases hsame : slot.index = index <;> simp [hsame, hne]

namespace Compiled

variable {tree root : Pattern} {id : NodeId} {trace : Bool} {program program' : Program}
variable {subject : Subject} {limit : Nat} {rs rs' : List (Match × Cursor)}

theorem captures_uncaptured (h : Compiled tree root trace program)
    (h' : Compiled (tree.uncaptured id) (root.uncaptured id) trace program') :
    program'.captures = program.captures.filter fun slot => slot.group != id := by
  rw [h'.captures, h.captures, Pattern.captureTable_uncaptured]

/-- Whichever of the remaining groups are reported, both searches report the same. -/
theorem reports_eq (h : Compiled tree root trace program)
    (h' : Compiled (tree.uncaptured id) (root.uncaptured id) trace program')
    (hwf : tree.WellFormed limit) (hsize : subject.size < 2 ^ 63)
    (hfinds : Cursor.new.Finds program subject rs) (hfinds' : Cursor.new.Finds program' subject rs')
    {slots : List CaptureSlot} (hslots : ∀ slot ∈ slots, slot ∈ program'.captures) :
    rs.map (fun r => r.2.report slots) = rs'.map fun r => r.2.report slots := by
  have hwf' := (Pattern.alike_uncaptured id tree).wellFormed hwf
  have hothers : ∀ slot ∈ slots, slot ∈ program.captures ∧ slot.group ≠ id := by
    intro slot hslot
    simpa [h.captures_uncaptured h'] using hslots slot hslot
  have hreports := h.reports_of_finds hwf hsize (fun slot hslot =>
    h.capturing_of_mem_captures (hwf.wrapped h.wrapped) (hothers slot hslot).1) hfinds
  have hreports' := h'.reports_of_finds hwf' hsize (fun slot hslot =>
    h'.capturing_of_mem_captures (hwf'.wrapped h'.wrapped) (hslots slot hslot)) hfinds'
  rw [hreports, hreports', Pattern.reports_uncaptured fun slot hslot => (hothers slot hslot).2]

/-- Where the cursors of both searches show the same of all remaining groups, the second search
reports what the first one does without the group. -/
theorem forgets (h : Compiled tree root trace program)
    (h' : Compiled (tree.uncaptured id) (root.uncaptured id) trace program')
    (hwf : tree.WellFormed limit) (hend : tree.endFree = true)
    (hwhole : tree.wholeSlot.group ≠ id) (hsize : subject.size < 2 ^ 63)
    (hfinds : Cursor.new.Finds program subject rs) (hfinds' : Cursor.new.Finds program' subject rs')
    {r r' : Match × Cursor} (hr : r ∈ rs) (hr' : r' ∈ rs')
    (hsame : ∀ slots, (∀ slot ∈ slots, slot ∈ program'.captures) →
      r.2.report slots = r'.2.report slots) : Forgets program.captures id r r' := by
  have halike := Pattern.alike_uncaptured id tree
  have hslots := h.captures_uncaptured h'
  have hothers : ∀ slot ∈ program.captures, slot.group ≠ id →
      r'.2.spans slot.group = r.2.spans slot.group := by
    intro slot hslot hne
    exact (Cursor.spans_of_report (hsame [slot] (by simp [hslots, hslot, hne]))).symm
  refine ⟨?_, hothers, ?_, ?_⟩
  · have hend' : (tree.uncaptured id).endFree = true := by rw [halike.endFree_eq, hend]
    have hspans : r'.2.spans tree.wholeSlot.group = [r'.1.span] := by
      have hspans := h'.spans_wholeSlot_of_finds (halike.wellFormed hwf) hend' hsize hfinds' hr'
      rwa [Pattern.wholeSlot, halike.maxId_eq] at hspans
    rw [hothers tree.wholeSlot h.wholeSlot_mem hwhole,
      h.spans_wholeSlot_of_finds hwf hend hsize hfinds hr] at hspans
    exact (List.singleton_inj.mp hspans).symm
  · rw [hfinds.report hr]
    rfl
  · rw [hfinds'.report hr', ← hsame program'.captures fun slot hslot => hslot, hslots]
    rfl

end Compiled

/-- **Whether a group records has no influence on what is matched.**  Take a group of an accepted
tree, under any quantifier and at any nesting, and let it no longer record its spans.  The new tree
is accepted, too.  In every subject the two searches find as many matches, in the same order and
with the same spans; at each of them all other groups have recorded the same, and what the second
search reports is what the first one reports without the spans of the group. -/
theorem uncaptured_keeps_matches {tree body : Pattern} {id : NodeId} {capture : Option UInt32}
    {q : Quantifier} {options : CompileOptions} {program : Program}
    (hgroup : .group id body capture q ∈ tree.nodes) (hcompile : compile tree options = .ok program)
    (hend : tree.endFree = true) :
    ∃ program', compile (tree.uncaptured id) options = .ok program' ∧
      program'.captures = program.captures.filter (fun slot => slot.group != id) ∧
      ∀ subject : Subject, subject.size < 2 ^ 63 →
        ∃ rs rs', Cursor.new.Finds program subject rs ∧ Cursor.new.Finds program' subject rs' ∧
          List.Forall₂ (Forgets program.captures id) rs rs' := by
  obtain ⟨program', hcompile'⟩ :=
    compile_isOk_of_alike (Pattern.alike_uncaptured id tree) hcompile
  obtain ⟨hwf, root, h⟩ := wellFormed_of_compile hcompile
  obtain ⟨hwf', root', h'⟩ := wellFormed_of_compile hcompile'
  have hwhole : tree.wholeSlot.group ≠ id := by
    rintro rfl
    exact wholeSlot_not_mem h.wrapped (List.mem_map_of_mem hgroup)
  obtain rfl : root' = root.uncaptured id :=
    Option.some.inj (h'.wrapped.symm.trans (Pattern.wrapped?_uncaptured h.wrapped hwhole))
  refine ⟨program', hcompile', h.captures_uncaptured h', fun subject hsize => ?_⟩
  obtain ⟨rs, _, hfinds⟩ := (h.standing hwf hsize).finds
  obtain ⟨rs', _, hfinds'⟩ := (h'.standing hwf' hsize).finds
  have hsame : ∀ slots, (∀ slot ∈ slots, slot ∈ program'.captures) →
      rs.map (fun r => r.2.report slots) = rs'.map fun r => r.2.report slots :=
    fun slots hslots => h.reports_eq h' hwf hsize hfinds hfinds' hslots
  have hlength : rs.length = rs'.length := by
    simpa using congrArg List.length (hsame [] (by simp))
  refine ⟨rs, rs', hfinds, hfinds', List.forall₂_iff_get.mpr ⟨hlength, fun i hi hi' => ?_⟩⟩
  refine h.forgets h' hwf hend hwhole hsize hfinds hfinds' (List.get_mem ..) (List.get_mem ..) ?_
  intro slots hslots
  simpa [hi, hi'] using congrArg (fun ms : List Match => ms[i]?) (hsame slots hslots)

/-- The pattern `(?:(a))*`, with a group that is matched exactly once in every repetition. -/
def repeatedOnce : Pattern :=
  .group 1 (.group 2 (.literal 3 [97] .once) (some 1) .once) none ⟨0, .unbounded, true⟩

/-- The inner group of `repeatedOnce` needs no state when it no longer records. -/
theorem uncaptured_keeps_matches_repeatedOnce :
    ∃ program program', compile repeatedOnce {} = .ok program ∧
      compile (repeatedOnce.uncaptured 2) {} = .ok program' ∧
      ∃ rs rs', Cursor.new.Finds program #[97, 97, 98] rs ∧
        Cursor.new.Finds program' #[97, 97, 98] rs' ∧
        List.Forall₂ (Forgets program.captures 2) rs rs' := by
  obtain ⟨program, hcompile⟩ : ∃ program, compile repeatedOnce {} = .ok program :=
    compile_isOk_of_isSome ⟨by decide, by decide⟩ (by decide)
  have hgroup : .group 2 (.literal 3 [97] .once) (some 1) .once ∈ repeatedOnce.nodes := by decide
  obtain ⟨program', hcompile', _, hfinds⟩ :=
    uncaptured_keeps_matches hgroup hcompile (by decide)
  exact ⟨program, program', hcompile, hcompile', hfinds #[97, 97, 98] (by decide)⟩

end PatternMachine
