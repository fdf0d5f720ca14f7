import PatternMachine.Proofs.Grouping
import PatternMachine.Proofs.Numbering
import PatternMachine.Proofs.Uncapturing

/-!
# Joined literals mean what their parts mean

A literal that is matched once can take over the bytes of such a literal right behind it.  The two
trees have the same matches, and the numbers of their nodes do not matter, as long as no number and
no capture index is used twice in one of them.

* `Records.AgreeUnder` — what has been recorded under an index is the same, whatever the numbers of
  the groups are.
* `Pattern.Slotted` — slots tell of every group of a tree under which index it records.
* `Pattern.JoinsTo` — the second tree is the first one with some neighbouring literals joined.

Principal results: `Pattern.JoinsTo.found_eq` — from records that agree, both trees find the same.
`Records.captures_eq_of_agreeUnder` — and report the same captures.
`Pattern.JoinsTo.matchesIn_eq` — so they have the same matches.
-/

set_option autoImplicit false

namespace PatternMachine

/-! ## Records -/

/-- What the groups of two lists of slots have recorded under the same index is the same. -/
def Records.AgreeUnder (slots slots' : List CaptureSlot) (records records' : Records) : Prop :=
  ∀ slot ∈ slots, ∀ slot' ∈ slots', slot'.index = slot.index →
    records' slot'.group = records slot.group

/-- The slots tell under which index the group `id` records, if it records. -/
def Assigns (slots : List CaptureSlot) (id : NodeId) (capture : Option UInt32) : Prop :=
  ∀ slot ∈ slots, slot.group = id ↔ capture = some slot.index

namespace Records.AgreeUnder

variable {slots slots' : List CaptureSlot} {records records' : Records} {id id' : NodeId}
variable {capture : Option UInt32}

theorem none : AgreeUnder slots slots' .none .none := fun _ _ _ _ _ => rfl

/-- One group of the first list is the group at hand exactly if that of the second list is. -/
theorem group_eq_iff (hid : Assigns slots id capture) (hid' : Assigns slots' id' capture)
    {slot slot' : CaptureSlot} (hslot : slot ∈ slots) (hslot' : slot' ∈ slots')
    (hindex : slot'.index = slot.index) : slot'.group = id' ↔ slot.group = id := by
  rw [hid slot hslot, hid' slot' hslot', hindex]

theorem set (h : AgreeUnder slots slots' records records') (hid : Assigns slots id capture)
    (hid' : Assigns slots' id' capture) (spans : List Span) :
    AgreeUnder slots slots' (records.set id spans) (records'.set id' spans) := by
  intro slot hslot slot' hslot' hindex
  have hiff := group_eq_iff hid hid' hslot hslot' hindex
  by_cases hgroup : slot.group = id
  · rw [hgroup, hiff.mpr hgroup, PerNode.set_self, PerNode.set_self]
  · rw [PerNode.set_of_ne _ _ hgroup, PerNode.set_of_ne _ _ (mt hiff.mp hgroup),
      h slot hslot slot' hslot' hindex]

theorem note (h : AgreeUnder slots slots' records records') (hid : Assigns slots id capture)
    (hid' : Assigns slots' id' capture) (start stop : Nat) :
    AgreeUnder slots slots' (records.note id capture start stop)
      (records'.note id' capture start stop) := by
  intro slot hslot slot' hslot' hindex
  have hiff := group_eq_iff hid hid' hslot hslot' hindex
  have hsame := h slot hslot slot' hslot' hindex
  by_cases hgroup : slot.group = id
  · have hgroup' := hiff.mpr hgroup
    rw [hgroup, hgroup'] at hsame
    rw [hgroup, hgroup']
    unfold Records.note
    split
    · rw [PerNode.set_self, PerNode.set_self, hsame]
    · exact hsame
  · rw [Records.note_of_ne _ _ _ _ hgroup, Records.note_of_ne _ _ _ _ (mt hiff.mp hgroup), hsame]

end Records.AgreeUnder

/-! ## Captures -/

theorem Records.group_captures_of_mem {slots : List CaptureSlot} (records : Records)
    (hnodup : (slots.map CaptureSlot.index).Nodup) {slot : CaptureSlot} (hslot : slot ∈ slots) :
    (records.captures slots).group slot.index = records slot.group := by
  have honly : (slots.filter fun s => s.index == slot.index) = slots.filter (· == slot) := by
    refine List.filter_congr fun s hs => ?_
    rw [Bool.eq_iff_iff, beq_iff_eq, beq_iff_eq]
    exact ⟨fun hindex => List.inj_on_of_nodup_map hnodup hs hslot hindex, congrArg _⟩
  rw [group_captures_eq, honly, List.filter_beq,
    List.count_eq_one_of_mem (List.Nodup.of_map _ hnodup) hslot, List.replicate_one,
    List.flatMap_singleton]

theorem Records.group_captures_of_not_mem {slots : List CaptureSlot} (records : Records)
    {index : UInt32} (h : index ∉ slots.map CaptureSlot.index) :
    (records.captures slots).group index = [] := by
  have hnone : (slots.filter fun s => s.index == index) = [] := by
    rw [List.filter_eq_nil_iff]
    intro s hs hindex
    exact h (List.mem_map.mpr ⟨s, hs, eq_of_beq hindex⟩)
  rw [group_captures_eq, hnone, List.flatMap_nil]

/-- **Records that agree are reported alike**, if no index is used twice. -/
theorem Records.captures_eq_of_agreeUnder {slots slots' : List CaptureSlot}
    {records records' : Records} (h : AgreeUnder slots slots' records records')
    (hperm : (slots'.map CaptureSlot.index).Perm (slots.map CaptureSlot.index))
    (hnodup : (slots.map CaptureSlot.index).Nodup) :
    records'.captures slots' = records.captures slots := by
  refine Captures.ext_group (tidy_captures _ _) (tidy_captures _ _) fun index => ?_
  by_cases hindex : index ∈ slots.map CaptureSlot.index
  · obtain ⟨slot, hslot, rfl⟩ := List.mem_map.mp hindex
    obtain ⟨slot', hslot', hsame⟩ := List.mem_map.mp (hperm.mem_iff.mpr hindex)
    rw [records.group_captures_of_mem hnodup hslot, ← hsame,
      records'.group_captures_of_mem (hperm.nodup_iff.mpr hnodup) hslot',
      h slot hslot slot' hslot' hsame]
  · rw [records.group_captures_of_not_mem hindex,
      records'.group_captures_of_not_mem (mt hperm.mem_iff.mp hindex)]

/-! ## Trees -/

/-- Bytes stand at an offset if their first part stands there and the others right behind it. -/
theorem occursAt_append (subject : Subject) (bytes more : List UInt8) (offset : Nat) :
    occursAt subject (bytes ++ more) offset =
      (occursAt subject bytes offset && occursAt subject more (offset + bytes.length)) := by
  induction bytes generalizing offset with
  | nil =>
    have hroom : occursAt subject more offset = true → offset ≤ subject.size := fun h => by
      have := (occursAt_iff.mp h).1
      omega
    rw [Bool.eq_iff_iff]
    simpa [occursAt] using hroom
  | cons b bytes ih =>
    rw [List.cons_append, occursAt, occursAt, ih, Bool.and_assoc, List.length_cons,
      Nat.add_right_comm, Nat.add_assoc]

namespace Pattern

/-- A literal that is matched once finds what comes behind it, where it occurs in a subject that has
a byte. -/
theorem found_literal_of_isOnce {α : Type} {subject : Subject} (report : Nat → Records → α)
    {q : Quantifier} (hq : q.isOnce = true) (id : NodeId) (bytes : List UInt8)
    (next : Nat → Records → List α) (p : Nat) (records : Records) :
    (literal id bytes q).found subject report next p records =
      if 1 ≤ subject.size ∧ occursAt subject bytes p = true then next (p + bytes.length) records
      else [] := by
  rw [found, Quantifier.counts_of_isOnce hq]
  simp only [occursTimes, Bool.and_true]
  split <;> simp

/-- A joined literal finds what its parts find one behind the other. -/
theorem found_literal_append {α : Type} {subject : Subject} (report : Nat → Records → α)
    {q r : Quantifier} (hq : q.isOnce = true) (hr : r.isOnce = true) (id idBytes idMore : NodeId)
    (bytes more : List UInt8) (next : Nat → Records → List α) (p : Nat) (records : Records) :
    (literal id (bytes ++ more) q).found subject report next p records =
      (literal idBytes bytes q).found subject report
        ((literal idMore more r).found subject report next) p records := by
  simp only [found_literal_of_isOnce report hq, found_literal_of_isOnce report hr, occursAt_append,
    List.length_append, Nat.add_assoc, Bool.and_eq_true]
  split_ifs <;> first | rfl | grind

/-- The second tree is the first one with some neighbouring literals joined that are matched once.
A joined literal has the quantifier of the first of its parts; numbers of nodes do not matter. -/
inductive JoinsTo : Pattern → Pattern → Prop
  | empty (id id' : NodeId) : JoinsTo (.empty id) (.empty id')
  | endMarker (id id' : NodeId) : JoinsTo (.endMarker id) (.endMarker id')
  | wildcard (id id' : NodeId) (q : Quantifier) : JoinsTo (.wildcard id q) (.wildcard id' q)
  | literal (id id' : NodeId) (bytes : List UInt8) (q : Quantifier) :
      JoinsTo (.literal id bytes q) (.literal id' bytes q)
  | anchor (id id' : NodeId) (kind : Anchor) : JoinsTo (.anchor id kind) (.anchor id' kind)
  | concat (id id' : NodeId) {first second first' second' : Pattern}
      (hfirst : JoinsTo first first') (hsecond : JoinsTo second second') :
      JoinsTo (.concat id first second) (.concat id' first' second')
  | alternation (id id' : NodeId) {first second first' second' : Pattern}
      (hfirst : JoinsTo first first') (hsecond : JoinsTo second second') :
      JoinsTo (.alternation id first second) (.alternation id' first' second')
  | group (id id' : NodeId) {body body' : Pattern} (capture : Option UInt32) (q : Quantifier)
      (hbody : JoinsTo body body') :
      JoinsTo (.group id body capture q) (.group id' body' capture q)
  /-- A literal takes over all that comes behind it. -/
  | whole {q r : Quantifier} (hq : q.isOnce = true) (hr : r.isOnce = true)
      (id idBytes idMore id' : NodeId) {bytes more : List UInt8} {rest : Pattern}
      (hrest : JoinsTo rest (.literal idMore more r)) :
      JoinsTo (.concat id (.literal idBytes bytes q) rest) (.literal id' (bytes ++ more) q)
  /-- A literal takes over the first part of what comes behind it. -/
  | front {q r : Quantifier} (hq : q.isOnce = true) (hr : r.isOnce = true)
      (id idBytes idRest idMore id' idJoined : NodeId) {bytes more : List UInt8}
      {rest rest' : Pattern}
      (hrest : JoinsTo rest (.concat idRest (.literal idMore more r) rest')) :
      JoinsTo (.concat id (.literal idBytes bytes q) rest)
        (.concat id' (.literal idJoined (bytes ++ more) q) rest')

/-- The slots tell of every group of a tree under which index it records, if it does. -/
def Slotted (slots : List CaptureSlot) (tree : Pattern) : Prop :=
  ∀ id body capture q, .group id body capture q ∈ tree.nodes → Assigns slots id capture

namespace Slotted

variable {slots : List CaptureSlot} {id : NodeId} {first second body : Pattern}
  {capture : Option UInt32} {q : Quantifier}

theorem concat (h : (Pattern.concat id first second).Slotted slots) :
    first.Slotted slots ∧ second.Slotted slots :=
  ⟨fun id body capture q hn => h id body capture q (by simp [nodes, hn]),
    fun id body capture q hn => h id body capture q (by simp [nodes, hn])⟩

theorem alternation (h : (Pattern.alternation id first second).Slotted slots) :
    first.Slotted slots ∧ second.Slotted slots :=
  ⟨fun id body capture q hn => h id body capture q (by simp [nodes, hn]),
    fun id body capture q hn => h id body capture q (by simp [nodes, hn])⟩

theorem literal (slots : List CaptureSlot) (id : NodeId) (bytes : List UInt8) (q : Quantifier) :
    (Pattern.literal id bytes q).Slotted slots := by
  intro _ _ _ _ hn
  cases List.mem_singleton.mp hn

/-- A literal in front of a tree adds no group. -/
theorem behind (h : second.Slotted slots) (id idBytes : NodeId) (bytes : List UInt8)
    (q : Quantifier) : (Pattern.concat id (.literal idBytes bytes q) second).Slotted slots := by
  intro idGroup body capture r hn
  simp only [nodes, List.mem_cons, reduceCtorEq, List.singleton_append, false_or] at hn
  exact h idGroup body capture r hn

theorem group (h : (Pattern.group id body capture q).Slotted slots) :
    Assigns slots id capture ∧ body.Slotted slots :=
  ⟨h id body capture q (self_mem_nodes _),
    fun id body capture q hn => h id body capture q (by simp [nodes, hn])⟩

end Slotted

namespace JoinsTo

variable {tree tree' : Pattern} {subject : Subject}

/-- **Joining literals changes nothing that is found**, if neither what an end marker reports nor
what comes behind the tree depends on the numbers of nodes. -/
theorem found_eq {α : Type} {slots slots' : List CaptureSlot}
    {report report' : Nat → Records → α}
    (hreport : ∀ p records records', Records.AgreeUnder slots slots' records records' →
      report' p records' = report p records)
    (hjoins : tree.JoinsTo tree')
    (hslots : tree.Slotted slots) (hslots' : tree'.Slotted slots')
    {next next' : Nat → Records → List α}
    (hnext : ∀ p records records', Records.AgreeUnder slots slots' records records' →
      next' p records' = next p records)
    (p : Nat) {records records' : Records}
    (h : Records.AgreeUnder slots slots' records records') :
    tree'.found subject report' next' p records' = tree.found subject report next p records := by
  induction hjoins generalizing next next' p records records' with
  | empty id id' => exact hnext p _ _ h
  | endMarker id id' => exact congrArg (fun found => [found]) (hreport p _ _ h)
  | wildcard id id' q =>
    rw [found, found]
    exact congrArg (List.flatMap · _) (funext fun k => hnext (p + k) _ _ h)
  | literal id id' bytes q =>
    rw [found, found]
    exact congrArg (List.flatMap · _) (funext fun k => hnext (p + k * bytes.length) _ _ h)
  | anchor id id' kind => rw [found, found, hnext p _ _ h]
  | concat id id' _ _ ihFirst ihSecond =>
    exact ihFirst hslots.concat.1 hslots'.concat.1
      (fun p records records' h => ihSecond hslots.concat.2 hslots'.concat.2 hnext p h) p h
  | alternation id id' _ _ ihFirst ihSecond =>
    rw [found, found, ihFirst hslots.alternation.1 hslots'.alternation.1 hnext p h,
      ihSecond hslots.alternation.2 hslots'.alternation.2 hnext p h]
  | group id id' capture q _ ih =>
    obtain ⟨hid, hslots⟩ := hslots.group
    obtain ⟨hid', hslots'⟩ := hslots'.group
    rw [found, found]
    refine Quantifier.rounds_related _
      (fun f f' hf p records records' h => ih hslots hslots' hf p h) ?_ hnext _ _ _
      (h.set hid hid' [])
    exact fun start stop records records' h => h.note hid hid' start stop
  | whole hq hr id idBytes idMore id' hrest ih =>
    have hbehind := ih hslots.concat.2 (.literal _ _ _ _) hnext
    rw [found_literal_append report' hq hr id' idBytes idMore, found_literal_of_isOnce report' hq,
      hbehind _ h]
    exact (found_literal_of_isOnce report hq idBytes _ _ p records).symm
  | front hq hr id idBytes idRest idMore id' idJoined hrest ih =>
    have hbehind := ih hslots.concat.2 (hslots'.concat.2.behind idRest idMore _ _) hnext
    refine (found_literal_append report' hq hr idJoined idBytes idMore _ _ _ p records').trans ?_
    rw [found_literal_of_isOnce report' hq]
    refine (if_congr Iff.rfl (hbehind _ h) rfl).trans ?_
    exact (found_literal_of_isOnce report hq idBytes _ _ p records).symm

/-! ### What joining keeps -/

theorem startAnchored_eq (h : tree.JoinsTo tree') : tree'.startAnchored = tree.startAnchored := by
  induction h with
  | concat id id' _ _ ihFirst ihSecond | alternation id id' _ _ ihFirst ihSecond =>
    rw [startAnchored, startAnchored, ihFirst, ihSecond]
  | group id id' capture q _ ih => exact ih
  | anchor id id' kind => cases kind <;> rfl
  | whole hq hr id idBytes idMore id' hrest ih => exact ih
  | front hq hr id idBytes idRest idMore id' idJoined hrest ih => exact ih
  | _ => rfl

theorem endFree_eq (h : tree.JoinsTo tree') : tree'.endFree = tree.endFree := by
  induction h with
  | concat id id' _ _ ihFirst ihSecond | alternation id id' _ _ ihFirst ihSecond =>
    rw [endFree, endFree, ihFirst, ihSecond]
  | group id id' capture q _ ih => exact ih
  | whole hq hr id idBytes idMore id' hrest ih => exact ih
  | front hq hr id idBytes idRest idMore id' idJoined hrest ih => exact ih
  | _ => rfl

theorem captures_eq (h : tree.JoinsTo tree') : tree'.captures = tree.captures := by
  induction h with
  | concat id id' _ _ ihFirst ihSecond =>
    rw [isJoint_concat.captures, isJoint_concat.captures, ihFirst, ihSecond]
  | alternation id id' _ _ ihFirst ihSecond =>
    rw [isJoint_alternation.captures, isJoint_alternation.captures, ihFirst, ihSecond]
  | group id id' capture q _ ih => rw [captures_group, captures_group, ih]
  | whole hq hr id idBytes idMore id' hrest ih => exact ih
  | front hq hr id idBytes idRest idMore id' idJoined hrest ih => exact ih
  | _ => rfl

end JoinsTo

/-! ## Matches -/

theorem map_index_captureSlots (tree : Pattern) :
    tree.captureSlots.map CaptureSlot.index = tree.captures := by
  induction tree with
  | concat id first second ihFirst ihSecond =>
    rw [captureSlots, List.map_append, ihFirst, ihSecond, isJoint_concat.captures]
  | alternation id first second ihFirst ihSecond =>
    rw [captureSlots, List.map_append, ihFirst, ihSecond, isJoint_alternation.captures]
  | group id body capture q ih =>
    cases capture <;> simp [captureSlots, captures_group, ih]
  | _ => rfl

theorem map_index_captureTable (tree : Pattern) :
    ((Compilation.captureTable tree).map CaptureSlot.index).Perm tree.captures := by
  rw [← map_index_captureSlots]
  exact (List.mergeSort_perm _ _).map _

/-- The table of a tree tells of its groups under which index they record, if no number and no index
is used twice. -/
theorem slotted_captureTable {tree : Pattern} (hids : tree.ids.Nodup)
    (hcaptures : tree.captures.Nodup) : tree.Slotted (Compilation.captureTable tree) := by
  intro id body capture q hn slot hslot
  rw [Compilation.captureTable, List.mem_mergeSort] at hslot
  constructor
  · rintro rfl
    obtain ⟨body', q', hn'⟩ := mem_captureSlots.mp hslot
    have hnode := List.inj_on_of_nodup_map hids hn hn' rfl
    exact (Pattern.group.inj hnode).2.2.1
  · rintro rfl
    rw [← map_index_captureSlots] at hcaptures
    have hmem : (⟨slot.index, id⟩ : CaptureSlot) ∈ tree.captureSlots :=
      mem_captureSlots.mpr ⟨body, q, hn⟩
    exact congrArg CaptureSlot.group (List.inj_on_of_nodup_map hcaptures hslot hmem rfl)

/-- The matches that begin at an offset, as what is found there. -/
theorem matchesFrom_eq_found {tree : Pattern} (hend : tree.endFree = true) (subject : Subject)
    (start : Nat) :
    tree.matchesFrom subject start =
      tree.found subject (fun stop records => tree.matchOf start ⟨stop, records⟩)
        (fun stop records => [tree.matchOf start ⟨stop, records⟩]) start .none := by
  rw [found_eq_flatMap_ways subject _ hend, matchesFrom, List.map_eq_flatMap]

/-- **Joining literals keeps the matches**, if in neither tree a number is used twice, nor a capture
index. -/
theorem JoinsTo.matchesIn_eq {tree tree' : Pattern} (hjoins : tree.JoinsTo tree')
    (hids : tree.ids.Nodup) (hids' : tree'.ids.Nodup) (hcaptures : tree.captures.Nodup)
    (hend : tree.endFree = true) (subject : Subject) :
    tree'.matchesIn subject = tree.matchesIn subject := by
  have hcaptures' := hjoins.captures_eq
  have hperm : ((Compilation.captureTable tree').map CaptureSlot.index).Perm
      ((Compilation.captureTable tree).map CaptureSlot.index) :=
    (map_index_captureTable tree').trans (hcaptures' ▸ (map_index_captureTable tree).symm)
  have hnodup := (map_index_captureTable tree).nodup_iff.mpr hcaptures
  have hmatchOf : ∀ start stop records records',
      Records.AgreeUnder (Compilation.captureTable tree) (Compilation.captureTable tree') records
        records' →
      tree'.matchOf start ⟨stop, records'⟩ = tree.matchOf start ⟨stop, records⟩ := by
    intro start stop records records' h
    rw [matchOf, matchOf, capturesOf_eq, capturesOf_eq,
      Records.captures_eq_of_agreeUnder h hperm hnodup]
  have hfrom : ∀ start, tree'.matchesFrom subject start = tree.matchesFrom subject start := by
    intro start
    rw [matchesFrom_eq_found hend, matchesFrom_eq_found (hjoins.endFree_eq.trans hend)]
    refine hjoins.found_eq (fun p _ _ h => hmatchOf start p _ _ h)
      (slotted_captureTable hids hcaptures)
      (slotted_captureTable hids' (hcaptures' ▸ hcaptures)) (fun p _ _ h => ?_) start .none
    rw [hmatchOf start p _ _ h]
  rw [matchesIn, matchesIn, matchesAnywhere, matchesAnywhere, hjoins.startAnchored_eq,
    funext hfrom]

end Pattern

end PatternMachine
