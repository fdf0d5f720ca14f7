import PatternMachine.Proofs.Labels
import PatternMachine.Proofs.Refinement

/-!
# Repeated units and groups of units

A unit that is repeated, and a group that repeats the unit, are compiled to different code: the one
counts in registers, the other in the state of the group.  They find the same matches.

* `Pattern.groupUnit` — the tree with a group in the place of a repeated unit.
* `Quantifier.interval` — the counts from a smallest to a largest one, in the order in which they
  are tried.
* `Pattern.Silent` — no group of a tree that has a given number records spans.

Principal results: `rounds_unit` — the rounds of a group that repeats a unit are the
counts of the unit.  `ways_groupUnit` — so the ways of the tree are the same.
`groupUnit_same_answers` — and so are the answers of the two programs.
-/

set_option autoImplicit false

namespace PatternMachine

/-! ## Rounds of a unit -/

namespace Quantifier

/-- The counts from `least` to `most` in the order in which they are tried. -/
def interval (q : Quantifier) (least most : Nat) : List Nat :=
  if q.greedy then (List.range' least (most + 1 - least)).reverse
  else List.range' least (most + 1 - least)

theorem interval_of_lt {least most : Nat} (q : Quantifier) (h : most < least) :
    q.interval least most = [] := by
  have hnone : most + 1 - least = 0 := by omega
  simp [interval, hnone]

/-- The smallest count comes last if greedy, and first if lazy. -/
theorem inOrder_interval {least most : Nat} (q : Quantifier) (h : least ≤ most) :
    q.inOrder (q.interval (least + 1) most) [least] = q.interval least most := by
  have hlength : most + 1 - least = (most + 1 - (least + 1)) + 1 := by omega
  unfold inOrder interval
  cases q.greedy <;> simp [hlength, List.range'_succ]

theorem map_inOrder {α β : Type} (f : α → β) (q : Quantifier) (more stop : List α) :
    (q.inOrder more stop).map f = q.inOrder (more.map f) (stop.map f) := by
  unfold inOrder
  split <;> simp

end Quantifier

/-- One more repetition may be made exactly if the bound covers it. -/
theorem Bound.admitsMore_eq_covers (bound : Bound) (k : Nat) :
    bound.admitsMore k = bound.covers (k + 1) := by
  cases bound <;> rfl

/-- The counts from `k` on that reach the minimum are those after `k`, and `k` itself if it reaches
the minimum. -/
theorem interval_from (q : Quantifier) {k most : Nat} (hk : k ≤ most) :
    q.interval (max q.min.toNat k) most =
      q.inOrder (if k < most then q.interval (max q.min.toNat (k + 1)) most else [])
        (if q.min.toNat ≤ k then [k] else []) := by
  have hall : ∀ least, k < least →
      (if k < most then q.interval least most else []) = q.interval least most := by
    intro least hleast
    split
    · rfl
    · rw [q.interval_of_lt (by omega)]
  rw [hall _ (by omega)]
  by_cases hmin : q.min.toNat ≤ k
  · rw [if_pos hmin, Nat.max_eq_right hmin, Nat.max_eq_right (by omega), q.inOrder_interval hk]
  · rw [if_neg hmin, Nat.max_eq_left (by omega), Nat.max_eq_left (by omega)]
    cases hg : q.greedy <;> simp [Quantifier.inOrder, hg]

/-- **The rounds of a unit are its counts.**  The unit is `length` bytes long and `fits` at some
offsets; from offset `p` on it can be repeated exactly up to `most` times.  A group that has made
`k` repetitions of it goes on with the counts from `k` on that reach the minimum. -/
theorem rounds_unit {q : Quantifier} {size length most left k p : Nat}
    {fits : Nat → Bool} {note : Nat → Nat → Records → Records} {records : Records}
    (hnote : ∀ start stop, note start stop records = records) (hlength : 0 < length)
    (hsize : p + most * length ≤ size)
    (hmost : ∀ j ≤ most, j < most ↔ (q.max.covers (j + 1) && fits (p + j * length)) = true)
    (hk : k ≤ most) (hleft : q.Enough size left k (p + k * length)) :
    q.rounds
      (fun onward p records =>
        (if fits p then [(⟨p + length, records⟩ : Way)] else []).flatMap
          fun w => onward w.stop w.records)
      note (fun stop records => [(⟨stop, records⟩ : Way)]) left k (p + k * length) records =
      (q.interval (max q.min.toNat k) most).map fun j => (⟨p + j * length, records⟩ : Way) := by
  have hstop : ∀ k, (if q.min.toNat ≤ k then [(⟨p + k * length, records⟩ : Way)] else []) =
      (if q.min.toNat ≤ k then [k] else []).map fun j => (⟨p + j * length, records⟩ : Way) := by
    intro k
    split <;> rfl
  have hoffset : ∀ k ≤ most, p + k * length ≤ size := by
    intro k hk
    have := Nat.mul_le_mul_right length hk
    omega
  induction left generalizing k with
  | zero =>
    have hno := hleft.admitsMore_eq_false (hoffset k hk)
    rw [Bound.admitsMore_eq_covers] at hno
    have hlast : ¬ k < most := fun hlt => by simpa [hno] using (hmost k hk).mp hlt
    rw [Quantifier.rounds, interval_from q hk, Quantifier.map_inOrder, if_neg hlast, hstop]
    rfl
  | succ left ih =>
    have hnext : p + k * length + length = p + (k + 1) * length := by
      rw [Nat.succ_mul]
      omega
    have hmore := hmost k hk
    rw [Quantifier.rounds, interval_from q hk, Quantifier.map_inOrder, hstop,
      Bound.admitsMore_eq_covers]
    congr 1
    by_cases hlt : k < most
    · obtain ⟨hcovers, hfits⟩ := Bool.and_eq_true_iff.mp (hmore.mp hlt)
      have hrest := ih hlt (hnext ▸ hleft.next fun _ => by omega)
      simp only [hcovers, hfits, if_true, List.flatMap_cons, List.flatMap_nil, List.append_nil,
        hnote, hnext, hrest, if_pos hlt]
    · have hno := mt hmore.mpr hlt
      rw [if_neg hlt]
      cases hcovers : q.max.covers (k + 1) <;> simp_all

/-! ## A group in the place of a unit -/

/-- A unit that is matched once is tried once, in a subject that has a byte. -/
theorem Quantifier.counts_of_isOnce {q : Quantifier} (hq : q.isOnce = true) (size : Nat)
    (occurs : Nat → Bool) :
    q.counts size occurs = if 1 ≤ size ∧ occurs 1 = true then [1] else [] := by
  obtain ⟨hmin, hmax⟩ := isOnce_iff.mp hq
  have hone : ∀ k, (decide (q.min.toNat ≤ k) && q.max.covers k && occurs k) =
      (decide (k = 1) && occurs 1) := by
    intro k
    have hbounds : (decide (q.min.toNat ≤ k) && q.max.covers k) = decide (k = 1) := by
      rw [Bool.eq_iff_iff]
      simp only [hmin, hmax, Bound.covers, Bool.and_eq_true, decide_eq_true_eq, UInt32.toNat_one]
      omega
    rw [hbounds]
    by_cases hk : k = 1 <;> simp [hk]
  unfold counts
  simp only [hone]
  cases size with
  | zero => simp
  | succ n =>
    cases ho : occurs 1 with
    | false => cases q.greedy <;> simp
    | true =>
      cases q.greedy <;> simp [List.range_succ_eq_map, List.filter_map, Function.comp_def]

/-- A unit that is matched once is tried once, if it fits. -/
theorem Quantifier.counts_once {size : Nat} {occurs : Nat → Bool}
    (hsize : occurs 1 = true → 1 ≤ size) :
    Quantifier.once.counts size occurs = if occurs 1 then [1] else [] := by
  rw [counts_of_isOnce rfl]
  simp only [and_iff_right_of_imp hsize]

namespace Pattern

/-- The tree with the repeated unit that has the number `target` as a group that repeats the unit.
The group and the unit inside of it get the numbers `groupId` and `unitId`. -/
def groupUnit (target groupId unitId : NodeId) : Pattern → Pattern
  | .wildcard id q =>
    if id = target then .group groupId (.wildcard unitId .once) none q else .wildcard id q
  | .literal id bytes q =>
    if id = target then .group groupId (.literal unitId bytes .once) none q
    else .literal id bytes q
  | .concat id first second =>
    .concat id (first.groupUnit target groupId unitId) (second.groupUnit target groupId unitId)
  | .alternation id first second =>
    .alternation id (first.groupUnit target groupId unitId)
      (second.groupUnit target groupId unitId)
  | .group id body capture q => .group id (body.groupUnit target groupId unitId) capture q
  | .empty id => .empty id
  | .endMarker id => .endMarker id
  | .anchor id kind => .anchor id kind

/-- Whether a node is a repeated unit: a wildcard or a literal. -/
def isUnit : Pattern → Bool
  | .wildcard _ _ => true
  | .literal _ _ _ => true
  | _ => false

variable {subject : Subject} {p : Nat} {records : Records} {groupId unitId : NodeId}

/-- A group that repeats a unit has the counts of the unit. -/
theorem ways_group_unit {unit : Pattern} {q : Quantifier} {length most : Nat} {fits : Nat → Bool}
    (hunit : ∀ p records, unit.ways subject p records =
      if fits p then [(⟨p + length, records⟩ : Way)] else [])
    (hlength : 0 < length) (hsize : p + most * length ≤ subject.size)
    (hmost : ∀ j ≤ most, j < most ↔ (q.max.covers (j + 1) && fits (p + j * length)) = true)
    (hrecords : records groupId = []) :
    (group groupId unit none q).ways subject p records =
      (q.interval q.min.toNat most).map fun j => ⟨p + j * length, records⟩ := by
  have hleft : q.Enough subject.size (q.ceiling subject.size) 0 (p + 0 * length) := by
    rw [Nat.zero_mul]
    exact q.enough_ceiling subject.size p
  have hnote : ∀ start stop, records.note groupId none start stop = records := fun _ _ => rfl
  have hrounds := rounds_unit hnote hlength hsize hmost (Nat.zero_le most) hleft
  rw [ways, PerNode.set_eq_self hrecords]
  simp only [hunit]
  simpa using hrounds

/-- A group that repeats a wildcard has the ways of the repeated wildcard. -/
theorem ways_group_wildcard (id : NodeId) (q : Quantifier) (hp : p ≤ subject.size)
    (hrecords : records groupId = []) :
    (group groupId (wildcard unitId .once) none q).ways subject p records =
      (wildcard id q).ways subject p records := by
  have hunit : ∀ p records, (wildcard unitId .once).ways subject p records =
      if decide (p + 1 ≤ subject.size) then [(⟨p + 1, records⟩ : Way)] else [] := by
    intro p records
    rw [ways, Quantifier.counts_once (by simp only [decide_eq_true_eq]; omega)]
    split <;> rfl
  have hclipped := q.max.clipped_le (subject.size - p)
  have hmost : ∀ k, (q.max.covers k = true ∧ decide (p + k ≤ subject.size) = true) ↔
      k ≤ q.max.clipped (subject.size - p) := by
    intro k
    rw [Bound.le_clipped_iff, decide_eq_true_eq]
    exact and_congr_right fun _ => by omega
  have hsize : p + q.max.clipped (subject.size - p) * 1 ≤ subject.size := by omega
  rw [ways_group_unit hunit Nat.one_pos hsize (fun j _ => ?_) hrecords, ways,
    Quantifier.counts_eq (by omega) hmost]
  · simp [Quantifier.interval]
  · rw [Nat.mul_one, Nat.add_assoc, Bool.and_eq_true, hmost, Nat.succ_le_iff]

/-- A literal that is matched once has one way, if it occurs. -/
theorem ways_literal_once (id : NodeId) {bytes : List UInt8} (hbytes : 0 < bytes.length) (p : Nat)
    (records : Records) :
    (literal id bytes .once).ways subject p records =
      if occursAt subject bytes p then [⟨p + bytes.length, records⟩] else [] := by
  have honce : occursTimes subject bytes 1 p = occursAt subject bytes p := Bool.and_true _
  rw [ways, Quantifier.counts_once, honce]
  · split <;> simp
  · intro hoccurs
    have := (occursAt_iff.mp (honce ▸ hoccurs)).1
    omega

/-- A group that repeats a literal has the ways of the repeated literal. -/
theorem ways_group_literal (id : NodeId) {bytes : List UInt8} (q : Quantifier)
    (hbytes : 0 < bytes.length) (hp : p ≤ subject.size) (hrecords : records groupId = []) :
    (group groupId (literal unitId bytes .once) none q).ways subject p records =
      (literal id bytes q).ways subject p records := by
  have hunit : ∀ p records, (literal unitId bytes .once).ways subject p records =
      if occursAt subject bytes p then [⟨p + bytes.length, records⟩] else [] :=
    ways_literal_once unitId hbytes
  obtain ⟨most, hmostSize, hmost⟩ := exists_mostOf hbytes q.max hp
  rw [ways_group_unit hunit hbytes (hmost.pos_le hp (Nat.le_refl most)) (fun j hj => ?_) hrecords,
    ways, Quantifier.counts_eq hmostSize hmost]
  · rfl
  · rw [Bool.and_eq_true]
    exact hmost.lt_iff hj

/-! ## The tree around the group -/

/-- No group that has a given number records its spans. -/
def Silent (id : NodeId) (tree : Pattern) : Prop :=
  ∀ body capture q, .group id body capture q ∈ tree.nodes → capture = none

namespace Silent

variable {id other : NodeId} {first second body : Pattern} {capture : Option UInt32}
  {q : Quantifier}

theorem concat (h : (Pattern.concat other first second).Silent id) :
    first.Silent id ∧ second.Silent id :=
  ⟨fun body capture q hn => h body capture q (by simp [nodes, hn]),
    fun body capture q hn => h body capture q (by simp [nodes, hn])⟩

theorem alternation (h : (Pattern.alternation other first second).Silent id) :
    first.Silent id ∧ second.Silent id :=
  ⟨fun body capture q hn => h body capture q (by simp [nodes, hn]),
    fun body capture q hn => h body capture q (by simp [nodes, hn])⟩

theorem of_group (h : (Pattern.group other body capture q).Silent id) : body.Silent id :=
  fun body capture q hn => h body capture q (by simp [nodes, hn])

/-- A repetition records nothing under the number. -/
theorem note (h : (Pattern.group other body capture q).Silent id) (hrecords : records id = [])
    (start stop : Nat) : records.note other capture start stop id = [] := by
  unfold Records.note
  split
  · rename_i hcapture
    have hne : id ≠ other := by
      rintro rfl
      simp [h body capture q (self_mem_nodes _)] at hcapture
    rw [PerNode.set_of_ne _ _ hne, hrecords]
  · exact hrecords

end Silent

theorem set_nil_eq_nil {id : NodeId} (other : NodeId) (hrecords : records id = []) :
    records.set other [] id = [] := by
  by_cases hid : id = other
  · rw [hid, PerNode.set_self]
  · rw [PerNode.set_of_ne _ _ hid, hrecords]

/-- What is recorded for a number that no recording group has stays empty. -/
theorem Silent.ways {id : NodeId} {tree : Pattern} (h : tree.Silent id)
    (hrecords : records id = []) {w : Way} (hw : w ∈ tree.ways subject p records) :
    w.records id = [] := by
  induction tree generalizing p records w with
  | empty _ =>
    obtain rfl := List.mem_singleton.mp hw
    exact hrecords
  | endMarker _ => cases hw
  | wildcard _ q =>
    obtain ⟨k, _, rfl⟩ := List.mem_map.mp hw
    exact hrecords
  | literal _ bytes q =>
    obtain ⟨k, _, rfl⟩ := List.mem_map.mp hw
    exact hrecords
  | concat _ first second ihFirst ihSecond =>
    obtain ⟨v, hv, hw⟩ := List.mem_flatMap.mp hw
    exact ihSecond h.concat.2 (ihFirst h.concat.1 hrecords hv) hw
  | alternation _ first second ihFirst ihSecond =>
    rcases List.mem_append.mp hw with hw | hw
    · exact ihFirst h.alternation.1 hrecords hw
    · exact ihSecond h.alternation.2 hrecords hw
  | group other body capture q ih =>
    obtain ⟨_, _, hsilent⟩ := Quantifier.rounds_invariant (P := fun _ _ records => records id = [])
      (fun _ _ _ hrecords _ hv => h.note (ih h.of_group hrecords hv) _ _)
      (set_nil_eq_nil other hrecords) hw
    exact hsilent
  | anchor _ kind =>
    rw [Pattern.ways] at hw
    split at hw
    · obtain rfl := List.mem_singleton.mp hw
      exact hrecords
    · cases hw

/-- Repetitions of bodies that have the same ways wherever the group can come to are the same. -/
theorem rounds_congr {q : Quantifier} {ways ways' : Nat → Records → List Way}
    {note : Nat → Nat → Records → Records} {P : Nat → Records → Prop}
    (hways : ∀ p records, P p records → ways' p records = ways p records)
    (hstep : ∀ p records, P p records →
      ∀ w ∈ ways p records, P w.stop (note p w.stop w.records))
    (next : Nat → Records → List Way) {left k p : Nat} {records : Records} (h : P p records) :
    q.rounds (fun onward p records => (ways' p records).flatMap fun w => onward w.stop w.records)
      note next left k p records =
      q.rounds (fun onward p records => (ways p records).flatMap fun w => onward w.stop w.records)
        note next left k p records := by
  induction left generalizing k p records with
  | zero => rfl
  | succ left ih =>
    rw [Quantifier.rounds, Quantifier.rounds, hways p records h, List.flatMap_def,
      List.flatMap_def]
    have hmore := List.map_congr_left fun w hw => ih (k := k + 1) (hstep p records h w hw)
    rw [hmore]

/-- **A group in the place of a repeated unit leaves the ways of the tree as they are.** -/
theorem ways_groupUnit {limit : Nat} {tree : Pattern} (hwf : tree.WellFormed limit)
    (hsilent : tree.Silent groupId) (target : NodeId) (hp : p ≤ subject.size)
    (hrecords : records groupId = []) :
    (tree.groupUnit target groupId unitId).ways subject p records =
      tree.ways subject p records := by
  induction tree generalizing p records with
  | empty _ => rfl
  | endMarker _ => rfl
  | anchor _ _ => rfl
  | wildcard id q =>
    rw [groupUnit]
    split
    · exact ways_group_wildcard id q hp hrecords
    · rfl
  | literal id bytes q =>
    rw [groupUnit]
    split
    · exact ways_group_literal id q hwf.literal.1 hp hrecords
    · rfl
  | concat id first second ihFirst ihSecond =>
    rw [groupUnit, ways, ways, ihFirst hwf.concat.first hsilent.concat.1 hp hrecords,
      List.flatMap_def, List.flatMap_def]
    refine congrArg List.flatten (List.map_congr_left fun w hw => ?_)
    exact ihSecond hwf.concat.second hsilent.concat.2 (ways_reach hw hp).le_size
      (hsilent.concat.1.ways hrecords hw)
  | alternation id first second ihFirst ihSecond =>
    rw [groupUnit, ways, ways, ihFirst hwf.alternation.first hsilent.alternation.1 hp hrecords,
      ihSecond hwf.alternation.second hsilent.alternation.2 hp hrecords]
  | group id body capture q ih =>
    rw [groupUnit, ways, ways]
    refine rounds_congr (P := fun p records => p ≤ subject.size ∧ records groupId = []) ?_ ?_ _
      ⟨hp, set_nil_eq_nil id hrecords⟩
    · rintro p records ⟨hp, hrecords⟩
      exact ih hwf.group.1 hsilent.of_group hp hrecords
    · rintro p records ⟨hp, hrecords⟩ w hw
      exact ⟨(ways_reach hw hp).le_size, hsilent.note (hsilent.of_group.ways hrecords hw) _ _⟩

/-! ## What does not change with the group -/

theorem endFree_groupUnit (target groupId unitId : NodeId) (tree : Pattern) :
    (tree.groupUnit target groupId unitId).endFree = tree.endFree := by
  induction tree with
  | wildcard id q | literal id bytes q =>
    rw [groupUnit]
    split <;> rfl
  | concat id first second ihFirst ihSecond | alternation id first second ihFirst ihSecond =>
    simp [groupUnit, endFree, ihFirst, ihSecond]
  | group id body capture q ih => exact ih
  | empty _ | endMarker _ | anchor _ _ => rfl

theorem startAnchored_groupUnit (target groupId unitId : NodeId) (tree : Pattern) :
    (tree.groupUnit target groupId unitId).startAnchored = tree.startAnchored := by
  induction tree with
  | wildcard id q | literal id bytes q =>
    rw [groupUnit]
    split <;> rfl
  | concat id first second ihFirst ihSecond | alternation id first second ihFirst ihSecond =>
    simp [groupUnit, startAnchored, ihFirst, ihSecond]
  | group id body capture q ih => exact ih
  | empty _ | endMarker _ | anchor _ _ => rfl

theorem captureSlots_groupUnit (target groupId unitId : NodeId) (tree : Pattern) :
    (tree.groupUnit target groupId unitId).captureSlots = tree.captureSlots := by
  induction tree with
  | wildcard id q | literal id bytes q =>
    rw [groupUnit]
    split <;> rfl
  | concat id first second ihFirst ihSecond | alternation id first second ihFirst ihSecond =>
    simp [groupUnit, captureSlots, ihFirst, ihSecond]
  | group id body capture q ih => cases capture <;> simp [groupUnit, captureSlots, ih]
  | empty _ | endMarker _ | anchor _ _ => rfl

/-- The nodes of the tree are there with the group in the place of the unit. -/
theorem groupUnit_mem_nodes (target groupId unitId : NodeId) {tree n : Pattern}
    (hn : n ∈ tree.nodes) :
    n.groupUnit target groupId unitId ∈ (tree.groupUnit target groupId unitId).nodes := by
  induction tree with
  | concat id first second ihFirst ihSecond | alternation id first second ihFirst ihSecond =>
    simp only [nodes, List.mem_cons, List.mem_append] at hn
    rcases hn with rfl | hn | hn
    · exact self_mem_nodes _
    · simp [groupUnit, nodes, ihFirst hn]
    · simp [groupUnit, nodes, ihSecond hn]
  | group id body capture q ih =>
    simp only [nodes, List.mem_cons] at hn
    rcases hn with rfl | hn
    · exact self_mem_nodes _
    · simp [groupUnit, nodes, ih hn]
  | _ =>
    obtain rfl := List.mem_singleton.mp hn
    exact self_mem_nodes _

/-- If the numbers of the tree with the group are distinct, no recording group of the tree has the
number of the group. -/
theorem silent_of_groupUnit {limit : Nat} {groupId unitId : NodeId} {tree n : Pattern}
    (hn : n ∈ tree.nodes) (hunit : n.isUnit = true)
    (hwf : (tree.groupUnit n.id groupId unitId).WellFormed limit) : tree.Silent groupId := by
  have hgroup : ∃ unit q, n.groupUnit n.id groupId unitId = .group groupId unit none q := by
    cases n with
    | wildcard id q | literal id bytes q => exact ⟨_, q, if_pos rfl⟩
    | _ => cases hunit
  obtain ⟨unit, q, hgroup⟩ := hgroup
  have hmem := groupUnit_mem_nodes n.id groupId unitId hn
  rw [hgroup] at hmem
  intro body capture q' hbody
  have hmem' := groupUnit_mem_nodes n.id groupId unitId hbody
  have hsame := (hwf.groupAt? hmem).symm.trans (hwf.groupAt? hmem')
  simp only [Option.some.injEq, Prod.mk.injEq] at hsame
  exact hsame.1.symm

/-- **A group in the place of a repeated unit leaves the matches of the tree as they are.** -/
theorem matchesIn_groupUnit {limit : Nat} {tree : Pattern} (hwf : tree.WellFormed limit)
    (hsilent : tree.Silent groupId) (target : NodeId) (subject : Subject) :
    (tree.groupUnit target groupId unitId).matchesIn subject = tree.matchesIn subject := by
  have hmatchOf : (tree.groupUnit target groupId unitId).matchOf = tree.matchOf :=
    matchOf_congr (captureSlots_groupUnit target groupId unitId tree)
  have hfrom : ∀ start ≤ subject.size,
      (tree.groupUnit target groupId unitId).matchesFrom subject start =
        tree.matchesFrom subject start := by
    intro start hstart
    rw [matchesFrom, matchesFrom, ways_groupUnit hwf hsilent target hstart rfl, hmatchOf]
  rw [matchesIn, matchesIn, startAnchored_groupUnit, hfrom 0 (Nat.zero_le _), matchesAnywhere,
    matchesAnywhere, List.flatMap_def, List.flatMap_def]
  have hall := List.map_congr_left fun start (hstart : start ∈ List.range (subject.size + 1)) =>
    hfrom start (Nat.lt_succ_iff.mp (List.mem_range.mp hstart))
  rw [hall]

end Pattern

/-- **A repeated unit and a group that repeats the unit find the same.**  Let `n` be a wildcard or a
literal of a tree, under any quantifier, and put in its place a group under this quantifier that
holds the unit alone.  If both trees are accepted, their programs give the same answers: the same
matches in the same order, as often, with what the groups have recorded. -/
theorem groupUnit_same_answers {tree n : Pattern} {groupId unitId : NodeId}
    {options options' : CompileOptions} {program program' : Program} {subject : Subject}
    (hn : n ∈ tree.nodes) (hunit : n.isUnit = true)
    (hcompile : compile tree options = .ok program)
    (hcompile' : compile (tree.groupUnit n.id groupId unitId) options' = .ok program')
    (hend : tree.endFree = true) (hsize : subject.size < 2 ^ 63) :
    ∃ ms, Cursor.new.Answers program subject ms ∧ Cursor.new.Answers program' subject ms := by
  have hsilent := Pattern.silent_of_groupUnit hn hunit (wellFormed_of_compile hcompile').1
  have hend' : (tree.groupUnit n.id groupId unitId).endFree = true := by
    rw [Pattern.endFree_groupUnit, hend]
  obtain ⟨_, hstanding⟩ := standing_of_compile hcompile hend hsize
  obtain ⟨_, hstanding'⟩ := standing_of_compile hcompile' hend' hsize
  rw [Pattern.matchesIn_groupUnit (wellFormed_of_compile hcompile).1 hsilent] at hstanding'
  exact ⟨tree.matchesIn subject, hstanding.answers, hstanding'.answers⟩

/-- The pattern `(a*?.)+`, with a literal that is repeated inside of a repeated group. -/
def lazyStarAny : Pattern :=
  .group 1 (.concat 2 (.literal 3 [97] ⟨0, .unbounded, false⟩) (.wildcard 4 .once)) (some 1)
    ⟨1, .unbounded, true⟩

theorem groupUnit_same_answers_lazyStarAny :
    ∃ program program', compile lazyStarAny {} = .ok program ∧
      compile (lazyStarAny.groupUnit 3 5 6) {} = .ok program' ∧
      ∃ ms, Cursor.new.Answers program #[97, 98] ms ∧ Cursor.new.Answers program' #[97, 98] ms := by
  obtain ⟨root, hroot⟩ := Option.isSome_iff_exists.mp
    (show lazyStarAny.wrapped?.isSome = true by decide)
  obtain ⟨root', hroot'⟩ := Option.isSome_iff_exists.mp
    (show (lazyStarAny.groupUnit 3 5 6).wrapped?.isSome = true by decide)
  have hwf : lazyStarAny.WellFormed 256 := ⟨by decide, by decide⟩
  have hwf' : (lazyStarAny.groupUnit 3 5 6).WellFormed 256 := ⟨by decide, by decide⟩
  obtain ⟨program, hcompile⟩ : ∃ program, compile lazyStarAny {} = .ok program :=
    compile_isOk_of_wellFormed hwf hroot
  obtain ⟨program', hcompile'⟩ :
      ∃ program, compile (lazyStarAny.groupUnit 3 5 6) {} = .ok program :=
    compile_isOk_of_wellFormed hwf' hroot'
  have hn : Pattern.literal 3 [97] ⟨0, .unbounded, false⟩ ∈ lazyStarAny.nodes := by decide
  exact ⟨program, program', hcompile, hcompile',
    groupUnit_same_answers hn rfl hcompile hcompile' (by decide) (by decide)⟩

end PatternMachine
