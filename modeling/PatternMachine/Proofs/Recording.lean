import PatternMachine.Proofs.Draining

/-!
# What matches record

* `Captures.Tidy` — no index is stored without a span.

Principal results: `Captures.ext_group` — captures are determined by the spans of every index.
`Pattern.map_group_captureTable`, `Pattern.capturesOf_eq` — the table of a tree lists the groups of
an index by ascending number, so it makes the captures that the tree says.
`captureTable_wrapped` — in a wrapped tree, the whole match is the last to record under its index.
`report_wrapped` — so the end marker of a wrapped tree reports the match that a way makes.
`answers_eq_matchesIn` — the program of a wrapped tree reports the matches of the tree.
-/

set_option autoImplicit false

namespace PatternMachine

open Compilation

/-! ## Captures -/

namespace Captures

/-- No index is stored without a span. -/
def Tidy (captures : Captures) : Prop := ∀ index : UInt32, captures[index]? ≠ some []

theorem tidy_empty : Tidy ∅ := by
  intro index
  simp

theorem Tidy.append {captures : Captures} (h : captures.Tidy) (index : UInt32)
    (spans : List Span) : (captures.append index spans).Tidy := by
  unfold Captures.append
  split
  · exact h
  · rename_i hspans
    intro other
    rw [Std.ExtTreeMap.getElem?_insert]
    split
    · simp at hspans
      simp [hspans]
    · exact h other

theorem Tidy.foldl_append {captures : Captures} (h : captures.Tidy) (spans : NodeId → List Span)
    (slots : List CaptureSlot) :
    Tidy (slots.foldl (fun captures slot => captures.append slot.index (spans slot.group))
      captures) := by
  induction slots generalizing captures with
  | nil => exact h
  | cons slot slots ih => exact ih (h.append _ _)

/-- The entries of indexes that have spans. -/
def entries (spans : UInt32 → List Span) (indexes : List UInt32) : List (UInt32 × List Span) :=
  (indexes.map fun index => (index, spans index)).filter fun entry => entry.2 ≠ []

theorem getElem?_insertMany_entries (captures : Captures) (spans : UInt32 → List Span)
    (indexes : List UInt32) (index : UInt32) :
    (captures.insertMany (entries spans indexes))[index]? =
      if index ∈ indexes ∧ spans index ≠ [] then some (spans index) else captures[index]? := by
  induction indexes generalizing captures with
  | nil => simp [entries]
  | cons other indexes ih =>
    by_cases hother : spans other = []
    · have hentries : entries spans (other :: indexes) = entries spans indexes :=
        List.filter_cons_of_neg (by simp [hother])
      rw [hentries, ih]
      refine if_congr (and_congr_left fun hspans => ?_) rfl rfl
      rw [List.mem_cons, or_iff_right]
      rintro rfl
      exact hspans hother
    · have hentries : entries spans (other :: indexes) =
          (other, spans other) :: entries spans indexes :=
        List.filter_cons_of_pos (by simp [hother])
      rw [hentries, Std.ExtTreeMap.insertMany_cons, ih, Std.ExtTreeMap.getElem?_insert]
      by_cases hindex : other = index
      · simp [← hindex, hother]
      · simp [hindex, Ne.symm hindex]

/-- Captures are determined by the spans of every index. -/
theorem ext_group {captures captures' : Captures} (h : captures.Tidy) (h' : captures'.Tidy)
    (hgroup : ∀ index, captures.group index = captures'.group index) : captures = captures' := by
  apply Std.ExtTreeMap.ext_getElem?
  intro index
  have hspans := hgroup index
  unfold group at hspans
  have hindex := h index
  have hindex' := h' index
  cases hc : captures[index]? <;> cases hc' : captures'[index]? <;> simp_all

end Captures

namespace Records

theorem tidy_captures (slots : List CaptureSlot) (records : Records) :
    (records.captures slots).Tidy :=
  Captures.tidy_empty.foldl_append records slots

theorem group_captures_eq (slots : List CaptureSlot) (records : Records) (index : UInt32) :
    (records.captures slots).group index =
      (slots.filter fun slot => slot.index == index).flatMap fun slot => records slot.group := by
  have := Captures.group_foldl_append records slots ∅ index
  simpa [Records.captures, Captures.group] using this

end Records

/-! ## The order of slots -/

theorem slotLe_iff {a b : CaptureSlot} :
    slotLe a b = true ↔ a.index.toNat < b.index.toNat ∨
      (a.index.toNat = b.index.toNat ∧ a.group.toNat ≤ b.group.toNat) := by
  simp only [slotLe, Bool.or_eq_true, Bool.and_eq_true, decide_eq_true_eq, beq_iff_eq,
    UInt32.lt_iff_toNat_lt, UInt32.le_iff_toNat_le, UInt32.toNat_inj]

theorem slotLe_trans (a b c : CaptureSlot) (hab : slotLe a b = true) (hbc : slotLe b c = true) :
    slotLe a c = true := by
  rw [slotLe_iff] at *
  omega

theorem slotLe_total (a b : CaptureSlot) : (slotLe a b || slotLe b a) = true := by
  rw [Bool.or_eq_true, slotLe_iff, slotLe_iff]
  omega

theorem slotLe_antisymm (a b : CaptureSlot) (hab : slotLe a b = true) (hba : slotLe b a = true) :
    a = b := by
  rw [slotLe_iff] at hab hba
  obtain ⟨index, group⟩ := a
  obtain ⟨index', group'⟩ := b
  have hindex : index = index' := UInt32.toNat_inj.mp (by simp only at hab hba; omega)
  have hgroup : group = group' := UInt32.toNat_inj.mp (by simp only at hab hba; omega)
  rw [hindex, hgroup]

theorem pairwise_captureTable (tree : Pattern) :
    (captureTable tree).Pairwise fun a b => slotLe a b = true :=
  List.pairwise_mergeSort slotLe_trans slotLe_total _

theorem mem_captureTable {tree : Pattern} {slot : CaptureSlot} (h : slot ∈ captureTable tree) :
    slot.group ∈ tree.ids := by
  rw [captureTable, List.mem_mergeSort, Pattern.mem_captureSlots] at h
  obtain ⟨body, q, hmem⟩ := h
  exact List.mem_map.mpr ⟨_, hmem, rfl⟩

/-! ## The table and the groups of the tree -/

namespace Pattern

theorem captureGroups_eq (tree : Pattern) :
    tree.captureGroups = tree.captureSlots.map fun slot => (slot.group, slot.index) := by
  unfold captureGroups
  induction tree with
  | concat id first second ihFirst ihSecond | alternation id first second ihFirst ihSecond =>
    simp [nodes, captureSlots, ihFirst, ihSecond]
  | group id body capture q ih => cases capture <;> simp [nodes, captureSlots, ih]
  | _ => rfl

/-- **The table lists the groups of an index by ascending number.** -/
theorem map_group_captureTable (tree : Pattern) (index : UInt32) :
    ((captureTable tree).filter fun slot => slot.index == index).map CaptureSlot.group =
      tree.groupsUnder index := by
  refine List.Perm.eq_of_pairwise' (r := (· ≤ ·)) ?_ (List.pairwise_insertionSort _ _) ?_
  · rw [List.pairwise_map]
    refine ((pairwise_captureTable tree).filter _).imp_of_mem fun ha hb hle => ?_
    have hindex := (beq_iff_eq.mp (List.mem_filter.mp ha).2).trans
      (beq_iff_eq.mp (List.mem_filter.mp hb).2).symm
    rw [slotLe_iff, hindex] at hle
    exact UInt32.le_iff_toNat_le.mpr (by omega)
  · have hslots : (tree.captureGroups.filter fun group => group.2 = index).map Prod.fst =
        (tree.captureSlots.filter fun slot => slot.index == index).map CaptureSlot.group := by
      rw [captureGroups_eq, List.filter_map, List.map_map]
      rfl
    rw [groupsUnder, hslots]
    exact ((((List.mergeSort_perm _ _).filter _).map _).trans (List.perm_insertionSort _ _).symm)

/-- Two groups of one index are listed by their numbers, not as they stand in the tree. -/
example :
    (Pattern.concat 1 (.group 4 (.empty 5) (some 1) .once)
      (.group 2 (.empty 3) (some 1) .once)).groupsUnder 1 = [2, 4] := by
  decide

theorem mem_groupsUnder {tree : Pattern} {id : NodeId} {index : UInt32} :
    id ∈ tree.groupsUnder index ↔ (id, index) ∈ tree.captureGroups := by
  simp [groupsUnder]

theorem getElem?_capturesOf (tree : Pattern) (start : Nat) (w : Way) (index : UInt32) :
    (tree.capturesOf start w)[index]? =
      if tree.spansUnder start w index ≠ [] then some (tree.spansUnder start w index)
      else none := by
  have hentries : tree.capturesOf start w = (∅ : Captures).insertMany
      (Captures.entries (tree.spansUnder start w) (0 :: tree.captureGroups.map Prod.snd)) :=
    Std.ExtTreeMap.ofList_eq_insertMany_empty
  rw [hentries, Captures.getElem?_insertMany_entries, Std.ExtTreeMap.getElem?_empty]
  refine if_congr (and_iff_right_of_imp fun hspans => ?_) rfl rfl
  -- spans are those of a group, or that of the whole match
  by_contra hmem
  obtain ⟨hzero, hindex⟩ := not_or.mp (mt List.mem_cons.mpr hmem)
  have hnone : tree.groupsUnder index = [] := by
    refine List.eq_nil_iff_forall_not_mem.mpr fun id hid => hindex ?_
    exact List.mem_map.mpr ⟨_, mem_groupsUnder.mp hid, rfl⟩
  exact hspans (by simp [spansUnder, hnone, hzero])

/-- **The captures of a match are those of the table**, with the whole match behind them. -/
theorem capturesOf_eq (tree : Pattern) (start : Nat) (w : Way) :
    tree.capturesOf start w =
      (w.records.captures (captureTable tree)).append wholeMatch [⟨start, w.stop⟩] := by
  have hget := getElem?_capturesOf tree start w
  refine Captures.ext_group ?_ ((Records.tidy_captures _ _).append _ _) fun index => ?_
  · intro index
    rw [hget]
    split <;> simp_all
  · have hspans : (tree.capturesOf start w).group index = tree.spansUnder start w index := by
      rw [Captures.group, hget]
      split <;> simp_all
    rw [hspans, Captures.group_append, Records.group_captures_eq, ← List.flatMap_map,
      map_group_captureTable, spansUnder]
    simp only [wholeMatch, eq_comm]

/-- Trees of which the same groups record under the same indexes make the same matches of a way. -/
theorem matchOf_congr {tree tree' : Pattern} (h : tree'.captureSlots = tree.captureSlots) :
    tree'.matchOf = tree.matchOf := by
  have hgroups : tree'.captureGroups = tree.captureGroups := by
    rw [captureGroups_eq, captureGroups_eq, h]
  funext start w
  simp only [matchOf, capturesOf, spansUnder, groupsUnder, hgroups]

end Pattern

section

variable {tree root : Pattern} {subject : Subject} {start : Nat}

/-- The slot of the whole match in the tree around `tree`. -/
def Pattern.wholeSlot (tree : Pattern) : CaptureSlot := ⟨wholeMatch, tree.maxId + 1⟩

theorem captureSlots_wrapped (hroot : tree.wrapped? = some root) :
    root.captureSlots = tree.wholeSlot :: tree.captureSlots := by
  obtain ⟨_, rfl⟩ := Pattern.wrapped?_eq_some hroot
  split <;> simp [Pattern.delimited, Pattern.scan, Pattern.captureSlots, Pattern.wholeSlot]

theorem wholeSlot_not_mem (hroot : tree.wrapped? = some root) :
    tree.wholeSlot.group ∉ tree.ids := by
  obtain ⟨hlt, _⟩ := Pattern.wrapped?_eq_some hroot
  refine Pattern.not_mem_ids ?_ (by decide)
  have : (1 : UInt32).toNat = 1 := rfl
  unfold Pattern.wrapperSize at hlt
  split at hlt <;> omega

/-- **The whole match is the last to record under its index**; other indexes are as in the tree. -/
theorem captureTable_wrapped (hroot : tree.wrapped? = some root) (index : UInt32) :
    ((captureTable root).filter fun slot => slot.index == index) =
      ((captureTable tree).filter fun slot => slot.index == index) ++
        (if wholeMatch = index then [tree.wholeSlot] else []) := by
  obtain ⟨hlt, _⟩ := Pattern.wrapped?_eq_some hroot
  have hroot' : ((captureTable root).filter fun slot => slot.index == index).Pairwise
      fun a b => slotLe a b = true := (pairwise_captureTable root).filter _
  refine List.Perm.eq_of_pairwise (fun a b _ _ hab hba => slotLe_antisymm a b hab hba) hroot' ?_ ?_
  · rw [List.pairwise_append]
    refine ⟨(pairwise_captureTable tree).filter _, by split <;> simp, ?_⟩
    intro a ha b hb
    split at hb
    · rename_i hindex
      obtain rfl := List.mem_singleton.mp hb
      obtain ⟨hmem, ha⟩ := List.mem_filter.mp ha
      obtain ⟨n, hn, hid⟩ := List.mem_map.mp (mem_captureTable hmem)
      have hle := UInt32.le_iff_toNat_le.mp (Pattern.le_maxId hn)
      have hone : (tree.maxId + 1).toNat = tree.maxId.toNat + 1 := by
        refine Pattern.toNat_add_of_lt ?_
        have : (1 : UInt32).toNat = 1 := rfl
        unfold Pattern.wrapperSize at hlt
        split at hlt <;> omega
      rw [slotLe_iff]
      refine Or.inr ⟨?_, ?_⟩
      · rw [beq_iff_eq.mp ha, ← hindex]
        rfl
      · simp only [Pattern.wholeSlot, hone]
        rw [← hid]
        omega
    · cases hb
  · have hperm : (captureTable root).Perm (tree.wholeSlot :: captureTable tree) := by
      refine (List.mergeSort_perm _ _).trans ?_
      rw [captureSlots_wrapped hroot]
      exact (List.mergeSort_perm _ _).symm.cons _
    refine (hperm.filter _).trans ?_
    by_cases hindex : wholeMatch = index
    · rw [if_pos hindex, List.filter_cons_of_pos (by simpa [Pattern.wholeSlot] using hindex)]
      exact (List.perm_append_singleton _ _).symm
    · rw [if_neg hindex, List.append_nil,
        List.filter_cons_of_neg (by simpa [Pattern.wholeSlot] using hindex)]

/-- The captures of a wrapped tree are those of the tree, with the whole match behind them. -/
theorem captures_wrapped (hroot : tree.wrapped? = some root) {records : Records}
    (hrecords : records tree.wholeSlot.group = []) (start stop : Nat) :
    (records.note tree.wholeSlot.group (some wholeMatch) start stop).captures (captureTable root) =
      (records.captures (captureTable tree)).append wholeMatch [⟨start, stop⟩] := by
  have hnote : records.note tree.wholeSlot.group (some wholeMatch) start stop =
      records.set tree.wholeSlot.group [⟨start, stop⟩] := by
    simp [Records.note, hrecords]
  refine Captures.ext_group (Records.tidy_captures _ _) ((Records.tidy_captures _ _).append _ _) ?_
  intro index
  -- the groups of the tree record what they recorded before
  have hsame : ((captureTable tree).filter fun slot => slot.index == index).flatMap (fun slot =>
        records.set tree.wholeSlot.group [⟨start, stop⟩] slot.group) =
      ((captureTable tree).filter fun slot => slot.index == index).flatMap fun slot =>
        records slot.group := by
    rw [List.flatMap_def, List.flatMap_def]
    refine congrArg List.flatten (List.map_congr_left fun slot hslot => PerNode.set_of_ne _ _ ?_)
    intro heq
    exact wholeSlot_not_mem hroot (heq ▸ mem_captureTable (List.mem_filter.mp hslot).1)
  rw [hnote, Records.group_captures_eq, captureTable_wrapped hroot, List.flatMap_append, hsame,
    Captures.group_append, Records.group_captures_eq]
  split <;> simp

/-- **The end marker of a wrapped tree reports the match that a way of the tree makes.** -/
theorem report_wrapped (hroot : tree.wrapped? = some root) {w : Way}
    (hw : w.records tree.wholeSlot.group = []) :
    (w.records.note tree.wholeSlot.group (some wholeMatch) start w.stop).report
      (captureTable root) w.stop = tree.matchOf start w := by
  unfold Records.report Pattern.matchOf
  rw [captures_wrapped hroot hw, Captures.group_append, if_pos rfl, Pattern.capturesOf_eq]
  simp

/-- What the tree with its end marker finds at an offset. -/
theorem found_delimited (hroot : tree.wrapped? = some root) (hend : tree.endFree = true)
    (hp : start ≤ subject.size) (onward : Nat → Records → List Match) :
    tree.delimited.found subject (fun p records => records.report (captureTable root) p) onward
      start Records.none = tree.matchesFrom subject start := by
  have hnone : Records.none.set (tree.maxId + 1) [] = Records.none := PerNode.set_eq_self rfl
  rw [Pattern.delimited, Pattern.found, Pattern.found_once _ _ _ _ _ (by decide), hnone,
    Pattern.found_eq_flatMap_ways _ _ hend, Pattern.matchesFrom, List.map_eq_flatMap,
    List.flatMap_def, List.flatMap_def]
  refine congrArg List.flatten (List.map_congr_left fun w hw => ?_)
  have hrecords : w.records tree.wholeSlot.group = [] :=
    (ways_reach hw hp).same _ (wholeSlot_not_mem hroot)
  exact congrArg (fun m => [m]) (report_wrapped hroot hrecords)

/-- The scan tries every offset in ascending order. -/
theorem counts_scan (size : Nat) :
    (⟨0, .unbounded, false⟩ : Quantifier).counts size (fun k => decide (0 + k ≤ size)) =
      List.range (size + 1) := by
  rw [Quantifier.counts_eq (Nat.le_refl size) (by simp [Bound.covers]), List.range_eq_range']
  rfl

/-- **The program of a wrapped tree reports the matches of the tree.** -/
theorem answers_eq_matchesIn (hroot : tree.wrapped? = some root) (hend : tree.endFree = true) :
    root.answers subject = tree.matchesIn subject := by
  obtain ⟨_, hshape⟩ := Pattern.wrapped?_eq_some hroot
  have hfound := fun start (hp : start ≤ subject.size) =>
    found_delimited hroot hend hp (fun _ _ => [])
  unfold Pattern.answers Pattern.matchesIn
  by_cases hanchored : tree.startAnchored = true
  · rw [if_pos hanchored] at hshape ⊢
    have := hfound 0 (Nat.zero_le _)
    rwa [← hshape] at this
  · rw [if_neg hanchored] at hshape ⊢
    have hscan : root.found subject (fun p records => records.report (captureTable root) p)
          (fun _ _ => []) 0 Records.none =
        (Pattern.concat (tree.maxId + 5) tree.scan tree.delimited).found subject
          (fun p records => records.report (captureTable root) p) (fun _ _ => []) 0
          Records.none := by
      rw [← hshape]
    rw [hscan, Pattern.found, Pattern.scan, Pattern.found, counts_scan, Pattern.matchesAnywhere,
      List.flatMap_def, List.flatMap_def]
    refine congrArg List.flatten (List.map_congr_left fun start hstart => ?_)
    rw [Nat.zero_add]
    exact hfound start (by simpa [Nat.lt_succ_iff] using hstart)

end

end PatternMachine
