import Mathlib.Algebra.Group.Nat.Defs
import PatternMachine.Compilation.Compile

/-!
# Trees without a fault

* `Pattern.ids` — the numbers of the nodes of a tree.
* `Pattern.WellFormed` — all numbers are distinct, and no node taken alone has a fault.
* `Pattern.groupAt?` — the capture index and the quantifier of the group that has a number.

Principal results: `firstFault?_eq_none_iff` — checking finds no fault exactly in well-formed trees.
`WellFormed.wrapped` — the tree around a well-formed tree is well-formed, so the numbers that are
given to its own nodes are new.
-/

set_option autoImplicit false

namespace PatternMachine

namespace Pattern

/-- The numbers of the nodes, in preorder. -/
def ids (tree : Pattern) : List NodeId := tree.nodes.map Pattern.id

theorem ids_concat (id : NodeId) (first second : Pattern) :
    (concat id first second).ids = id :: (first.ids ++ second.ids) := by
  simp [ids, nodes, Pattern.id]

theorem ids_alternation (id : NodeId) (first second : Pattern) :
    (alternation id first second).ids = id :: (first.ids ++ second.ids) := by
  simp [ids, nodes, Pattern.id]

theorem ids_group (id : NodeId) (body : Pattern) (capture : Option UInt32) (q : Quantifier) :
    (group id body capture q).ids = id :: body.ids := rfl

/-- No number is used twice, and no node taken alone has a fault. -/
structure WellFormed (limit : Nat) (tree : Pattern) : Prop where
  nodup : tree.ids.Nodup
  faultless : ∀ n ∈ tree.nodes, n.faultAt? limit = none

/-! ## Checking -/

theorem firstFaultOf?_eq_none_iff {limit : Nat} {seen : Std.HashSet NodeId} {ps : List Pattern} :
    firstFaultOf? limit seen ps = none ↔
      (ps.map Pattern.id).Nodup ∧ (∀ p ∈ ps, p.id ∉ seen) ∧ ∀ p ∈ ps, p.faultAt? limit = none := by
  induction ps generalizing seen with
  | nil => simp [firstFaultOf?]
  | cons p ps ih =>
    rw [firstFaultOf?]
    by_cases hseen : seen.contains p.id = true
    · rw [if_pos hseen]
      refine ⟨nofun, fun h => ?_⟩
      exact absurd (Std.HashSet.mem_iff_contains.mpr hseen) (h.2.1 p (by simp))
    · rw [if_neg hseen]
      have hp : p.id ∉ seen := fun h => hseen (Std.HashSet.mem_iff_contains.mp h)
      cases hfault : p.faultAt? limit with
      | some fault => simp [hfault]
      | none =>
        simp only [ih, List.map_cons, List.nodup_cons, List.mem_cons, forall_eq_or_imp, hfault,
          true_and, Std.HashSet.mem_insert, beq_iff_eq, not_or, List.mem_map, not_exists, not_and]
        constructor
        · rintro ⟨hnodup, hnew, hall⟩
          exact ⟨⟨fun n hn heq => (hnew n hn).1 heq.symm, hnodup⟩,
            ⟨hp, fun n hn => (hnew n hn).2⟩, hall⟩
        · rintro ⟨⟨hfirst, hnodup⟩, ⟨_, hnew⟩, hall⟩
          exact ⟨hnodup, fun n hn => ⟨fun heq => hfirst n hn heq.symm, hnew n hn⟩, hall⟩

theorem visit_perm_nodes (tree : Pattern) : tree.visit.Perm tree.nodes := by
  induction tree with
  | concat id a b iha ihb => exact ((ihb.append iha).trans List.perm_append_comm).cons _
  | alternation id a b iha ihb => exact ((ihb.append iha).trans List.perm_append_comm).cons _
  | group id body capture q ih => exact ih.cons _
  | _ => exact .refl _

/-- **Checking finds no fault exactly in well-formed trees.** -/
theorem firstFault?_eq_none_iff {limit : Nat} {tree : Pattern} :
    tree.firstFault? limit = none ↔ tree.WellFormed limit := by
  rw [firstFault?, firstFaultOf?_eq_none_iff, (tree.visit_perm_nodes.map Pattern.id).nodup_iff]
  constructor
  · rintro ⟨hnodup, _, hall⟩
    exact ⟨hnodup, fun n hn => hall n (mem_visit.mpr hn)⟩
  · rintro ⟨hnodup, hall⟩
    exact ⟨hnodup, by simp, fun n hn => hall n (mem_visit.mp hn)⟩

/-! ## Parts of well-formed trees -/

theorem Quantifier.isValid_of_fault? {id : NodeId} {q : Quantifier} (h : q.fault? id = none) :
    q.isValid = true := by
  unfold Quantifier.fault? at h
  unfold Quantifier.isValid
  cases hmax : q.max with
  | unbounded => rfl
  | finite count =>
    simp only [hmax] at h
    split at h
    · cases h
    · rename_i hlt
      simpa using UInt32.not_lt.mp hlt

variable {limit : Nat} {id : NodeId} {a b : Pattern}

theorem WellFormed.literal {bytes : List UInt8} {q : Quantifier}
    (h : (Pattern.literal id bytes q).WellFormed limit) : 0 < bytes.length ∧ q.isValid = true := by
  have hfault := h.faultless _ (self_mem_nodes _)
  simp only [faultAt?] at hfault
  split at hfault
  · cases hfault
  · rename_i hempty
    split at hfault
    · cases hfault
    · refine ⟨?_, Quantifier.isValid_of_fault? hfault⟩
      rw [List.length_pos_iff]
      simpa using hempty

theorem WellFormed.group {body : Pattern} {capture : Option UInt32} {q : Quantifier}
    (h : (Pattern.group id body capture q).WellFormed limit) :
    body.WellFormed limit ∧ id ∉ body.ids ∧ q.isValid = true ∧
      (q.max = .unbounded → body.matchesEmpty = false) := by
  have hnodup := h.nodup
  simp only [ids, nodes, List.map_cons, List.nodup_cons] at hnodup
  have hfault := h.faultless _ (self_mem_nodes _)
  simp only [faultAt?] at hfault
  split at hfault
  · cases hfault
  · rename_i hempty
    refine ⟨⟨hnodup.2, fun n hn => h.faultless n (by simp [nodes, hn])⟩, hnodup.1,
      Quantifier.isValid_of_fault? hfault, fun hmax => ?_⟩
    simpa [hmax] using hempty

/-- What is known of the two parts of a well-formed sequence or choice. -/
structure WellFormed.Parts (limit : Nat) (a b : Pattern) : Prop where
  first : a.WellFormed limit
  second : b.WellFormed limit
  disjoint : ∀ i ∈ a.ids, i ∉ b.ids

theorem WellFormed.parts_of_nodes {tree : Pattern} (h : tree.WellFormed limit)
    (hnodes : tree.nodes = tree :: (a.nodes ++ b.nodes)) : WellFormed.Parts limit a b := by
  have hnodup := h.nodup
  simp only [ids, hnodes, List.map_cons, List.map_append, List.nodup_cons, List.nodup_append]
    at hnodup
  obtain ⟨_, ha, hb, hdisjoint⟩ := hnodup
  exact ⟨⟨ha, fun n hn => h.faultless n (by simp [hnodes, hn])⟩,
    ⟨hb, fun n hn => h.faultless n (by simp [hnodes, hn])⟩,
    fun i hi hi' => hdisjoint i hi i hi' rfl⟩

theorem WellFormed.concat (h : (Pattern.concat id a b).WellFormed limit) :
    WellFormed.Parts limit a b := h.parts_of_nodes rfl

theorem WellFormed.alternation (h : (Pattern.alternation id a b).WellFormed limit) :
    WellFormed.Parts limit a b := h.parts_of_nodes rfl

/-! ## The groups of a tree -/

/-- The capture index and the quantifier of a node that is a group. -/
def group? : Pattern → Option (Option UInt32 × Quantifier)
  | .group _ _ capture q => some (capture, q)
  | _ => none

/-- The capture index and the quantifier of the group that has the number `id` in a tree. -/
def groupAt? (tree : Pattern) (id : NodeId) : Option (Option UInt32 × Quantifier) :=
  (tree.nodes.find? fun n => n.id == id).bind group?

theorem find?_id_eq_some {ns : List Pattern} {n : Pattern} (hnodup : (ns.map Pattern.id).Nodup)
    (hn : n ∈ ns) : (ns.find? fun m => m.id == n.id) = some n := by
  induction ns with
  | nil => cases hn
  | cons m ms ih =>
    rw [List.map_cons, List.nodup_cons] at hnodup
    rcases List.mem_cons.mp hn with rfl | hn
    · simp
    · have hne : ¬ m.id = n.id := fun heq =>
        hnodup.1 (heq ▸ List.mem_map.mpr ⟨n, hn, rfl⟩)
      rw [List.find?_cons_of_neg (by simpa using hne)]
      exact ih hnodup.2 hn

theorem WellFormed.groupAt? {tree body : Pattern} {capture : Option UInt32} {q : Quantifier}
    (h : tree.WellFormed limit) (hmem : .group id body capture q ∈ tree.nodes) :
    tree.groupAt? id = some (capture, q) := by
  unfold Pattern.groupAt?
  rw [show id = (Pattern.group id body capture q).id from rfl, find?_id_eq_some h.nodup hmem]
  rfl

/-! ## The wrapped tree -/

/-- The tree behind the scan: the tree as the whole match, and an end marker. -/
def delimited (tree : Pattern) : Pattern :=
  .concat (tree.maxId + 3) (.group (tree.maxId + 1) tree (some wholeMatch) .once)
    (.endMarker (tree.maxId + 2))

/-- The scan in front of a tree that is not anchored. -/
def scan (tree : Pattern) : Pattern := .wildcard (tree.maxId + 4) ⟨0, .unbounded, false⟩

theorem wrapped?_eq_some {tree root : Pattern} (h : tree.wrapped? = some root) :
    tree.maxId.toNat + tree.wrapperSize < 2 ^ 32 ∧
      root = if tree.startAnchored then tree.delimited
        else .concat (tree.maxId + 5) tree.scan tree.delimited := by
  unfold wrapped? at h
  dsimp only at h
  split at h
  · rename_i hlt
    refine ⟨hlt, ?_⟩
    split at h <;> rename_i hanchored
    · rw [if_pos hanchored]
      exact (Option.some.inj h).symm
    · rw [if_neg hanchored]
      exact (Option.some.inj h).symm
  · cases h

theorem toNat_add_of_lt {m k : UInt32} (h : m.toNat + k.toNat < 2 ^ 32) :
    (m + k).toNat = m.toNat + k.toNat := by
  rw [UInt32.toNat_add, Nat.mod_eq_of_lt h]

/-- A number beyond the largest one is the number of no node. -/
theorem not_mem_ids {tree : Pattern} {k : UInt32} (h : tree.maxId.toNat + k.toNat < 2 ^ 32)
    (hk : 0 < k.toNat) : tree.maxId + k ∉ tree.ids := by
  intro hmem
  obtain ⟨n, hn, hid⟩ := List.mem_map.mp hmem
  have hle := UInt32.le_iff_toNat_le.mp (le_maxId hn)
  rw [hid, toNat_add_of_lt h] at hle
  omega

theorem add_ne_add {m j k : UInt32} (hj : m.toNat + j.toNat < 2 ^ 32)
    (hk : m.toNat + k.toNat < 2 ^ 32) (hne : j.toNat ≠ k.toNat) : m + j ≠ m + k := by
  intro heq
  have := congrArg UInt32.toNat heq
  rw [toNat_add_of_lt hj, toNat_add_of_lt hk] at this
  omega

theorem WellFormed.delimited {tree : Pattern} (h : tree.WellFormed limit)
    (hids : tree.maxId.toNat + 3 < 2 ^ 32) : tree.delimited.WellFormed limit := by
  have h1 : tree.maxId.toNat + (1 : UInt32).toNat < 2 ^ 32 := by simp; omega
  have h2 : tree.maxId.toNat + (2 : UInt32).toNat < 2 ^ 32 := by simp; omega
  have h3 : tree.maxId.toNat + (3 : UInt32).toNat < 2 ^ 32 := by simp; omega
  refine ⟨?_, ?_⟩
  · have hnodes : tree.delimited.ids =
        (tree.maxId + 3) :: (tree.maxId + 1) :: (tree.ids ++ [tree.maxId + 2]) := by
      simp [Pattern.delimited, ids, nodes, Pattern.id]
    rw [hnodes, List.nodup_cons, List.nodup_cons, List.nodup_append]
    refine ⟨?_, ?_, h.nodup, by simp, ?_⟩
    · simp only [List.mem_cons, List.mem_append, List.not_mem_nil, or_false, not_or]
      exact ⟨add_ne_add h3 h1 (by decide), not_mem_ids h3 (by decide),
        add_ne_add h3 h2 (by decide)⟩
    · simp only [List.mem_cons, List.mem_append, List.not_mem_nil, or_false, not_or]
      exact ⟨not_mem_ids h1 (by decide), add_ne_add h1 h2 (by decide)⟩
    · intro i hi j hj heq
      rw [List.mem_singleton.mp hj] at heq
      exact not_mem_ids h2 (by decide) (heq ▸ hi)
  · intro n hn
    simp only [Pattern.delimited, nodes, List.mem_cons, List.mem_append, List.not_mem_nil,
      or_false] at hn
    rcases hn with rfl | (rfl | hn) | rfl
    · rfl
    · rfl
    · exact h.faultless n hn
    · rfl

/-- **The tree around a well-formed tree is well-formed.** -/
theorem WellFormed.wrapped {tree root : Pattern} (h : tree.WellFormed limit)
    (hroot : tree.wrapped? = some root) : root.WellFormed limit := by
  obtain ⟨hlt, rfl⟩ := wrapped?_eq_some hroot
  unfold wrapperSize at hlt
  split
  · rename_i hanchored
    rw [if_pos hanchored] at hlt
    exact h.delimited hlt
  · rename_i hanchored
    rw [if_neg hanchored] at hlt
    have hd := h.delimited (by omega)
    have h4 : tree.maxId.toNat + (4 : UInt32).toNat < 2 ^ 32 := by simp; omega
    have h5 : tree.maxId.toNat + (5 : UInt32).toNat < 2 ^ 32 := by simp; omega
    -- the numbers of the scan and of the sequence around it are the two largest
    have hnew : ∀ k : UInt32, 3 < k.toNat → tree.maxId.toNat + k.toNat < 2 ^ 32 →
        tree.maxId + k ∉ tree.delimited.ids := by
      intro k hk hlt
      simp only [Pattern.delimited, ids, nodes, List.map_cons, List.map_append, Pattern.id,
        List.map_nil, List.mem_cons, List.mem_append, List.not_mem_nil, or_false, not_or]
      have h1 : tree.maxId.toNat + (1 : UInt32).toNat < 2 ^ 32 := by simp; omega
      have h2 : tree.maxId.toNat + (2 : UInt32).toNat < 2 ^ 32 := by simp; omega
      have h3 : tree.maxId.toNat + (3 : UInt32).toNat < 2 ^ 32 := by simp; omega
      exact ⟨add_ne_add hlt h3 (by simp; omega), ⟨add_ne_add hlt h1 (by simp; omega),
        not_mem_ids hlt (by omega)⟩, add_ne_add hlt h2 (by simp; omega)⟩
    refine ⟨?_, ?_⟩
    · have hnodes : (Pattern.concat (tree.maxId + 5) tree.scan tree.delimited).ids =
          (tree.maxId + 5) :: (tree.maxId + 4) :: tree.delimited.ids := by
        simp [Pattern.scan, ids, nodes, Pattern.id]
      rw [hnodes, List.nodup_cons, List.nodup_cons]
      refine ⟨?_, hnew 4 (by decide) h4, hd.nodup⟩
      simp only [List.mem_cons, not_or]
      exact ⟨add_ne_add h5 h4 (by decide), hnew 5 (by decide) h5⟩
    · intro n hn
      simp only [nodes, Pattern.scan, List.mem_cons, List.mem_append, List.not_mem_nil,
        or_false] at hn
      rcases hn with rfl | rfl | hn
      · rfl
      · rfl
      · exact hd.faultless n hn

end Pattern

end PatternMachine
