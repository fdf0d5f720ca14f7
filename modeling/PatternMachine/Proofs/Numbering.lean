import PatternMachine.Proofs.Merging
import PatternMachine.Proofs.WellFormed
import Mathlib.Data.List.Perm.Subperm
import Mathlib.Data.List.Nodup

/-!
# Numbers of parts and wholes

What putting a tree together makes of the numbers and the captures of its parts.

* `Issued` — a list of numbers in which only those occur that have been handed out, and none more
  often than that.
* `Pattern.capture?`, `Pattern.captures` — the capture indexes of a tree, in preorder.
* `Pattern.Regular` — what a node that is read may look like.
* `IsJoint` — a node with two parts that carries nothing but its number.
* `Level.parts` — the trees that an open group holds, in reading order.

Principal results: `joinLiterals_parts` — joining literals gives up some numbers, and nothing else.
`Level.issued_body`, `Level.captures_body`, `Level.allRegular_body` — a group that is put together
has new numbers beside those of its parts, the captures of its parts in reading order, and regular
nodes.  `Level.body_next_le` — it takes at most one number more than it has parts.
-/

set_option autoImplicit false

namespace PatternMachine

/-! ## Numbers that have been handed out -/

/-- Below `next` the numbers have been handed out, each of them once, and these are some of them. -/
def Issued (next : Nat) (ids : List NodeId) : Prop :=
  ids.Subperm ((List.range next).map UInt32.ofNat)

namespace Issued

variable {next : Nat} {ids ids' : List NodeId} {id : NodeId}

theorem of_subperm (h : Issued next ids) (hsub : ids'.Subperm ids) : Issued next ids' :=
  hsub.trans h

/-- One more number is handed out. -/
theorem cons_next (h : Issued next ids) : Issued (next + 1) (UInt32.ofNat next :: ids) := by
  rw [Issued, List.range_succ, List.map_append]
  exact List.perm_append_singleton _ _ |>.symm.subperm.trans (h.append (.refl _))

/-- As long as the numbers fit into 32 bits, none has been handed out twice. -/
theorem nodup (h : Issued next ids) (hle : next ≤ UInt32.size) : ids.Nodup := by
  have hrange : ((List.range next).map UInt32.ofNat).Nodup := by
    refine List.Nodup.map_on (fun a ha b hb heq => ?_) List.nodup_range
    rw [List.mem_range] at ha hb
    have := congrArg UInt32.toNat heq
    rwa [UInt32.toNat_ofNat_of_lt' (by omega), UInt32.toNat_ofNat_of_lt' (by omega)] at this
  obtain ⟨ids', hperm, hsublist⟩ := h
  exact hperm.nodup_iff.mp (hrange.sublist hsublist)

theorem toNat_lt (h : Issued next ids) (hid : id ∈ ids) : id.toNat < next := by
  obtain ⟨n, hn, rfl⟩ := List.mem_map.mp (h.subset hid)
  rw [List.mem_range] at hn
  exact Nat.lt_of_le_of_lt (Nat.mod_le _ _) hn

end Issued

/-! ## Trees -/

namespace Pattern

/-- The capture index of a node, if it has one. -/
def capture? : Pattern → Option UInt32
  | .group _ _ capture _ => capture
  | _ => none

/-- The capture indexes of a tree, in preorder. -/
def captures (tree : Pattern) : List UInt32 := tree.nodes.filterMap capture?

/-- A node that is read is no end marker, its literal has bytes, and no minimum exceeds a
maximum. -/
def Regular : Pattern → Prop
  | .endMarker _ => False
  | .wildcard _ q => q.isValid = true
  | .literal _ bytes q => bytes ≠ [] ∧ q.isValid = true
  | .group _ _ _ q => q.isValid = true
  | _ => True

/-- All nodes of a tree are regular. -/
def AllRegular (tree : Pattern) : Prop := ∀ n ∈ tree.nodes, n.Regular

theorem captures_group (id : NodeId) (body : Pattern) (capture : Option UInt32) (q : Quantifier) :
    (group id body capture q).captures = capture.toList ++ body.captures := by
  cases capture <;> rfl

/-- Another quantifier changes neither the numbers nor the captures of a unit. -/
theorem withQuantifier?_eq_some {q : Quantifier} {p p' : Pattern}
    (h : p.withQuantifier? q = some p') :
    p'.ids = p.ids ∧ p'.captures = p.captures ∧
      (q.isValid = true → p.AllRegular → p'.AllRegular) := by
  cases p with
  | wildcard id r =>
    cases h
    exact ⟨rfl, rfl, fun hq _ => by simpa [AllRegular, nodes, Regular] using hq⟩
  | literal id bytes r =>
    cases h
    refine ⟨rfl, rfl, fun hq hp => ?_⟩
    have hbytes := (hp _ (self_mem_nodes _)).1
    simpa [AllRegular, nodes, Regular] using ⟨hbytes, hq⟩
  | group id body capture r =>
    cases h
    refine ⟨rfl, rfl, fun hq hp => ?_⟩
    intro n hn
    rcases List.mem_cons.mp hn with rfl | hn
    · exact hq
    · exact hp n (List.mem_cons_of_mem _ hn)
  | _ => cases h

end Pattern

/-- A node with two parts that carries nothing but its number. -/
structure IsJoint (joint : NodeId → Pattern → Pattern → Pattern) : Prop where
  nodes : ∀ id p q, (joint id p q).nodes = joint id p q :: (p.nodes ++ q.nodes)
  id : ∀ id p q, (joint id p q).id = id
  capture : ∀ id p q, (joint id p q).capture? = none
  regular : ∀ id p q, (joint id p q).Regular

theorem isJoint_concat : IsJoint .concat :=
  ⟨fun _ _ _ => rfl, fun _ _ _ => rfl, fun _ _ _ => rfl, fun _ _ _ => trivial⟩

theorem isJoint_alternation : IsJoint .alternation :=
  ⟨fun _ _ _ => rfl, fun _ _ _ => rfl, fun _ _ _ => rfl, fun _ _ _ => trivial⟩

section

variable {joint : NodeId → Pattern → Pattern → Pattern} (hjoint : IsJoint joint)
variable {ps earlier : List Pattern} {last : Pattern} {next : Nat}
include hjoint

namespace IsJoint

theorem ids (id : NodeId) (p q : Pattern) : (joint id p q).ids = id :: (p.ids ++ q.ids) := by
  simp [Pattern.ids, hjoint.nodes, hjoint.id]

theorem captures (id : NodeId) (p q : Pattern) :
    (joint id p q).captures = p.captures ++ q.captures := by
  simp [Pattern.captures, hjoint.nodes, hjoint.capture]

theorem allRegular {id : NodeId} {p q : Pattern} (hp : p.AllRegular) (hq : q.AllRegular) :
    (joint id p q).AllRegular := by
  intro n hn
  rw [hjoint.nodes, List.mem_cons, List.mem_append] at hn
  rcases hn with rfl | hn | hn
  · exact hjoint.regular id p q
  · exact hp n hn
  · exact hq n hn

end IsJoint

/-! ## Nesting -/

omit hjoint in
/-- Every joint takes one number. -/
theorem nest_next (earlier : List Pattern) (last : Pattern) (next : Nat) :
    (nest joint earlier last next).2 = next + earlier.length := by
  induction earlier generalizing last next with
  | nil => rfl
  | cons p earlier ih =>
    rw [show nest joint (p :: earlier) last next =
      nest joint earlier (joint (UInt32.ofNat next) p last) (next + 1) from rfl, ih,
      List.length_cons]
    omega

/-- The joints get new numbers. -/
theorem issued_nest {taken : List NodeId}
    (h : Issued next (taken ++ (earlier.flatMap Pattern.ids ++ last.ids))) :
    Issued (nest joint earlier last next).2
      (taken ++ (nest joint earlier last next).1.ids) := by
  induction earlier generalizing last next with
  | nil => exact h
  | cons p earlier ih =>
    refine ih (h.cons_next.of_subperm (List.Perm.subperm ?_))
    rw [hjoint.ids]
    refine List.perm_iff_count.mpr fun id => ?_
    simp only [List.count_append, List.count_cons, List.flatMap_cons]
    omega

/-- The items are nested in reading order. -/
theorem captures_nest :
    (nest joint earlier last next).1.captures =
      earlier.reverse.flatMap Pattern.captures ++ last.captures := by
  induction earlier generalizing last next with
  | nil => rfl
  | cons p earlier ih =>
    rw [show nest joint (p :: earlier) last next =
      nest joint earlier (joint (UInt32.ofNat next) p last) (next + 1) from rfl, ih,
      hjoint.captures]
    simp

theorem allRegular_nest (hearlier : ∀ p ∈ earlier, p.AllRegular) (hlast : last.AllRegular) :
    (nest joint earlier last next).1.AllRegular := by
  induction earlier generalizing last next with
  | nil => exact hlast
  | cons p earlier ih =>
    exact ih (fun r hr => hearlier r (List.mem_cons_of_mem _ hr))
      (hjoint.allRegular (hearlier p List.mem_cons_self) hlast)

end

/-! ## Joining literals -/

/-- An item is put in front of the others, or its bytes in front of those of the first one if both
are matched once. -/
theorem joinItem_cases (p : Pattern) (ps : List Pattern) :
    joinItem p ps = p :: ps ∨
      ∃ id bytes q id' more q' rest, q.isOnce = true ∧ q'.isOnce = true ∧
        p = .literal id bytes q ∧ ps = .literal id' more q' :: rest ∧
        joinItem p ps = .literal id (bytes ++ more) q :: rest := by
  cases hp : p.onceLiteral? with
  | none => exact .inl (joinItem_of_none hp ps)
  | some bytes =>
    obtain ⟨id, q, rfl, hq⟩ := Pattern.eq_literal_of_onceLiteral? hp
    cases ps with
    | nil => exact .inl rfl
    | cons r rest =>
      cases hr : r.onceLiteral? with
      | none =>
        refine .inl (joinItem_of_head_none (fun s hs => ?_) _)
        cases hs
        exact hr
      | some more =>
        obtain ⟨id', q', rfl, hq'⟩ := Pattern.eq_literal_of_onceLiteral? hr
        exact .inr ⟨id, bytes, q, id', more, q', rest, hq, hq', rfl, rfl,
          joinItem_of_once hq id bytes hr rest⟩

/-- Joining literals gives up some numbers, and nothing else. -/
theorem joinLiterals_parts (ps : List Pattern) :
    ((joinLiterals ps).flatMap Pattern.ids).Sublist (ps.flatMap Pattern.ids) ∧
      (joinLiterals ps).flatMap Pattern.captures = ps.flatMap Pattern.captures ∧
      ((∀ p ∈ ps, p.AllRegular) → ∀ p ∈ joinLiterals ps, p.AllRegular) ∧
      (joinLiterals ps).length ≤ ps.length := by
  induction ps with
  | nil => exact ⟨.refl _, rfl, fun h => h, Nat.le_refl _⟩
  | cons p ps ih =>
    obtain ⟨hids, hcaptures, hregular, hlength⟩ := ih
    change ((joinItem p (joinLiterals ps)).flatMap Pattern.ids).Sublist _ ∧
      (joinItem p (joinLiterals ps)).flatMap Pattern.captures = _ ∧
      (_ → ∀ r ∈ joinItem p (joinLiterals ps), r.AllRegular) ∧
      (joinItem p (joinLiterals ps)).length ≤ _
    rcases joinItem_cases p (joinLiterals ps) with
      hjoin | ⟨id, bytes, q, id', more, q', rest, -, -, rfl, hps, hjoin⟩
    · rw [hjoin]
      refine ⟨?_, ?_, ?_, by simpa using hlength⟩
      · exact (List.Sublist.refl _).append hids
      · rw [List.flatMap_cons, List.flatMap_cons, hcaptures]
      · intro hall r hr
        rcases List.mem_cons.mp hr with rfl | hr
        · exact hall r List.mem_cons_self
        · exact hregular (fun s hs => hall s (List.mem_cons_of_mem _ hs)) r hr
    · rw [hjoin]
      rw [hps] at hids hcaptures hregular hlength
      refine ⟨?_, ?_, ?_, ?_⟩
      · have hrest : (rest.flatMap Pattern.ids).Sublist (ps.flatMap Pattern.ids) :=
          (List.sublist_cons_self _ _).trans hids
        exact hrest.cons_cons id
      · exact hcaptures
      · intro hall r hr
        have hbefore := hregular fun s hs => hall s (List.mem_cons_of_mem _ hs)
        rcases List.mem_cons.mp hr with rfl | hr
        · obtain ⟨hbytes, hq⟩ := hall _ List.mem_cons_self _ (Pattern.self_mem_nodes _)
          intro n hn
          obtain rfl : n = .literal id (bytes ++ more) q := List.mem_singleton.mp hn
          exact ⟨by simp [hbytes], hq⟩
        · exact hbefore r (List.mem_cons_of_mem _ hr)
      · simp only [List.length_cons] at hlength ⊢
        omega

/-! ## Levels -/

section

variable {items : List Pattern} {level : Level} {next : Nat} {taken : List NodeId}

theorem sequence_next_le (items : List Pattern) (next : Nat) :
    (sequence items next).2 ≤ next + items.length + 1 := by
  unfold sequence
  split
  · simp
  · rename_i last earlier hreverse
    have hlength := congrArg List.length hreverse
    rw [List.length_reverse, List.length_cons] at hlength
    rw [nest_next]
    omega

theorem issued_sequence (h : Issued next (taken ++ items.flatMap Pattern.ids)) :
    Issued (sequence items next).2 (taken ++ (sequence items next).1.ids) := by
  unfold sequence
  split
  · exact h.cons_next.of_subperm (List.Perm.subperm (by
      rename_i hreverse
      rw [List.reverse_eq_nil_iff.mp hreverse, List.flatMap_nil, List.append_nil]
      exact List.perm_append_singleton _ _))
  · rename_i last earlier hreverse
    refine issued_nest isJoint_concat (h.of_subperm (List.Perm.subperm ?_))
    rw [List.reverse_eq_cons_iff.mp hreverse, List.flatMap_append, List.flatMap_singleton]
    exact (((List.reverse_perm earlier).symm.flatMap_right _).append_right _).append_left _

theorem captures_sequence (items : List Pattern) (next : Nat) :
    (sequence items next).1.captures = items.flatMap Pattern.captures := by
  unfold sequence
  split
  · rename_i hreverse
    rw [List.reverse_eq_nil_iff.mp hreverse]
    rfl
  · rename_i last earlier hreverse
    rw [captures_nest isJoint_concat, List.reverse_eq_cons_iff.mp hreverse, List.flatMap_append,
      List.flatMap_singleton]

theorem allRegular_sequence (h : ∀ p ∈ items, p.AllRegular) (next : Nat) :
    (sequence items next).1.AllRegular := by
  unfold sequence
  split
  · intro n hn
    rw [List.mem_singleton.mp hn]
    trivial
  · rename_i last earlier hreverse
    have hmem : ∀ p ∈ last :: earlier, p.AllRegular := by
      intro p hp
      rw [← hreverse, List.mem_reverse] at hp
      exact h p hp
    exact allRegular_nest isJoint_concat (fun p hp => hmem p (List.mem_cons_of_mem _ hp))
      (hmem last List.mem_cons_self)

namespace Level

/-- The trees that a level holds, in reading order. -/
def parts (level : Level) : List Pattern := level.branches.reverse ++ level.items.reverse

theorem parts_add (item : Pattern) (level : Level) :
    (level.add item).parts = level.parts ++ [item] := by
  simp [parts, add]

theorem branch_next_le (level : Level) (next : Nat) :
    (level.branch joinLiterals next).2 ≤ next + level.items.length + 1 := by
  have hle := sequence_next_le (joinLiterals level.items.reverse) next
  have hlength := (joinLiterals_parts level.items.reverse).2.2.2
  rw [List.length_reverse] at hlength
  unfold branch
  omega

theorem issued_branch (h : Issued next (taken ++ level.items.reverse.flatMap Pattern.ids)) :
    Issued (level.branch joinLiterals next).2
      (taken ++ (level.branch joinLiterals next).1.ids) :=
  issued_sequence (h.of_subperm ((joinLiterals_parts _).1.append_left taken).subperm)

theorem captures_branch (level : Level) (next : Nat) :
    (level.branch joinLiterals next).1.captures =
      level.items.reverse.flatMap Pattern.captures := by
  rw [branch, captures_sequence, (joinLiterals_parts _).2.1]

theorem allRegular_branch (h : ∀ p ∈ level.parts, p.AllRegular) (next : Nat) :
    (level.branch joinLiterals next).1.AllRegular :=
  allRegular_sequence ((joinLiterals_parts _).2.2.1 fun p hp =>
    h p (List.mem_append_right _ hp)) next

/-- Putting a level together takes at most one number more than it holds trees. -/
theorem body_next_le (level : Level) (next : Nat) :
    (level.body joinLiterals next).2 ≤ next + level.parts.length + 1 := by
  have hle := level.branch_next_le next
  simp only [body, nest_next, parts, List.length_append, List.length_reverse]
  omega

theorem issued_body (h : Issued next (taken ++ level.parts.flatMap Pattern.ids)) :
    Issued (level.body joinLiterals next).2 (taken ++ (level.body joinLiterals next).1.ids) := by
  have hbefore : Issued next ((taken ++ level.branches.flatMap Pattern.ids) ++
      level.items.reverse.flatMap Pattern.ids) := by
    refine h.of_subperm (List.Perm.subperm ?_)
    rw [parts, List.flatMap_append, List.append_assoc]
    exact (((List.reverse_perm _).symm.flatMap_right _).append_right _).append_left _
  have hbranch := issued_branch hbefore
  rw [List.append_assoc] at hbranch
  exact issued_nest isJoint_alternation hbranch

theorem captures_body (level : Level) (next : Nat) :
    (level.body joinLiterals next).1.captures = level.parts.flatMap Pattern.captures := by
  simp only [body, captures_nest isJoint_alternation, captures_branch, parts,
    List.flatMap_append]

theorem allRegular_body (h : ∀ p ∈ level.parts, p.AllRegular) (next : Nat) :
    (level.body joinLiterals next).1.AllRegular :=
  allRegular_nest isJoint_alternation
    (fun p hp => h p (List.mem_append_left _ (List.mem_reverse.mpr hp)))
    (allRegular_branch h next)

end Level

end

end PatternMachine
