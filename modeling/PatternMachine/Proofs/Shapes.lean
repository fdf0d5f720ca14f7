import PatternMachine.Proofs.Labels
import PatternMachine.Proofs.Refinement

/-!
# Trees of the same shape

The order in which a repetition tries its counts, and whether a group records spans, has no
influence on whether a tree is accepted.

* `Pattern.Alike` — two trees are the same but for these.

Principal results: `Alike.wellFormed` — a tree that is like one without faults has none.
`compile_isOk_of_alike` — a tree that is like an accepted one is accepted.
-/

set_option autoImplicit false

namespace PatternMachine

namespace Pattern

/-- Two trees are the same, but for the orders of their quantifiers and the capture indexes of their
groups. -/
inductive Alike : Pattern → Pattern → Prop
  | empty (id : NodeId) : Alike (.empty id) (.empty id)
  | endMarker (id : NodeId) : Alike (.endMarker id) (.endMarker id)
  | anchor (id : NodeId) (kind : Anchor) : Alike (.anchor id kind) (.anchor id kind)
  | wildcard (id : NodeId) {q q' : Quantifier} (hmin : q'.min = q.min) (hmax : q'.max = q.max) :
      Alike (.wildcard id q') (.wildcard id q)
  | literal (id : NodeId) (bytes : List UInt8) {q q' : Quantifier} (hmin : q'.min = q.min)
      (hmax : q'.max = q.max) : Alike (.literal id bytes q') (.literal id bytes q)
  | concat (id : NodeId) {first first' second second' : Pattern} (hfirst : Alike first' first)
      (hsecond : Alike second' second) : Alike (.concat id first' second') (.concat id first second)
  | alternation (id : NodeId) {first first' second second' : Pattern} (hfirst : Alike first' first)
      (hsecond : Alike second' second) :
      Alike (.alternation id first' second') (.alternation id first second)
  | group (id : NodeId) {body body' : Pattern} (capture capture' : Option UInt32)
      {q q' : Quantifier} (hbody : Alike body' body) (hmin : q'.min = q.min)
      (hmax : q'.max = q.max) : Alike (.group id body' capture' q') (.group id body capture q)

namespace Alike

variable {tree tree' : Pattern} (h : Alike tree' tree)

include h

theorem ids_eq : tree'.ids = tree.ids := by
  induction h with
  | concat id _ _ ihFirst ihSecond => simp only [ids_concat, ihFirst, ihSecond]
  | alternation id _ _ ihFirst ihSecond => simp only [ids_alternation, ihFirst, ihSecond]
  | group id _ _ _ _ _ ih => simp only [ids_group, ih]
  | _ => rfl

theorem maxId_eq : tree'.maxId = tree.maxId := by
  induction h with
  | concat id _ _ ihFirst ihSecond | alternation id _ _ ihFirst ihSecond =>
    simp only [maxId, ihFirst, ihSecond]
  | group id _ _ _ _ _ ih => simp only [maxId, ih]
  | _ => rfl

theorem matchesEmpty_eq : tree'.matchesEmpty = tree.matchesEmpty := by
  induction h with
  | wildcard id hmin _ | literal id bytes hmin _ => simp only [matchesEmpty, hmin]
  | concat id _ _ ihFirst ihSecond | alternation id _ _ ihFirst ihSecond =>
    simp only [matchesEmpty, ihFirst, ihSecond]
  | group id _ _ _ hmin _ ih => simp only [matchesEmpty, hmin, ih]
  | _ => rfl

theorem startAnchored_eq : tree'.startAnchored = tree.startAnchored := by
  induction h with
  | concat id _ _ ihFirst ihSecond | alternation id _ _ ihFirst ihSecond =>
    simp only [startAnchored, ihFirst, ihSecond]
  | group id _ _ _ _ _ ih => exact ih
  | _ => rfl

theorem endFree_eq : tree'.endFree = tree.endFree := by
  induction h with
  | concat id _ _ ihFirst ihSecond | alternation id _ _ ihFirst ihSecond =>
    simp only [endFree, ihFirst, ihSecond]
  | group id _ _ _ _ _ ih => exact ih
  | _ => rfl

/-- A node has the faults of the node that it is like. -/
theorem faultAt?_eq (limit : Nat) : tree'.faultAt? limit = tree.faultAt? limit := by
  cases h with
  | wildcard id hmin hmax | literal id bytes hmin hmax =>
    simp only [faultAt?, Quantifier.fault?, hmin, hmax]
  | group id _ _ hbody hmin hmax =>
    simp only [faultAt?, Quantifier.fault?, hmin, hmax, hbody.matchesEmpty_eq]
  | _ => rfl

theorem faults_eq (limit : Nat) :
    tree'.nodes.map (faultAt? limit) = tree.nodes.map (faultAt? limit) := by
  induction h with
  | concat id _ _ ihFirst ihSecond | alternation id _ _ ihFirst ihSecond =>
    simp only [nodes, List.map_cons, List.map_append, ihFirst, ihSecond]
    rfl
  | group id capture capture' hbody hmin hmax ih =>
    simp only [nodes, List.map_cons, ih,
      (Alike.group id capture capture' hbody hmin hmax).faultAt?_eq]
  | wildcard id hmin hmax =>
    simp only [nodes, List.map_cons, (Alike.wildcard id hmin hmax).faultAt?_eq]
  | literal id bytes hmin hmax =>
    simp only [nodes, List.map_cons, (Alike.literal id bytes hmin hmax).faultAt?_eq]
  | _ => rfl

/-- **A tree that is like one without faults has none.** -/
theorem wellFormed {limit : Nat} (hwf : tree.WellFormed limit) : tree'.WellFormed limit where
  nodup := h.ids_eq ▸ hwf.nodup
  faultless := by
    intro n' hn'
    have hfault : n'.faultAt? limit ∈ tree.nodes.map (faultAt? limit) := by
      rw [← h.faults_eq]
      exact List.mem_map_of_mem hn'
    obtain ⟨n, hn, hsame⟩ := List.mem_map.mp hfault
    rw [← hsame]
    exact hwf.faultless n hn

/-- There are as many numbers left around the tree. -/
theorem wrapped? {root : Pattern} (hroot : tree.wrapped? = some root) :
    ∃ root', tree'.wrapped? = some root' := by
  obtain ⟨hlt, _⟩ := wrapped?_eq_some hroot
  have hsize : tree'.wrapperSize = tree.wrapperSize := by
    rw [wrapperSize, wrapperSize, h.startAnchored_eq]
  unfold Pattern.wrapped?
  rw [if_pos (by rw [h.maxId_eq, hsize]; exact hlt)]
  split <;> exact ⟨_, rfl⟩

end Alike

end Pattern

/-- **A tree that is like an accepted one is accepted.** -/
theorem compile_isOk_of_alike {tree tree' : Pattern} {options : CompileOptions} {program : Program}
    (h : tree'.Alike tree) (hcompile : compile tree options = .ok program) :
    ∃ program', compile tree' options = .ok program' := by
  obtain ⟨hwf, _, hcompiled⟩ := wellFormed_of_compile hcompile
  obtain ⟨root', hroot'⟩ := h.wrapped? hcompiled.wrapped
  exact compile_isOk_of_wellFormed (h.wellFormed hwf) hroot'

end PatternMachine
