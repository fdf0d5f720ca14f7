import PatternMachine.Proofs.WellFormed
import PatternMachine.Proofs.Linking

/-!
# The labels of compiled code

* `Label.owner?` — the node that a label belongs to.
* `Program.targetsOf` — the labels that a list of instructions jumps to.
* `Closed` — code that defines labels of given nodes only, each of them once, and jumps to these
  labels or to given exits.

Principal results: `Closed.append` — pieces of code that belong to different nodes may jump into
each other.  `closed_code` — the code of a tree whose numbers are distinct is closed but for the
label at which it goes on and the shared place of failure.  `closed_program` — so the code of a
whole program defines every label once, and all that it jumps to.  `compile_isOk_of_wellFormed` — so
no well-formed tree fails at linking.
-/

set_option autoImplicit false

namespace PatternMachine

open Lowering

/-- The node that a label belongs to. -/
def Label.owner? : Label → Option NodeId
  | .node id => some id
  | .inner id _ => some id
  | .again id => some id
  | .againInner id _ => some id
  | .againFail id => some id
  | _ => none

namespace Program

/-- The labels that a list of instructions jumps to, in order. -/
def targetsOf (code : List Instruction) : List Label := code.filterMap Instruction.target?

variable {is js : List Instruction} {i : Instruction} {label : Label}

@[simp] theorem labelsOf_append : labelsOf (is ++ js) = labelsOf is ++ labelsOf js :=
  List.filterMap_append

@[simp] theorem targetsOf_append : targetsOf (is ++ js) = targetsOf is ++ targetsOf js :=
  List.filterMap_append

@[simp] theorem labelsOf_nil : labelsOf [] = [] := rfl

@[simp] theorem targetsOf_nil : targetsOf [] = [] := rfl

theorem labelsOf_cons : labelsOf (i :: is) = i.label?.toList ++ labelsOf is := by
  unfold labelsOf
  cases h : i.label? <;> simp [h]

theorem targetsOf_cons : targetsOf (i :: is) = i.target?.toList ++ targetsOf is := by
  unfold targetsOf
  cases h : i.target? <;> simp [h]

end Program

open Program

/-- The code `is` defines labels of the nodes `owners` only, each of them once, and jumps to these
labels or to `exits`. -/
structure Closed (owners : List NodeId) (exits : List Label) (is : List Instruction) : Prop where
  nodup : (labelsOf is).Nodup
  owned : ∀ label ∈ labelsOf is, ∃ id ∈ owners, label.owner? = some id
  targets : ∀ label ∈ targetsOf is, label ∈ labelsOf is ∨ label ∈ exits

namespace Closed

variable {owners owners' : List NodeId} {exits exits' exits'' : List Label}
variable {is js : List Instruction}

/-- **Pieces of code that belong to different nodes may jump into each other.** -/
theorem append (h : Closed owners exits is) (h' : Closed owners' exits' js)
    (hdisjoint : ∀ id ∈ owners, id ∉ owners')
    (hexits : ∀ label ∈ exits, label ∈ labelsOf js ∨ label ∈ exits'')
    (hexits' : ∀ label ∈ exits', label ∈ labelsOf is ∨ label ∈ exits'') :
    Closed (owners ++ owners') exits'' (is ++ js) where
  nodup := by
    rw [labelsOf_append, List.nodup_append]
    refine ⟨h.nodup, h'.nodup, ?_⟩
    rintro label hlabel other hother rfl
    obtain ⟨id, hid, howner⟩ := h.owned label hlabel
    obtain ⟨id', hid', howner'⟩ := h'.owned label hother
    obtain rfl : id = id' := Option.some.inj (howner.symm.trans howner')
    exact hdisjoint id hid hid'
  owned := by
    intro label hlabel
    rw [labelsOf_append, List.mem_append] at hlabel
    rcases hlabel with hlabel | hlabel
    · obtain ⟨id, hid, howner⟩ := h.owned label hlabel
      exact ⟨id, List.mem_append_left _ hid, howner⟩
    · obtain ⟨id, hid, howner⟩ := h'.owned label hlabel
      exact ⟨id, List.mem_append_right _ hid, howner⟩
  targets := by
    intro label hlabel
    rw [targetsOf_append, List.mem_append] at hlabel
    rw [labelsOf_append, List.mem_append]
    rcases hlabel with hlabel | hlabel
    · rcases h.targets label hlabel with hin | hout
      · exact Or.inl (Or.inl hin)
      · exact (hexits label hout).imp_left Or.inr
    · rcases h'.targets label hlabel with hin | hout
      · exact Or.inl (Or.inr hin)
      · exact (hexits' label hout).imp_left Or.inl

end Closed

/-! ## The blocks of nodes -/

section

variable {id : NodeId} {next : Label} {trace : Bool} {comment : String}

@[simp] theorem labelsOf_head (label : Label) : labelsOf (head trace label comment) = [label] := by
  unfold head
  split <;> rfl

@[simp] theorem targetsOf_head (label : Label) : targetsOf (head trace label comment) = [] := by
  unfold head
  split <;> rfl

/-- Code behind the head of the block of a node, of which everything belongs to this node. -/
theorem Closed.of_head {exits : List Label} {is : List Instruction}
    (hnodup : (Label.node id :: labelsOf is).Nodup)
    (howned : ∀ label ∈ labelsOf is, label.owner? = some id)
    (htargets : ∀ label ∈ targetsOf is, label ∈ labelsOf is ∨ label ∈ exits) :
    Closed [id] exits (head trace (.node id) comment ++ is) where
  nodup := by simpa using hnodup
  owned := by
    intro label hlabel
    rw [labelsOf_append, labelsOf_head, List.mem_append, List.mem_singleton] at hlabel
    rcases hlabel with rfl | hlabel
    · exact ⟨id, List.mem_singleton_self id, rfl⟩
    · exact ⟨id, List.mem_singleton_self id, howned label hlabel⟩
  targets := by
    intro label hlabel
    rw [targetsOf_append, targetsOf_head, List.nil_append] at hlabel
    rw [labelsOf_append, List.mem_append]
    exact (htargets label hlabel).imp_left Or.inr

theorem closed_wildcard (q : Quantifier) :
    Closed [id] [next, .fail] (head trace (.node id) comment ++ wildcardBlock id q next) := by
  obtain ⟨min, max, greedy⟩ := q
  unfold wildcardBlock
  split
  · refine .of_head ?_ ?_ ?_ <;>
      simp [wildcardOnce, labelsOf_cons, targetsOf_cons, Instruction.label?, Instruction.target?,
        branchIf]
  · cases max <;> cases greedy <;> by_cases hmin : min = 0 <;>
    refine .of_head ?_ ?_ ?_ <;>
      simp [clip, wildcardGreedy, wildcardLazy, labelsOf_cons, targetsOf_cons, Instruction.label?,
        Instruction.target?, branchIf, place, Label.owner?, hmin]

theorem closed_literal (bytes : List UInt8) (q : Quantifier) :
    Closed [id] [next, .fail] (head trace (.node id) comment ++ literalBlock id bytes q next) := by
  obtain ⟨min, max, greedy⟩ := q
  unfold literalBlock
  split
  · refine .of_head ?_ ?_ ?_ <;>
      simp [literalOnce, labelsOf_cons, targetsOf_cons, Instruction.label?, Instruction.target?,
        unlessLiteral]
  · cases max <;> cases greedy <;> by_cases hmin : min = 0 <;>
    refine .of_head ?_ ?_ ?_ <;>
      simp [literalGreedy, literalLazy, labelsOf_cons, targetsOf_cons, Instruction.label?,
        Instruction.target?, branchIf, unlessLiteral, place, Label.owner?, hmin]

theorem closed_anchor (kind : Anchor) :
    Closed [id] [next, .fail] (head trace (.node id) comment ++ anchorBlock kind next) := by
  cases kind <;> refine .of_head ?_ ?_ ?_ <;>
    simp [anchorBlock, labelsOf_cons, targetsOf_cons, Instruction.label?, Instruction.target?,
      branchIf]

/-- The blocks of a group, without its body. -/
theorem closed_group (body : NodeId) (capturing : Bool) (q : Quantifier) (again : String) :
    Closed [id] [next, .fail, .node body]
      (head trace (.node id) comment ++ entry id capturing ++ head trace (.again id) again ++
        repetition id body capturing q next) := by
  obtain ⟨min, max, greedy⟩ := q
  simp only [List.append_assoc]
  cases capturing <;> cases max <;> cases greedy <;> by_cases hmin : min = 0 <;>
  refine .of_head ?_ ?_ ?_ <;>
    simp [entry, repetition, closeSpan, repeatGreedy, repeatLazy, repeatBody, unwind,
      labelsOf_cons, targetsOf_cons, Instruction.label?, Instruction.target?, branchCount, place,
      Label.owner?, hmin]

end

/-! ## Trees -/

section

variable {trace : Bool} {next : Label}

theorem node_mem_labelsOf (tree : Pattern) :
    .node tree.id ∈ labelsOf (tree.code trace next) := by
  obtain ⟨is, hcode⟩ := tree.code_eq_head trace next
  rw [hcode, labelsOf_append, labelsOf_head]
  simp

/-- The code of a node with two parts is closed if its own code only calls the parts, and the first
part goes on at the second one or where the whole goes on. -/
theorem closed_parts {id : NodeId} {first second : Pattern} {mid : Label} {comment : String}
    {calls : List Instruction} (hnodup : (id :: (first.ids ++ second.ids)).Nodup)
    (hfirst : Closed first.ids [mid, .fail] (first.code trace mid))
    (hsecond : Closed second.ids [next, .fail] (second.code trace next))
    (hlabels : labelsOf calls = [])
    (hcalls : ∀ label ∈ targetsOf calls, label = .node first.id ∨ label = .node second.id)
    (hmid : mid = .node second.id ∨ mid = next) :
    Closed (id :: (first.ids ++ second.ids)) [next, .fail]
      (head trace (.node id) comment ++
        (calls ++ (first.code trace mid ++ second.code trace next))) := by
  rw [List.nodup_cons, List.nodup_append] at hnodup
  obtain ⟨hid, -, -, hdisjoint⟩ := hnodup
  have hown : Closed [id] (targetsOf calls) (head trace (.node id) comment ++ calls) :=
    .of_head (by simp [hlabels]) (by simp [hlabels]) fun label hlabel => Or.inr hlabel
  have hparts : Closed (first.ids ++ second.ids) [next, .fail]
      (first.code trace mid ++ second.code trace next) := by
    refine hfirst.append hsecond (fun i hi hi' => hdisjoint i hi i hi' rfl) ?_
      fun label hlabel => Or.inr hlabel
    intro label hlabel
    rcases List.mem_cons.mp hlabel with rfl | hfail
    · rcases hmid with rfl | rfl
      · exact Or.inl (node_mem_labelsOf second)
      · exact Or.inr List.mem_cons_self
    · exact Or.inr (List.mem_cons_of_mem _ hfail)
  rw [← List.append_assoc]
  refine hown.append hparts ?_ ?_ fun label hlabel => Or.inr hlabel
  · intro i hi
    rw [List.mem_singleton.mp hi]
    exact hid
  · intro label hlabel
    rw [labelsOf_append, List.mem_append]
    rcases hcalls label hlabel with rfl | rfl
    · exact Or.inl (Or.inl (node_mem_labelsOf first))
    · exact Or.inl (Or.inr (node_mem_labelsOf second))

/-- **The code of a tree whose numbers are distinct is closed** but for the label at which it goes
on and the shared place of failure. -/
theorem closed_code {tree : Pattern} (h : tree.ids.Nodup) :
    Closed tree.ids [next, .fail] (tree.code trace next) := by
  induction tree generalizing next with
  | empty id =>
    rw [Pattern.code_empty]
    refine .of_head ?_ ?_ ?_ <;>
      simp [labelsOf_cons, targetsOf_cons, Instruction.label?, Instruction.target?]
  | endMarker id =>
    rw [Pattern.code_endMarker]
    refine .of_head ?_ ?_ ?_ <;>
      simp [labelsOf_cons, targetsOf_cons, Instruction.label?, Instruction.target?]
  | wildcard id q =>
    rw [Pattern.code_wildcard]
    exact closed_wildcard q
  | literal id bytes q =>
    rw [Pattern.code_literal]
    exact closed_literal bytes q
  | concat id first second ihFirst ihSecond =>
    rw [Pattern.ids_concat] at h ⊢
    rw [Pattern.code_concat]
    obtain ⟨hfirst, hsecond, -⟩ := List.nodup_append.mp (List.nodup_cons.mp h).2
    rw [← List.nil_append (first.code trace (.node second.id) ++ second.code trace next)]
    exact closed_parts h (ihFirst hfirst) (ihSecond hsecond) rfl (by simp) (Or.inl rfl)
  | alternation id first second ihFirst ihSecond =>
    rw [Pattern.ids_alternation] at h ⊢
    rw [Pattern.code_alternation]
    obtain ⟨hfirst, hsecond, -⟩ := List.nodup_append.mp (List.nodup_cons.mp h).2
    refine closed_parts h (ihFirst hfirst) (ihSecond hsecond) rfl ?_ (Or.inr rfl)
    simp [targetsOf_cons, Instruction.target?]
  | group id body capture q ih =>
    rw [Pattern.ids_group] at h ⊢
    obtain ⟨hid, hbody⟩ := List.nodup_cons.mp h
    have hdisjoint : ∀ i ∈ [id], i ∉ body.ids := by simpa using hid
    cases ht : Pattern.isTransparent capture q with
    | true =>
      rw [Pattern.code_group_transparent _ _ _ _ _ _ ht]
      have hown : Closed [id] [] (head trace (.node id)
          (blockComment (.group id body capture q)) ++ []) :=
        .of_head (by simp) (by simp) (by simp)
      rw [List.append_nil] at hown
      exact hown.append (ih hbody) hdisjoint (by simp) fun label hlabel => Or.inr hlabel
    | false =>
      rw [Pattern.code_group _ _ _ _ _ _ ht]
      simp only [← List.append_assoc]
      refine (closed_group body.id capture.isSome q _).append (ih hbody) hdisjoint ?_ ?_
      · simp [node_mem_labelsOf]
      · simp
  | anchor id kind =>
    rw [Pattern.code_anchor]
    exact closed_anchor kind

end

/-! ## Programs -/

/-- **The code of a whole program defines every label once, and all that it jumps to.** -/
theorem closed_program {root : Pattern} (trace : Bool) (h : root.ids.Nodup) :
    (labelsOf (Compilation.opening trace root.id ++ root.code trace .fail ++
      [.block .fail none, .ret])).Nodup ∧
    ∀ label ∈ targetsOf (Compilation.opening trace root.id ++ root.code trace .fail ++
        [.block .fail none, .ret]),
      label ∈ labelsOf (Compilation.opening trace root.id ++ root.code trace .fail ++
        [.block .fail none, .ret]) := by
  have hcode : Closed root.ids [.fail, .fail] (root.code trace .fail) := closed_code h
  have hopening : labelsOf (Compilation.opening trace root.id) = [.search, .failForever] := by
    simp [Compilation.opening, labelsOf_cons, Instruction.label?]
  have hshared : ∀ label ∈ labelsOf (root.code trace .fail), label ≠ .search ∧
      label ≠ .failForever ∧ label ≠ .fail := by
    intro label hlabel
    obtain ⟨id, -, howner⟩ := hcode.owned label hlabel
    refine ⟨?_, ?_, ?_⟩ <;> rintro rfl <;> cases howner
  have hroot : Label.node root.id ∈ labelsOf (root.code trace .fail) := node_mem_labelsOf root
  refine ⟨?_, ?_⟩
  · rw [labelsOf_append, labelsOf_append, hopening, List.nodup_append, List.nodup_append]
    refine ⟨⟨by simp, hcode.nodup, ?_⟩, by simp [labelsOf_cons, Instruction.label?], ?_⟩
    · rintro label hlabel other hother rfl
      have := hshared label hother
      simp_all
    · rintro label hlabel other hother rfl
      have := hshared label
      simp_all [labelsOf_cons, Instruction.label?]
  · intro label hlabel
    simp only [labelsOf_append, targetsOf_append, List.mem_append] at hlabel ⊢
    rcases hlabel with (hlabel | hlabel) | hlabel
    · simp [Compilation.opening, targetsOf_cons, Instruction.target?] at hlabel
      rcases hlabel with rfl | rfl
      · exact Or.inl (Or.inr hroot)
      · exact Or.inl (Or.inl (by simp [hopening]))
    · rcases hcode.targets label hlabel with hin | hout
      · exact Or.inl (Or.inr hin)
      · obtain rfl : label = .fail := by simpa using hout
        exact Or.inr (by simp [labelsOf_cons, Instruction.label?])
    · cases hlabel

/-- **A well-formed tree is compiled if there are numbers left for the nodes around it.** -/
theorem compile_isOk_of_wellFormed {tree root : Pattern} {options : CompileOptions}
    (h : tree.WellFormed options.maxLiteral) (hroot : tree.wrapped? = some root) :
    ∃ program, compile tree options = .ok program := by
  obtain ⟨hnodup, htargets⟩ := closed_program options.trace (h.wrapped hroot).nodup
  exact compile_isOk options root (Pattern.firstFault?_eq_none_iff.mpr h) hroot rfl hnodup htargets

/-- A well-formed tree is accepted if the nodes around it get numbers. -/
theorem compile_isOk_of_isSome {tree : Pattern} {options : CompileOptions}
    (h : tree.WellFormed options.maxLiteral) (hroot : tree.wrapped?.isSome = true) :
    ∃ program, compile tree options = .ok program := by
  obtain ⟨root, hroot⟩ := Option.isSome_iff_exists.mp hroot
  exact compile_isOk_of_wellFormed h hroot

end PatternMachine
