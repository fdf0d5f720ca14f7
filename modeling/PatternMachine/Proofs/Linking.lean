import PatternMachine.Compilation.Compile

/-!
# Where the code of a pattern stands

* `Program.HasAt` — a list of instructions stands in a program from an index on.
* `Program.Linked` — every label is resolved to the block that defines it.
* `Pattern.code` — the instructions of a tree, without the rest of its listing.
* `Compiled` — what is known of the program that `compile` makes.

Principal results: `linked_of_link`, `block_of_link` — linking resolves labels to their blocks, and
nothing else.  `link_isOk` — code that defines every label once, and all that it jumps to, is
linked.  `compiled_of_compile` — the code of a compiled pattern is that of its wrapped tree between
the opening and the shared failure.  `compile_isOk` — a tree is compiled if its code can be linked.
-/

set_option autoImplicit false

namespace PatternMachine

/-! ## Code in a program -/

namespace Program

/-- The instructions `is` stand in the program from index `a` on. -/
def HasAt (program : Program) (a : Nat) (is : List Instruction) : Prop :=
  ∀ i, i < is.length → program.code[a + i]? = is[i]?

variable {program : Program} {a : Nat} {i : Instruction} {is js : List Instruction}

theorem HasAt.head (h : program.HasAt a (i :: is)) : program.code[a]? = some i := by
  simpa using h 0 (by simp)

theorem HasAt.tail (h : program.HasAt a (i :: is)) : program.HasAt (a + 1) is := by
  intro j hj
  have := h (j + 1) (by simpa using hj)
  rw [show a + 1 + j = a + (j + 1) by omega, this]
  simp

theorem HasAt.left (h : program.HasAt a (is ++ js)) : program.HasAt a is := by
  intro j hj
  rw [h j (by simp; omega), List.getElem?_append_left hj]

theorem HasAt.right (h : program.HasAt a (is ++ js)) : program.HasAt (a + is.length) js := by
  intro j hj
  rw [show a + is.length + j = a + (is.length + j) by omega,
    h (is.length + j) (by simp; omega), List.getElem?_append_right (by omega)]
  simp

theorem hasAt_of_code {pre post : List Instruction}
    (h : program.code.toList = pre ++ is ++ post) : program.HasAt pre.length is := by
  intro j hj
  rw [← Array.getElem?_toList, h, List.append_assoc, List.getElem?_append_right (by omega),
    List.getElem?_append_left (by omega)]
  simp

/-- Every label is resolved to the block that defines it. -/
def Linked (program : Program) : Prop :=
  ∀ a label comment, program.code[a]? = some (.block label comment) →
    program.resolve? label = some a

theorem Linked.resolve {label : Label} {comment : Option String} (hl : program.Linked)
    (h : program.HasAt a (.block label comment :: is)) : program.resolve? label = some a :=
  hl a label comment h.head

/-! ## Linking -/

/-- A table that is made keeps what it held, and holds the place of every block. -/
theorem getElem?_of_tabulate {index : Nat} {table table' : Std.HashMap Label Nat}
    {code : List Instruction} (h : tabulate index table code = .ok table') :
    (∀ (label : Label) (a : Nat), table[label]? = some a → table'[label]? = some a) ∧
      ∀ (i : Nat) (label : Label) (comment : Option String),
        code[i]? = some (.block label comment) → table'[label]? = some (index + i) := by
  induction code generalizing index table with
  | nil =>
    simp only [tabulate, Except.ok.injEq] at h
    subst h
    exact ⟨fun _ _ h => h, by simp⟩
  | cons x xs ih =>
    rw [tabulate] at h
    split at h
    · rename_i hx
      obtain ⟨hkeep, hblock⟩ := ih h
      refine ⟨hkeep, ?_⟩
      intro i label comment hi
      cases i with
      | zero =>
        simp only [List.getElem?_cons_zero, Option.some.injEq] at hi
        simp [hi, Instruction.label?] at hx
      | succ i =>
        rw [show index + (i + 1) = index + 1 + i by omega]
        exact hblock i label comment (by simpa using hi)
    · rename_i label hx
      split at h
      · cases h
      · rename_i hnew
        obtain ⟨hkeep, hblock⟩ := ih h
        refine ⟨?_, ?_⟩
        · intro other a ha
          apply hkeep
          rw [Std.HashMap.getElem?_insert]
          split
          · rename_i heq
            rw [beq_iff_eq] at heq
            subst heq
            exact absurd (Std.HashMap.mem_iff_contains.mp
              (Std.HashMap.mem_iff_isSome_getElem?.mpr (by simp [ha]))) hnew
          · exact ha
        · intro i other comment hi
          cases i with
          | zero =>
            simp only [List.getElem?_cons_zero, Option.some.injEq] at hi
            subst hi
            simp only [Instruction.label?, Option.some.injEq] at hx
            subst hx
            exact hkeep _ _ (by simp)
          | succ i =>
            rw [show index + (i + 1) = index + 1 + i by omega]
            exact hblock i other comment (by simpa using hi)

/-- **Linking resolves every label to the block that defines it.** -/
theorem linked_of_link {code : List Instruction} {captures : List CaptureSlot} {text : String}
    (h : link code captures text = .ok program) :
    program.code.toList = code ∧ program.captures = captures ∧ program.Linked := by
  unfold link at h
  split at h
  · cases h
  · rename_i labels htable
    split at h
    · cases h
    · simp only [Except.ok.injEq] at h
      subst h
      refine ⟨rfl, rfl, ?_⟩
      intro a label comment ha
      have := (getElem?_of_tabulate htable).2 a label comment (by simpa using ha)
      simpa [resolve?] using this

/-- A table that is made holds what it held, and the places of blocks, and nothing else. -/
theorem block_of_tabulate {index a : Nat} {table table' : Std.HashMap Label Nat} {label : Label}
    {code : List Instruction} (h : tabulate index table code = .ok table')
    (hlabel : table'[label]? = some a) :
    table[label]? = some a ∨
      ∃ i comment, a = index + i ∧ code[i]? = some (.block label comment) := by
  induction code generalizing index table with
  | nil =>
    simp only [tabulate, Except.ok.injEq] at h
    subst h
    exact Or.inl hlabel
  | cons x xs ih =>
    have hlater : (∃ i comment, a = index + 1 + i ∧ xs[i]? = some (.block label comment)) →
        ∃ i comment, a = index + i ∧ (x :: xs)[i]? = some (.block label comment) := by
      rintro ⟨i, comment, rfl, hi⟩
      exact ⟨i + 1, comment, by omega, by simpa using hi⟩
    rw [tabulate] at h
    split at h
    · exact (ih h).imp_right hlater
    · rename_i other hx
      split at h
      · cases h
      · rcases ih h with hnew | hblock
        · rw [Std.HashMap.getElem?_insert] at hnew
          split at hnew
          · rename_i heq
            rw [beq_iff_eq] at heq
            subst heq
            cases hnew
            cases x with
            | block defined comment =>
              cases hx
              exact Or.inr ⟨0, comment, rfl, rfl⟩
            | _ => cases hx
          · exact Or.inl hnew
        · exact Or.inr (hlater hblock)

/-- **Linking resolves only labels of blocks.** -/
theorem block_of_link {code : List Instruction} {captures : List CaptureSlot} {text : String}
    {label : Label} (h : link code captures text = .ok program)
    (hlabel : program.resolve? label = some a) :
    ∃ comment, program.code[a]? = some (.block label comment) := by
  unfold link at h
  split at h
  · cases h
  · rename_i labels htable
    split at h
    · cases h
    · simp only [Except.ok.injEq] at h
      subst h
      rcases block_of_tabulate htable hlabel with hempty | ⟨i, comment, rfl, hi⟩
      · simp at hempty
      · exact ⟨comment, by simpa using hi⟩

/-- The labels that a list of instructions defines, in order. -/
def labelsOf (code : List Instruction) : List Label := code.filterMap Instruction.label?

theorem tabulate_isOk {index : Nat} {table : Std.HashMap Label Nat} {code : List Instruction}
    (hnodup : (labelsOf code).Nodup) (hnew : ∀ label ∈ labelsOf code, label ∉ table) :
    ∃ table', tabulate index table code = .ok table' ∧
      ∀ label, label ∈ table' ↔ label ∈ table ∨ label ∈ labelsOf code := by
  induction code generalizing index table with
  | nil => exact ⟨table, rfl, by simp [labelsOf]⟩
  | cons x xs ih =>
    rw [tabulate]
    split
    · rename_i hx
      have hxs : labelsOf (x :: xs) = labelsOf xs := by simp [labelsOf, hx]
      rw [hxs] at hnodup hnew ⊢
      exact ih hnodup hnew
    · rename_i label hx
      have hxs : labelsOf (x :: xs) = label :: labelsOf xs := by simp [labelsOf, hx]
      rw [hxs] at hnodup hnew ⊢
      rw [List.nodup_cons] at hnodup
      have hlabel : table.contains label = false := by
        rw [← Bool.not_eq_true, ← Std.HashMap.mem_iff_contains]
        exact hnew label (by simp)
      obtain ⟨table', htable, hmem⟩ := @ih (index + 1) (table.insert label index)
        hnodup.2 (fun other ho => by
          rw [Std.HashMap.mem_insert]
          rintro (heq | hin)
          · rw [beq_iff_eq] at heq
            subst heq
            exact hnodup.1 ho
          · exact hnew other (by simp [ho]) hin)
      refine ⟨table', by simpa [hlabel] using htable, fun other => ?_⟩
      rw [hmem, Std.HashMap.mem_insert, beq_iff_eq, List.mem_cons]
      constructor
      · rintro ((h | h) | h)
        · exact Or.inr (Or.inl h.symm)
        · exact Or.inl h
        · exact Or.inr (Or.inr h)
      · rintro (h | h | h)
        · exact Or.inl (Or.inr h)
        · exact Or.inl (Or.inl h.symm)
        · exact Or.inr h

/-- **Code that defines every label once, and all that it jumps to, is linked.** -/
theorem link_isOk {code : List Instruction} (captures : List CaptureSlot) (text : String)
    (hnodup : (labelsOf code).Nodup)
    (htargets : ∀ label ∈ code.filterMap Instruction.target?, label ∈ labelsOf code) :
    ∃ program, link code captures text = .ok program := by
  obtain ⟨table, htable, hmem⟩ := @tabulate_isOk 0 ∅ code hnodup (by simp)
  have hnone : firstUndefined? table code = none := by
    unfold firstUndefined?
    rw [List.find?_eq_none]
    intro label hlabel
    have : label ∈ table := (hmem label).mpr (Or.inr (htargets label hlabel))
    simpa [← Std.HashMap.mem_iff_contains] using this
  exact ⟨⟨code.toArray, table, captures, text⟩, by simp [link, htable, hnone]⟩

end Program

/-! ## The code of a tree -/

namespace Pattern

open Lowering

/-- The instructions of a tree that goes on at `next`. -/
def code (trace : Bool) (tree : Pattern) (next : Label) : List Instruction :=
  (tree.lower trace next).filterMap Directive.instruction?

theorem filterMap_directives (is : List Instruction) :
    (directives is).filterMap Directive.instruction? = is := by
  induction is with
  | nil => rfl
  | cons i is ih =>
    rw [show directives (i :: is) = .instruction i :: directives is from rfl]
    simp [Directive.instruction?, ih]

/-- The head of a block, as an instruction list and without the place for a marker. -/
theorem filterMap_mark (is : List Instruction) :
    (Directive.mark :: directives is).filterMap Directive.instruction? = is := by
  rw [List.filterMap_cons_none rfl, filterMap_directives]

variable (trace : Bool) (next : Label)

theorem code_empty (id : NodeId) :
    (Pattern.empty id).code trace next =
      head trace (.node id) (blockComment (.empty id)) ++ [.goto next] := by
  simp only [code, lower, List.filterMap_append, filterMap_mark, filterMap_directives, Pattern.id]

theorem code_endMarker (id : NodeId) :
    (Pattern.endMarker id).code trace next =
      head trace (.node id) (blockComment (.endMarker id)) ++ [.yield, .goto .fail] := by
  simp only [code, lower, List.filterMap_append, filterMap_mark, filterMap_directives, Pattern.id]

theorem code_wildcard (id : NodeId) (q : Quantifier) :
    (Pattern.wildcard id q).code trace next =
      head trace (.node id) (blockComment (.wildcard id q)) ++ wildcardBlock id q next := by
  simp only [code, lower, List.filterMap_append, filterMap_mark, filterMap_directives, Pattern.id]

theorem code_literal (id : NodeId) (bytes : List UInt8) (q : Quantifier) :
    (Pattern.literal id bytes q).code trace next =
      head trace (.node id) (blockComment (.literal id bytes q)) ++
        literalBlock id bytes q next := by
  simp only [code, lower, List.filterMap_append, filterMap_mark, filterMap_directives, Pattern.id]

theorem code_concat (id : NodeId) (a b : Pattern) :
    (Pattern.concat id a b).code trace next =
      head trace (.node id) (blockComment (.concat id a b)) ++
        (a.code trace (.node b.id) ++ b.code trace next) := by
  simp only [code, lower, List.filterMap_append, filterMap_mark, Pattern.id, List.append_assoc]

theorem code_alternation (id : NodeId) (a b : Pattern) :
    (Pattern.alternation id a b).code trace next =
      head trace (.node id) (blockComment (.alternation id a b)) ++
        ([.call (.node a.id), .goto (.node b.id)] ++
          (a.code trace next ++ b.code trace next)) := by
  simp only [code, lower, List.filterMap_append, filterMap_mark, filterMap_directives, Pattern.id,
    List.append_assoc]

theorem code_group_transparent (id : NodeId) (body : Pattern) (capture : Option UInt32)
    (q : Quantifier) (h : isTransparent capture q = true) :
    (Pattern.group id body capture q).code trace next =
      head trace (.node id) (blockComment (.group id body capture q)) ++ body.code trace next := by
  simp only [code, lower, h, if_true, List.filterMap_append, filterMap_mark, Pattern.id]

theorem code_group (id : NodeId) (body : Pattern) (capture : Option UInt32) (q : Quantifier)
    (h : isTransparent capture q = false) :
    (Pattern.group id body capture q).code trace next =
      head trace (.node id) (blockComment (.group id body capture q)) ++
        (entry id capture.isSome ++
          (head trace (.again id) ("repeat " ++ nodeText id) ++
            (repetition id body.id capture.isSome q next ++ body.code trace (.again id)))) := by
  simp only [code, lower, h, Bool.false_eq_true, if_false, List.filterMap_append, filterMap_mark,
    filterMap_directives, Pattern.id, List.append_assoc]

theorem code_anchor (id : NodeId) (kind : Anchor) :
    (Pattern.anchor id kind).code trace next =
      head trace (.node id) (blockComment (.anchor id kind)) ++ anchorBlock kind next := by
  simp only [code, lower, List.filterMap_append, filterMap_mark, filterMap_directives, Pattern.id]

/-- The code of every tree begins with the block of its topmost node. -/
theorem code_eq_head (tree : Pattern) :
    ∃ is, tree.code trace next = head trace (.node tree.id) (blockComment tree) ++ is := by
  cases tree with
  | empty id => exact ⟨_, code_empty ..⟩
  | endMarker id => exact ⟨_, code_endMarker ..⟩
  | wildcard id q => exact ⟨_, code_wildcard ..⟩
  | literal id bytes q => exact ⟨_, code_literal ..⟩
  | concat id first second => exact ⟨_, code_concat ..⟩
  | alternation id first second => exact ⟨_, code_alternation ..⟩
  | group id body capture q =>
    cases ht : isTransparent capture q with
    | true => exact ⟨_, code_group_transparent _ _ _ _ _ _ ht⟩
    | false => exact ⟨_, code_group _ _ _ _ _ _ ht⟩
  | anchor id kind => exact ⟨_, code_anchor ..⟩

end Pattern

/-! ## Compiled patterns -/

/-- What is known of the program of a tree that is wrapped as `root`: its code is that of `root`
between the opening and the shared place of failure, and its labels are resolved. -/
structure Compiled (tree root : Pattern) (trace : Bool) (program : Program) : Prop where
  wrapped : tree.wrapped? = some root
  code : program.code.toList = Compilation.opening trace root.id ++ root.code trace .fail ++
    [.block .fail none, .ret]
  captures : program.captures = Compilation.captureTable root
  linked : program.Linked

/-- The code of the assembled listing of a wrapped tree. -/
theorem code_assembly (options : CompileOptions) (root : Pattern) :
    (Compilation.assembly options root).code =
      Compilation.opening options.trace root.id ++ root.code options.trace .fail ++
        [.block .fail none, .ret] := by
  have hheader :
      (Compilation.header.map Directive.comment).filterMap Directive.instruction? = [] := by
    rw [List.filterMap_eq_nil_iff]
    intro d hd
    obtain ⟨text, _, rfl⟩ := List.mem_map.mp hd
    rfl
  have htake : (Compilation.assembly options root).code =
      ((Listing.new options.lineMarkers).writeAll
        (Compilation.directives options.trace root)).code := rfl
  rw [htake, Listing.code_writeAll]
  simp only [Compilation.directives, List.filterMap_append, hheader, Pattern.filterMap_directives,
    Pattern.code]
  simp [Listing.new, Listing.code, Directive.instruction?]

/-- **A compiled pattern has no fault, and its program is that of its wrapped tree.** -/
theorem compiled_of_compile {tree : Pattern} {options : CompileOptions} {program : Program}
    (h : compile tree options = .ok program) :
    tree.firstFault? options.maxLiteral = none ∧
      ∃ root, Compiled tree root options.trace program := by
  unfold compile at h
  split at h
  · cases h
  · rename_i hfault
    split at h
    · cases h
    · rename_i root hroot
      dsimp only at h
      split at h
      · cases h
      · rename_i linked hlink
        cases h
        obtain ⟨hcode, hcaptures, hlinked⟩ := Program.linked_of_link hlink
        exact ⟨hfault, root, hroot, by rw [hcode, code_assembly], hcaptures, hlinked⟩

/-- A compiled program resolves only labels of blocks. -/
theorem block_of_compile {tree : Pattern} {options : CompileOptions} {program : Program}
    {label : Label} {a : Nat} (h : compile tree options = .ok program)
    (hlabel : program.resolve? label = some a) :
    ∃ comment, program.code[a]? = some (.block label comment) := by
  unfold compile at h
  split at h
  · cases h
  · split at h
    · cases h
    · dsimp only at h
      split at h
      · cases h
      · rename_i hlink
        cases h
        exact Program.block_of_link hlink hlabel

/-- **A tree without a fault is compiled** if there are numbers left for the nodes around it, and
the code of the wrapped tree defines every label once, and all that it jumps to. -/
theorem compile_isOk {tree : Pattern} {code : List Instruction} (options : CompileOptions)
    (root : Pattern)
    (hfault : tree.firstFault? options.maxLiteral = none) (hroot : tree.wrapped? = some root)
    (hcode : code = Compilation.opening options.trace root.id ++ root.code options.trace .fail ++
      [.block .fail none, .ret])
    (hnodup : (Program.labelsOf code).Nodup)
    (htargets : ∀ label ∈ code.filterMap Instruction.target?, label ∈ Program.labelsOf code) :
    ∃ program, compile tree options = .ok program := by
  rw [hcode, ← code_assembly] at hnodup htargets
  obtain ⟨program, hlink⟩ := Program.link_isOk (Compilation.captureTable root)
    (Compilation.assembly options root).text hnodup htargets
  exact ⟨program, by simp [compile, hfault, hroot, hlink]⟩

end PatternMachine
