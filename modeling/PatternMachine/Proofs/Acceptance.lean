import PatternMachine.Proofs.Labels

/-!
# Which trees are compiled

* `Pattern.Acceptable` — what a tree must fulfil, said of its nodes.
* `Violates` — a node violates one of the checks, when some numbers have been met before it;
  `Fault.rank` — the order of the checks of one node.
* `Passes`, `FirstViolation` — the nodes of a list violate no check; the first violation among them.

Principal results: `acceptable_iff` — acceptable trees are the well-formed ones around which there
are numbers left.  `firstFaultOf?_eq_some_iff` — checking finds the first violation.
`compile_outcome` — a tree is compiled exactly if it is acceptable, otherwise the error says what
was met first, and code that cannot be linked is never made.
-/

set_option autoImplicit false

namespace PatternMachine

namespace Pattern

/-- What a tree must fulfil to be compiled, when literals may have `limit` bytes. -/
structure Acceptable (limit : Nat) (tree : Pattern) : Prop where
  /-- No number is used twice. -/
  distinct : tree.ids.Nodup
  /-- Literals have bytes, and not too many. -/
  literals : ∀ id bytes q, .literal id bytes q ∈ tree.nodes →
    bytes ≠ [] ∧ bytes.length ≤ limit
  /-- No minimum exceeds a maximum. -/
  bounds : ∀ n ∈ tree.nodes, ∀ q, n.quantifier? = some q →
    ∀ max, q.max = .finite max → q.min ≤ max
  /-- Only what consumes a byte is repeated without a maximum. -/
  repetitions : ∀ id body capture q, .group id body capture q ∈ tree.nodes →
    q.max = .unbounded → body.matchesEmpty = false
  /-- The nodes around the tree can be numbered. -/
  room : tree.maxId.toNat + (if tree.startAnchored then 3 else 5) < 2 ^ 32

end Pattern

/-- A node violates a check, when the numbers `met` have been met before it. -/
inductive Violates (limit : Nat) (met : List NodeId) : Pattern → Fault → Prop
  | duplicateId {n : Pattern} (h : n.id ∈ met) : Violates limit met n (.duplicateId n.id)
  | emptyLiteral {id : NodeId} {q : Quantifier} :
      Violates limit met (.literal id [] q) (.emptyLiteral id)
  | literalTooLong {id : NodeId} {bytes : List UInt8} {q : Quantifier}
      (h : limit < bytes.length) :
      Violates limit met (.literal id bytes q) (.literalTooLong id bytes.length limit)
  | emptyRepetition {id : NodeId} {body : Pattern} {capture : Option UInt32} {q : Quantifier}
      (hmax : q.max = .unbounded) (hempty : body.matchesEmpty = true) :
      Violates limit met (.group id body capture q) (.emptyRepetition id)
  | invertedBounds {n : Pattern} {q : Quantifier} {max : UInt32} (hq : n.quantifier? = some q)
      (hmax : q.max = .finite max) (h : max < q.min) :
      Violates limit met n (.invertedBounds n.id q.min max)

/-- The order in which the checks of one node are made. -/
def Fault.rank : Fault → Nat
  | .duplicateId _ => 0
  | .emptyLiteral _ => 1
  | .literalTooLong _ _ _ => 2
  | .emptyRepetition _ => 3
  | .invertedBounds _ _ _ => 4

/-- The first check that a node violates. -/
def FirstViolated (limit : Nat) (met : List NodeId) (n : Pattern) (fault : Fault) : Prop :=
  Violates limit met n fault ∧ ∀ other, Violates limit met n other → fault.rank ≤ other.rank

/-- No node of a list violates a check, when the numbers `met` have been met before the list. -/
def Passes (limit : Nat) (met : List NodeId) (ns : List Pattern) : Prop :=
  ∀ before n after, ns = before ++ n :: after →
    ∀ fault, ¬ Violates limit (met ++ before.map Pattern.id) n fault

/-- The first violation in a list of nodes, when the numbers `met` have been met before it. -/
def FirstViolation (limit : Nat) (met : List NodeId) (ns : List Pattern) (fault : Fault) : Prop :=
  ∃ before n after, ns = before ++ n :: after ∧ Passes limit met before ∧
    FirstViolated limit (met ++ before.map Pattern.id) n fault

variable {limit : Nat} {met : List NodeId} {n : Pattern} {ns : List Pattern} {fault : Fault}

/-! ## One node -/

theorem Quantifier.fault?_eq_some_iff {id : NodeId} {q : Quantifier} :
    q.fault? id = some fault ↔
      ∃ max, q.max = .finite max ∧ max < q.min ∧ fault = .invertedBounds id q.min max := by
  unfold Quantifier.fault?
  cases hmax : q.max with
  | unbounded => simp
  | finite max => simp [eq_comm]

theorem Quantifier.fault?_eq_none_iff {id : NodeId} {q : Quantifier} :
    q.fault? id = none ↔ ∀ max, q.max = .finite max → q.min ≤ max := by
  unfold Quantifier.fault?
  cases hmax : q.max with
  | unbounded => simp
  | finite max => simp [UInt32.not_lt]

/-- A node violates every check at most in one way. -/
theorem Violates.eq_of_rank {other : Fault} (h : Violates limit met n fault)
    (h' : Violates limit met n other) (hrank : fault.rank = other.rank) : fault = other := by
  cases h <;> cases h' <;> simp_all [Fault.rank, Pattern.quantifier?]

/-- There is one first violation. -/
theorem FirstViolated.eq {other : Fault} (h : FirstViolated limit met n fault)
    (h' : FirstViolated limit met n other) : fault = other :=
  h.1.eq_of_rank h'.1 (Nat.le_antisymm (h.2 other h'.1) (h'.2 fault h.1))

/-- Checking one node finds the first check that it violates. -/
theorem firstViolated_of_faultAt? (hnew : n.id ∉ met) (h : n.faultAt? limit = some fault) :
    FirstViolated limit met n fault := by
  have hbounds : ∀ q, n.quantifier? = some q → q.fault? n.id = some fault →
      Violates limit met n fault := by
    intro q hq hfault
    obtain ⟨max, hmax, hlt, rfl⟩ := Quantifier.fault?_eq_some_iff.mp hfault
    exact .invertedBounds hq hmax hlt
  cases n with
  | wildcard id q =>
    refine ⟨hbounds q rfl h, fun other hother => ?_⟩
    obtain ⟨max, -, -, rfl⟩ := Quantifier.fault?_eq_some_iff.mp h
    cases hother with
    | duplicateId hmet => exact absurd hmet hnew
    | invertedBounds => exact Nat.le_refl _
  | literal id bytes q =>
    simp only [Pattern.faultAt?] at h
    split at h
    · rename_i hempty
      cases h
      obtain rfl : bytes = [] := List.isEmpty_iff.mp hempty
      refine ⟨.emptyLiteral, fun other hother => ?_⟩
      cases hother with
      | duplicateId hmet => exact absurd hmet hnew
      | _ => simp [Fault.rank]
    · rename_i hempty
      split at h
      · rename_i hlength
        cases h
        refine ⟨.literalTooLong hlength, fun other hother => ?_⟩
        cases hother with
        | duplicateId hmet => exact absurd hmet hnew
        | emptyLiteral => simp at hempty
        | _ => simp [Fault.rank]
      · rename_i hlength
        refine ⟨hbounds q rfl h, fun other hother => ?_⟩
        obtain ⟨max, -, -, rfl⟩ := Quantifier.fault?_eq_some_iff.mp h
        cases hother with
        | duplicateId hmet => exact absurd hmet hnew
        | emptyLiteral => simp at hempty
        | literalTooLong hlong => exact absurd hlong hlength
        | invertedBounds => exact Nat.le_refl _
  | group id body capture q =>
    simp only [Pattern.faultAt?] at h
    split at h
    · rename_i hempty
      cases h
      refine ⟨.emptyRepetition hempty.1 hempty.2, fun other hother => ?_⟩
      cases hother with
      | duplicateId hmet => exact absurd hmet hnew
      | _ => simp [Fault.rank]
    · rename_i hempty
      refine ⟨hbounds q rfl h, fun other hother => ?_⟩
      obtain ⟨max, -, -, rfl⟩ := Quantifier.fault?_eq_some_iff.mp h
      cases hother with
      | duplicateId hmet => exact absurd hmet hnew
      | emptyRepetition hmax hbody => exact absurd ⟨hmax, hbody⟩ hempty
      | invertedBounds => exact Nat.le_refl _
  | _ => cases h

/-- What violates a check beside the one on its number has a fault. -/
theorem faultAt?_ne_none (hnew : n.id ∉ met) (h : Violates limit met n fault) :
    n.faultAt? limit ≠ none := by
  intro hnone
  cases h with
  | duplicateId hmet => exact hnew hmet
  | emptyLiteral => simp [Pattern.faultAt?] at hnone
  | @literalTooLong id bytes q hlength =>
    have hbytes : bytes ≠ [] := by
      rintro rfl
      exact Nat.not_lt_zero _ hlength
    simp [Pattern.faultAt?, hbytes, hlength] at hnone
  | emptyRepetition hmax hempty => simp [Pattern.faultAt?, hmax, hempty] at hnone
  | @invertedBounds _ q max hq hmax hlt =>
    have hfault : ∀ id, q.fault? id ≠ none := by
      intro id hid
      exact absurd (Quantifier.fault?_eq_none_iff.mp hid max hmax) (UInt32.not_le.mpr hlt)
    cases n with
    | wildcard id r =>
      cases hq
      exact hfault id hnone
    | literal id bytes r =>
      cases hq
      simp only [Pattern.faultAt?] at hnone
      split at hnone
      · cases hnone
      · split at hnone
        · cases hnone
        · exact hfault id hnone
    | group id body capture r =>
      cases hq
      simp only [Pattern.faultAt?] at hnone
      split at hnone
      · cases hnone
      · exact hfault id hnone
    | _ => cases hq

/-- **A node has no fault exactly if it violates no check but perhaps the one on its number.** -/
theorem faultAt?_eq_none_iff (hnew : n.id ∉ met) :
    n.faultAt? limit = none ↔ ∀ fault, ¬ Violates limit met n fault := by
  constructor
  · intro hnone fault h
    exact faultAt?_ne_none hnew h hnone
  · intro h
    cases hfault : n.faultAt? limit with
    | none => rfl
    | some fault => exact absurd (firstViolated_of_faultAt? hnew hfault).1 (h fault)

/-- **The fault of a node is the first check that it violates.** -/
theorem faultAt?_eq_some_iff (hnew : n.id ∉ met) :
    n.faultAt? limit = some fault ↔ FirstViolated limit met n fault := by
  constructor
  · exact firstViolated_of_faultAt? hnew
  · intro h
    cases hfault : n.faultAt? limit with
    | none => exact absurd hfault (faultAt?_ne_none hnew h.1)
    | some other => rw [(firstViolated_of_faultAt? hnew hfault).eq h]

/-! ## Lists of nodes -/

theorem passes_nil : Passes limit met [] := by
  intro before n after heq
  simp at heq

theorem passes_cons :
    Passes limit met (n :: ns) ↔
      (∀ fault, ¬ Violates limit met n fault) ∧ Passes limit (met ++ [n.id]) ns := by
  constructor
  · intro h
    refine ⟨fun fault => ?_, fun before m after heq fault => ?_⟩
    · simpa using h [] n ns rfl fault
    · simpa using h (n :: before) m after (by simp [heq]) fault
  · rintro ⟨hn, hns⟩ before m after heq fault
    cases before with
    | nil =>
      obtain ⟨rfl, -⟩ := List.cons.inj heq
      simpa using hn fault
    | cons b before =>
      obtain ⟨rfl, htail⟩ := List.cons.inj heq
      simpa using hns before m after htail fault

theorem firstViolation_nil : ¬ FirstViolation limit met [] fault := by
  rintro ⟨before, n, after, heq, -⟩
  simp at heq

/-- The first violation is that of the first node, or, if it violates no check, the first one
behind it. -/
theorem firstViolation_cons :
    FirstViolation limit met (n :: ns) fault ↔
      FirstViolated limit met n fault ∨
        (∀ fault, ¬ Violates limit met n fault) ∧
          FirstViolation limit (met ++ [n.id]) ns fault := by
  constructor
  · rintro ⟨before, m, after, heq, hbefore, hm⟩
    cases before with
    | nil =>
      obtain ⟨rfl, -⟩ := List.cons.inj heq
      exact Or.inl (by simpa using hm)
    | cons b before =>
      obtain ⟨rfl, htail⟩ := List.cons.inj heq
      rw [passes_cons] at hbefore
      exact Or.inr ⟨hbefore.1, before, m, after, htail, hbefore.2, by simpa using hm⟩
  · rintro (h | ⟨hn, before, m, after, rfl, hbefore, hm⟩)
    · exact ⟨[], n, ns, rfl, passes_nil, by simpa using h⟩
    · exact ⟨n :: before, m, after, rfl, passes_cons.mpr ⟨hn, hbefore⟩, by simpa using hm⟩

theorem mem_insert_iff {seen : Std.HashSet NodeId} (hseen : ∀ id, id ∈ seen ↔ id ∈ met)
    (new id : NodeId) : id ∈ seen.insert new ↔ id ∈ met ++ [new] := by
  rw [Std.HashSet.mem_insert, hseen, List.mem_append, List.mem_singleton, beq_iff_eq, or_comm,
    eq_comm]

/-- Checking goes on behind a node that has no fault. -/
theorem firstFaultOf?_cons {seen : Std.HashSet NodeId} (hseen : ∀ id, id ∈ seen ↔ id ∈ met) :
    Pattern.firstFaultOf? limit seen (n :: ns) =
      if n.id ∈ met then some (.duplicateId n.id)
      else (n.faultAt? limit).or (Pattern.firstFaultOf? limit (seen.insert n.id) ns) := by
  rw [Pattern.firstFaultOf?]
  by_cases hn : n.id ∈ met
  · rw [if_pos (Std.HashSet.mem_iff_contains.mp ((hseen _).mpr hn)), if_pos hn]
  · have hcontains : ¬ seen.contains n.id = true := by
      rw [← Std.HashSet.mem_iff_contains, hseen]
      exact hn
    rw [if_neg hcontains, if_neg hn]
    cases n.faultAt? limit <;> rfl

/-- **Checking a list of nodes finds the first violation.** -/
theorem firstFaultOf?_eq_some_iff {seen : Std.HashSet NodeId}
    (hseen : ∀ id, id ∈ seen ↔ id ∈ met) :
    Pattern.firstFaultOf? limit seen ns = some fault ↔ FirstViolation limit met ns fault := by
  induction ns generalizing seen met with
  | nil => simp [Pattern.firstFaultOf?, firstViolation_nil]
  | cons n ns ih =>
    rw [firstFaultOf?_cons hseen, firstViolation_cons]
    split
    · rename_i hn
      have hfirst : FirstViolated limit met n (.duplicateId n.id) :=
        ⟨.duplicateId hn, fun _ _ => Nat.zero_le _⟩
      rw [Option.some.injEq]
      constructor
      · rintro rfl
        exact Or.inl hfirst
      · rintro (h | ⟨hnone, -⟩)
        · exact hfirst.eq h
        · exact absurd hfirst.1 (hnone _)
    · rename_i hn
      cases hfault : n.faultAt? limit with
      | some other =>
        have hother := (faultAt?_eq_some_iff hn).mp hfault
        rw [Option.some_or, Option.some.injEq]
        constructor
        · rintro rfl
          exact Or.inl hother
        · rintro (h | ⟨hnone, -⟩)
          · exact hother.eq h
          · exact absurd hother.1 (hnone _)
      | none =>
        have hnone := (faultAt?_eq_none_iff hn).mp hfault
        rw [Option.none_or, ih (mem_insert_iff hseen n.id)]
        constructor
        · exact fun h => Or.inr ⟨hnone, h⟩
        · rintro (h | ⟨-, h⟩)
          · exact absurd h.1 (hnone _)
          · exact h

/-- Checking finds no fault in a list of nodes exactly if none of them violates a check. -/
theorem firstFaultOf?_eq_none_iff_passes {seen : Std.HashSet NodeId}
    (hseen : ∀ id, id ∈ seen ↔ id ∈ met) :
    Pattern.firstFaultOf? limit seen ns = none ↔ Passes limit met ns := by
  induction ns generalizing seen met with
  | nil => simp [Pattern.firstFaultOf?, passes_nil]
  | cons n ns ih =>
    rw [firstFaultOf?_cons hseen, passes_cons]
    split
    · rename_i hn
      exact ⟨fun h => absurd h (Option.some_ne_none _), fun h => absurd (.duplicateId hn) (h.1 _)⟩
    · rename_i hn
      rw [← faultAt?_eq_none_iff hn]
      cases hfault : n.faultAt? limit with
      | some fault => simp
      | none => simpa using ih (mem_insert_iff hseen n.id)

/-! ## Trees -/

/-- **Acceptable trees are the well-formed ones around which there are numbers left.** -/
theorem acceptable_iff {tree : Pattern} :
    tree.Acceptable limit ↔
      tree.WellFormed limit ∧ tree.maxId.toNat + tree.wrapperSize < UInt32.size := by
  constructor
  · intro h
    refine ⟨⟨h.distinct, fun n hn => ?_⟩, h.room⟩
    have hnew : n.id ∉ ([] : List NodeId) := List.not_mem_nil
    refine (faultAt?_eq_none_iff hnew).mpr fun fault hfault => ?_
    cases hfault with
    | duplicateId hmet => cases hmet
    | emptyLiteral => exact (h.literals _ _ _ hn).1 rfl
    | literalTooLong hlength => exact absurd (h.literals _ _ _ hn).2 (Nat.not_le.mpr hlength)
    | emptyRepetition hmax hempty =>
      have := h.repetitions _ _ _ _ hn hmax
      rw [hempty] at this
      cases this
    | invertedBounds hq hmax hlt =>
      exact absurd (h.bounds n hn _ hq _ hmax) (UInt32.not_le.mpr hlt)
  · rintro ⟨hwf, hroom⟩
    have hpasses : ∀ n ∈ tree.nodes, ∀ fault, ¬ Violates limit [] n fault := fun n hn =>
      (faultAt?_eq_none_iff (by simp)).mp (hwf.faultless n hn)
    refine ⟨hwf.nodup, ?_, ?_, ?_, hroom⟩
    · intro id bytes q hmem
      refine ⟨?_, Nat.not_lt.mp fun hlength => hpasses _ hmem _ (.literalTooLong hlength)⟩
      rintro rfl
      exact hpasses _ hmem _ .emptyLiteral
    · intro n hn q hq max hmax
      exact UInt32.not_lt.mp fun hlt => hpasses n hn _ (.invertedBounds hq hmax hlt)
    · intro id body capture q hmem hmax
      rw [← Bool.not_eq_true]
      exact fun hempty => hpasses _ hmem _ (.emptyRepetition hmax hempty)

theorem wrapped?_eq_none_iff {tree : Pattern} :
    tree.wrapped? = none ↔ ¬ tree.maxId.toNat + tree.wrapperSize < UInt32.size := by
  unfold Pattern.wrapped?
  by_cases hroom : tree.maxId.toNat + tree.wrapperSize < UInt32.size
  · rw [if_pos hroom]
    split <;> simp [hroom]
  · simp [hroom]

/-- What compiling comes to, said with the checks as they are made. -/
theorem compile_cases (tree : Pattern) (options : CompileOptions) :
    (∃ fault, tree.firstFault? options.maxLiteral = some fault ∧
      compile tree options = .error (.fault fault)) ∨
    (tree.firstFault? options.maxLiteral = none ∧ tree.wrapped? = none ∧
      compile tree options = .error (.idSpaceExhausted tree.maxId)) ∨
    (tree.firstFault? options.maxLiteral = none ∧ tree.wrapped? ≠ none ∧
      ∃ program, compile tree options = .ok program) := by
  cases hfault : tree.firstFault? options.maxLiteral with
  | some fault => exact Or.inl ⟨fault, rfl, by simp [compile, hfault]⟩
  | none =>
    cases hroot : tree.wrapped? with
    | none => exact Or.inr (Or.inl ⟨rfl, rfl, by simp [compile, hfault, hroot]⟩)
    | some root =>
      have hwf := Pattern.firstFault?_eq_none_iff.mp hfault
      exact Or.inr (Or.inr
        ⟨rfl, Option.some_ne_none root, compile_isOk_of_wellFormed hwf hroot⟩)

/-- **What compiling a tree comes to.**  There is a program exactly if the tree is acceptable.  A
tree with a node that violates a check is refused with the first violation in checking order; one
without, around which there are no numbers left, with its largest number.  Code that defines a label
twice or jumps to a missing one is never made. -/
theorem compile_outcome (tree : Pattern) (options : CompileOptions) :
    ((∃ program, compile tree options = .ok program) ↔ tree.Acceptable options.maxLiteral) ∧
    (∀ fault, compile tree options = .error (.fault fault) ↔
      FirstViolation options.maxLiteral [] tree.visit fault) ∧
    (∀ id, compile tree options = .error (.idSpaceExhausted id) ↔
      Passes options.maxLiteral [] tree.visit ∧
        ¬ tree.maxId.toNat + (if tree.startAnchored then 3 else 5) < 2 ^ 32 ∧ id = tree.maxId) ∧
    ∀ error, compile tree options ≠ .error (.link error) := by
  have hviolation : ∀ fault, FirstViolation options.maxLiteral [] tree.visit fault ↔
      tree.firstFault? options.maxLiteral = some fault :=
    fun fault => (firstFaultOf?_eq_some_iff (by simp)).symm
  have hpasses : Passes options.maxLiteral [] tree.visit ↔
      tree.firstFault? options.maxLiteral = none :=
    (firstFaultOf?_eq_none_iff_passes (by simp)).symm
  have hroom : ¬ tree.maxId.toNat + (if tree.startAnchored then 3 else 5) < 2 ^ 32 ↔
      tree.wrapped? = none := wrapped?_eq_none_iff.symm
  have hacceptable : tree.Acceptable options.maxLiteral ↔
      tree.firstFault? options.maxLiteral = none ∧ tree.wrapped? ≠ none := by
    rw [acceptable_iff, Pattern.firstFault?_eq_none_iff, ne_eq, wrapped?_eq_none_iff,
      Classical.not_not]
  simp only [hviolation, hpasses, hroom, hacceptable]
  rcases compile_cases tree options with
    ⟨fault, hfault, hcompile⟩ | ⟨hfault, hroot, hcompile⟩ | ⟨hfault, hroot, program, hcompile⟩
  · simp [hcompile, hfault]
  · simp [hcompile, hfault, hroot, eq_comm]
  · simp [hcompile, hfault, hroot]

end PatternMachine
