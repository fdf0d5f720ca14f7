import PatternMachine.Proofs.Grammar

/-!
# Merging and nesting

* `Level.around` — the finished branches of a level around the tree of the last one.

Principal results: `Merges.eq` and `merges_joinLiterals` — joining the literals of a sequence does
what the grammar says of them, and nothing else does.  `unnumbered_sequence`,
`Level.unnumbered_body` — up to the numbers of its nodes, the tree of a sequence is nested to the
right, and so is that of its branches.
-/

set_option autoImplicit false

namespace PatternMachine

open Grammar

/-! ## Merging -/

theorem joinItem_of_none {p : Pattern} (hp : p.onceLiteral? = none) (ps : List Pattern) :
    joinItem p ps = p :: ps := by
  cases p with
  | literal id bytes q =>
    have hq : ¬ q.isOnce = true := by
      intro hq
      simp [Pattern.onceLiteral?, hq] at hp
    cases ps with
    | nil => rfl
    | cons p ps =>
      simp only [joinItem, if_neg hq]
      split <;> rfl
  | _ => rfl

theorem joinItem_of_head_none {ps : List Pattern} (h : ∀ p ∈ ps.head?, p.onceLiteral? = none)
    (p : Pattern) : joinItem p ps = p :: ps := by
  cases p with
  | literal id bytes q =>
    cases ps with
    | nil => rfl
    | cons p ps => simp [joinItem, h p rfl]
  | _ => rfl

/-- A literal that is matched once takes over the bytes of such a literal behind it. -/
theorem joinItem_of_once {q : Quantifier} (hq : q.isOnce = true) (id : NodeId)
    (bytes : List UInt8) {p : Pattern} {more : List UInt8} (hp : p.onceLiteral? = some more)
    (ps : List Pattern) :
    joinItem (.literal id bytes q) (p :: ps) = .literal id (bytes ++ more) q :: ps := by
  simp [joinItem, hp, hq]

theorem Pattern.eq_literal_of_onceLiteral? {p : Pattern} {bytes : List UInt8}
    (h : p.onceLiteral? = some bytes) : ∃ id q, p = .literal id bytes q ∧ q.isOnce = true := by
  cases p with
  | literal id bytes' q =>
    simp only [onceLiteral?] at h
    split at h
    · rename_i hq
      cases h
      exact ⟨id, q, rfl, hq⟩
    · cases h
  | _ => cases h

theorem Pattern.onceLiteral?_literal {q : Quantifier} (hq : q.isOnce = true) (id : NodeId)
    (bytes : List UInt8) : (Pattern.literal id bytes q).onceLiteral? = some bytes := if_pos hq

/-- A run of literals is joined to one. -/
theorem joinLiterals_run {q : Quantifier} (hq : q.isOnce = true) (id : NodeId)
    (bytes : List UInt8) {run ps : List Pattern} {more : List (List UInt8)}
    (hrun : List.Forall₂ (fun p bytes => p.onceLiteral? = some bytes) run more)
    (hend : ∀ p ∈ (joinLiterals ps).head?, p.onceLiteral? = none) :
    joinLiterals (.literal id bytes q :: (run ++ ps)) =
      .literal id (bytes ++ more.flatten) q :: joinLiterals ps := by
  induction hrun generalizing id bytes q with
  | nil =>
    rw [List.flatten_nil, List.append_nil, List.nil_append]
    exact joinItem_of_head_none hend _
  | @cons p bytes' run more hp _ ih =>
    obtain ⟨id', q', rfl, hq'⟩ := Pattern.eq_literal_of_onceLiteral? hp
    have hjoin := joinItem_of_once hq id bytes
      (Pattern.onceLiteral?_literal hq' id' (bytes' ++ more.flatten)) (joinLiterals ps)
    rw [List.flatten_cons, ← hjoin, ← ih hq' id' bytes']
    rfl

namespace Grammar

/-- What begins with no literal to be merged still does so when the literals are merged. -/
theorem Merges.head {ps merged : List Pattern} (h : Merges ps merged)
    (hend : ∀ p ∈ ps.head?, p.onceLiteral? = none) :
    ∀ p ∈ merged.head?, p.onceLiteral? = none := by
  cases h with
  | nil => exact hend
  | item hp _ =>
    intro p hmem
    cases hmem
    exact hp
  | @run id bytes q _ _ _ _ hq _ _ _ =>
    have hnone := hend _ rfl
    rw [Pattern.onceLiteral?_literal hq] at hnone
    cases hnone

/-- Merging has one result: that of joining the literals. -/
theorem Merges.eq {ps merged : List Pattern} (h : Merges ps merged) :
    merged = joinLiterals ps := by
  induction h with
  | nil => rfl
  | @item p ps merged hp _ ih =>
    rw [ih]
    exact (joinItem_of_none hp _).symm
  | run hq hrun hend h ih =>
    subst ih
    exact (joinLiterals_run hq _ _ hrun (h.head hend)).symm

/-- A literal in front of something else is a run of its own. -/
theorem Merges.alone {q : Quantifier} (hq : q.isOnce = true) (id : NodeId) (bytes : List UInt8)
    {ps merged : List Pattern} (hend : ∀ p ∈ ps.head?, p.onceLiteral? = none)
    (h : Merges ps merged) :
    Merges (.literal id bytes q :: ps) (.literal id bytes q :: merged) := by
  have hrun : Merges (.literal id bytes q :: ([] ++ ps))
      (.literal id (bytes ++ List.flatten []) q :: merged) := .run hq .nil hend h
  simpa using hrun

theorem merges_joinLiterals (ps : List Pattern) : Merges ps (joinLiterals ps) := by
  induction ps with
  | nil => exact .nil
  | cons p ps ih =>
    change Merges (p :: ps) (joinItem p (joinLiterals ps))
    cases honce : p.onceLiteral? with
    | none =>
      rw [joinItem_of_none honce]
      exact .item honce ih
    | some bytes =>
      obtain ⟨id, q, rfl, hq⟩ := Pattern.eq_literal_of_onceLiteral? honce
      generalize joinLiterals ps = merged at ih
      cases ih with
      | nil => exact .alone hq id bytes nofun .nil
      | item hp h =>
        rw [joinItem_of_head_none (by rintro _ ⟨⟩; exact hp)]
        exact .alone hq id bytes (by rintro _ ⟨⟩; exact hp) (.item hp h)
      | @run id' bytes' q' run ps merged more hq' hrun hend h =>
        rw [joinItem_of_once hq id bytes (Pattern.onceLiteral?_literal hq' id' _)]
        have hlonger : Merges (.literal id bytes q :: ((.literal id' bytes' q' :: run) ++ ps))
            (.literal id (bytes ++ (bytes' :: more).flatten) q :: merged) :=
          .run hq (.cons (Pattern.onceLiteral?_literal hq' id' bytes') hrun) hend h
        exact hlonger

end Grammar

/-! ## Trees without numbers -/

namespace Pattern

theorem onceLiteral?_unnumbered (p : Pattern) : p.unnumbered.onceLiteral? = p.onceLiteral? := by
  cases p <;> rfl

theorem withQuantifier?_unnumbered (q : Quantifier) (p : Pattern) :
    p.unnumbered.withQuantifier? q = (p.withQuantifier? q).map unnumbered := by
  cases p <;> rfl

end Pattern

theorem unnumbered_joinItem (p : Pattern) (ps : List Pattern) :
    (joinItem p ps).map Pattern.unnumbered = joinItem p.unnumbered (ps.map Pattern.unnumbered) := by
  cases p with
  | literal id bytes q =>
    cases ps with
    | nil => rfl
    | cons p ps =>
      simp only [joinItem, Pattern.unnumbered, List.map_cons, Pattern.onceLiteral?_unnumbered]
      cases p.onceLiteral? with
      | none => rfl
      | some more => cases q.isOnce <;> rfl
  | _ => rfl

/-- Joining literals does not look at numbers. -/
theorem unnumbered_joinLiterals (ps : List Pattern) :
    (joinLiterals ps).map Pattern.unnumbered = joinLiterals (ps.map Pattern.unnumbered) := by
  induction ps with
  | nil => rfl
  | cons p ps ih =>
    have hjoin := unnumbered_joinItem p (joinLiterals ps)
    rw [ih] at hjoin
    exact hjoin

/-- Nested items under a joint that takes a number. -/
theorem unnumbered_nest (joint : NodeId → Pattern → Pattern → Pattern)
    (hjoint : ∀ id p q, (joint id p q).unnumbered = joint 0 p.unnumbered q.unnumbered)
    (earlier : List Pattern) (last : Pattern) (nextId : Nat) :
    (nest joint earlier last nextId).1.unnumbered =
      earlier.foldl (fun tree p => joint 0 p.unnumbered tree) last.unnumbered := by
  unfold nest
  induction earlier generalizing last nextId with
  | nil => rfl
  | cons p earlier ih =>
    rw [List.foldl_cons, ih, hjoint]
    rfl

theorem rightNested_concat (earlier : List Pattern) (p last : Pattern) :
    rightNested (earlier ++ [p, last]) = rightNested (earlier ++ [.concat 0 p last]) := by
  induction earlier with
  | nil => rfl
  | cons q earlier ih =>
    cases earlier with
    | nil => rfl
    | cons r earlier => exact congrArg (Pattern.concat 0 q) ih

theorem foldl_concat (earlier : List Pattern) (last : Pattern) :
    earlier.foldl (fun tree p => .concat 0 p tree) last =
      rightNested (earlier.reverse ++ [last]) := by
  induction earlier generalizing last with
  | nil => rfl
  | cons p earlier ih =>
    rw [List.foldl_cons, ih, List.reverse_cons, List.append_assoc]
    exact (rightNested_concat _ _ _).symm

/-- A sequence is nested to the right. -/
theorem unnumbered_sequence (items : List Pattern) (nextId : Nat) :
    (sequence items nextId).1.unnumbered = rightNested (items.map Pattern.unnumbered) := by
  unfold sequence
  cases hitems : items.reverse with
  | nil =>
    rw [List.reverse_eq_nil_iff.mp hitems]
    rfl
  | cons last earlier =>
    have hmap : items.map Pattern.unnumbered =
        (earlier.map Pattern.unnumbered).reverse ++ [last.unnumbered] := by
      rw [← List.reverse_reverse items, hitems]
      simp
    rw [hmap, ← foldl_concat, List.foldl_map]
    exact unnumbered_nest .concat (fun _ _ _ => rfl) earlier last nextId

/-- A branch is the sequence of its items, with the runs of literals merged. -/
theorem Level.unnumbered_branch (level : Level) (nextId : Nat) :
    ∃ merged, Merges (level.items.reverse.map Pattern.unnumbered) merged ∧
      (level.branch joinLiterals nextId).1.unnumbered = rightNested merged := by
  refine ⟨_, merges_joinLiterals _, ?_⟩
  rw [Level.branch, unnumbered_sequence, unnumbered_joinLiterals]

/-- The branches of a level around the tree of the last one. -/
def Level.around (branches : List Pattern) (last : Pattern) : Pattern :=
  branches.foldl (fun tree branch => .alternation 0 branch.unnumbered tree) last

theorem Level.unnumbered_body (level : Level) (nextId : Nat) :
    (level.body joinLiterals nextId).1.unnumbered =
      Level.around level.branches (level.branch joinLiterals nextId).1.unnumbered :=
  unnumbered_nest .alternation (fun _ _ _ => rfl) _ _ _

end PatternMachine
