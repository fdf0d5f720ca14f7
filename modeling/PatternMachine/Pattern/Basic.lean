/-!
# Pattern trees

A pattern is a tree whose nodes are numbered:

* `Bound`, `Quantifier` — how often a unit may be repeated, and in which order the counts are tried.
* `Anchor` — the four conditions on a position.
* `Pattern` — the tree itself; every constructor carries the number of its node.
* `Pattern.nodes` — the nodes in preorder; `Pattern.maxId` — the largest number among them.

Main statements: `maxId_mem` and `le_maxId` say that `maxId` is attained and bounds every node.
-/

set_option autoImplicit false

namespace PatternMachine

/-- The number of a node in a pattern tree. The labels of a compiled program are derived from it. -/
abbrev NodeId := UInt32

/-- The upper bound of a repetition. -/
inductive Bound where
  | finite (count : UInt32)
  | unbounded
  deriving DecidableEq, Repr

namespace Bound

/-- The bound as listings show it. -/
def text : Bound → String
  | .finite count => toString count.toNat
  | .unbounded => "Inf"

/-- Whether a repetition that has been made `n` times may be made once more. -/
def admitsMore : Bound → Nat → Bool
  | .finite count, n => decide (n < count.toNat)
  | .unbounded, _ => true

end Bound

/-- How often a unit is repeated. A greedy repetition tries the largest count first, a lazy one the
smallest. -/
structure Quantifier where
  min : UInt32
  max : Bound
  greedy : Bool
  deriving DecidableEq, Repr

namespace Quantifier

/-- Exactly one repetition: the quantifier of a unit that carries none. -/
def once : Quantifier := ⟨1, .finite 1, true⟩

/-- The same bounds, smallest count first. -/
def toLazy (q : Quantifier) : Quantifier := { q with greedy := false }

/-- Whether the bounds ask for exactly one repetition, in either order. -/
def isOnce (q : Quantifier) : Bool := q.min == 1 && q.max == .finite 1

/-- Whether the minimum does not exceed the maximum. -/
def isValid (q : Quantifier) : Bool :=
  match q.max with
  | .finite max => decide (q.min ≤ max)
  | .unbounded => true

/-- The quantifier as listings show it; a lazy one ends in a question mark. -/
def text (q : Quantifier) : String :=
  "\x7b" ++ toString q.min.toNat ++ ".." ++ q.max.text ++ "\x7d" ++ (if q.greedy then "" else "?")

theorem isOnce_iff {q : Quantifier} : q.isOnce = true ↔ q.min = 1 ∧ q.max = .finite 1 := by
  simp [isOnce]

end Quantifier

/-- A condition on the position alone. -/
inductive Anchor where
  /-- Offset 0. -/
  | start
  /-- The end of the subject. -/
  | finish
  /-- Offset 0, or right after a newline. -/
  | lineStart
  /-- The end of the subject, or right before a newline. -/
  | lineEnd
  deriving DecidableEq, Repr

/-- A pattern tree. -/
inductive Pattern where
  /-- Matches the empty text. -/
  | empty (id : NodeId)
  /-- The end of a whole pattern: the search reports a match here. -/
  | endMarker (id : NodeId)
  /-- Any one byte, repeated. -/
  | wildcard (id : NodeId) (quantifier : Quantifier)
  /-- The given bytes, repeated. -/
  | literal (id : NodeId) (bytes : List UInt8) (quantifier : Quantifier)
  /-- One pattern right after the other. -/
  | concat (id : NodeId) (first second : Pattern)
  /-- Either pattern, the first one preferred. -/
  | alternation (id : NodeId) (first second : Pattern)
  /-- A repeated pattern; with a capture index, the span of every repetition is recorded. -/
  | group (id : NodeId) (body : Pattern) (capture : Option UInt32) (quantifier : Quantifier)
  /-- A condition on the position. -/
  | anchor (id : NodeId) (kind : Anchor)
  deriving DecidableEq, Repr

namespace Pattern

/-- The number of the topmost node. -/
def id : Pattern → NodeId
  | .empty id => id
  | .endMarker id => id
  | .wildcard id _ => id
  | .literal id _ _ => id
  | .concat id _ _ => id
  | .alternation id _ _ => id
  | .group id _ _ _ => id
  | .anchor id _ => id

/-- The direct parts, in matching order. -/
def children : Pattern → List Pattern
  | .concat _ first second => [first, second]
  | .alternation _ first second => [first, second]
  | .group _ body _ _ => [body]
  | _ => []

/-- All subtrees: a node, then those of its parts from left to right. -/
def nodes : Pattern → List Pattern
  | .concat id first second => .concat id first second :: (first.nodes ++ second.nodes)
  | .alternation id first second => .alternation id first second :: (first.nodes ++ second.nodes)
  | .group id body capture q => .group id body capture q :: body.nodes
  | p => [p]

/-- The largest node number of the tree. -/
def maxId : Pattern → NodeId
  | .concat id first second => max id (max first.maxId second.maxId)
  | .alternation id first second => max id (max first.maxId second.maxId)
  | .group id body _ _ => max id body.maxId
  | p => p.id

/-- The quantifier of a unit that can carry one. -/
def quantifier? : Pattern → Option Quantifier
  | .wildcard _ q => some q
  | .literal _ _ q => some q
  | .group _ _ _ q => some q
  | _ => none

/-- The same unit under another quantifier, if it can carry one. -/
def withQuantifier? (q : Quantifier) : Pattern → Option Pattern
  | .wildcard id _ => some (.wildcard id q)
  | .literal id bytes _ => some (.literal id bytes q)
  | .group id body capture _ => some (.group id body capture q)
  | _ => none

theorem self_mem_nodes (p : Pattern) : p ∈ p.nodes := by
  cases p <;> simp [nodes]

theorem max_eq_left_or_right (a b : NodeId) : max a b = a ∨ max a b = b := by
  by_cases h : a ≤ b
  · exact Or.inr (if_pos h)
  · exact Or.inl (if_neg h)

theorem le_max_of_le {a b c : NodeId} (h : a ≤ b ∨ a ≤ c) : a ≤ max b c := by
  by_cases hbc : b ≤ c
  · rw [show max b c = c from if_pos hbc]
    exact h.elim (fun hab => UInt32.le_trans hab hbc) (fun hac => hac)
  · rw [show max b c = b from if_neg hbc]
    exact h.elim (fun hab => hab) (fun hac =>
      UInt32.le_trans hac ((UInt32.le_total b c).resolve_left hbc))

/-- The largest number is the number of some node. -/
theorem maxId_mem (p : Pattern) : ∃ n ∈ p.nodes, n.id = p.maxId := by
  induction p with
  | concat i a b iha ihb =>
    simp only [maxId, nodes, List.mem_cons, List.mem_append]
    rcases max_eq_left_or_right i (max a.maxId b.maxId) with h | h
    · exact ⟨_, Or.inl rfl, h.symm⟩
    · rw [h]
      rcases max_eq_left_or_right a.maxId b.maxId with h' | h' <;> rw [h'] <;> grind
  | alternation i a b iha ihb =>
    simp only [maxId, nodes, List.mem_cons, List.mem_append]
    rcases max_eq_left_or_right i (max a.maxId b.maxId) with h | h
    · exact ⟨_, Or.inl rfl, h.symm⟩
    · rw [h]
      rcases max_eq_left_or_right a.maxId b.maxId with h' | h' <;> rw [h'] <;> grind
  | group i a c q ih =>
    simp only [maxId, nodes, List.mem_cons]
    rcases max_eq_left_or_right i a.maxId with h | h
    · exact ⟨_, Or.inl rfl, h.symm⟩
    · rw [h]; grind
  | _ => simp [maxId, nodes]

/-- No node has a larger number. -/
theorem le_maxId {p n : Pattern} (h : n ∈ p.nodes) : n.id ≤ p.maxId := by
  induction p with
  | concat i a b iha ihb =>
    simp only [nodes, List.mem_cons, List.mem_append] at h
    rcases h with rfl | h | h
    · exact le_max_of_le (Or.inl UInt32.le_rfl)
    · exact le_max_of_le (Or.inr (le_max_of_le (Or.inl (iha h))))
    · exact le_max_of_le (Or.inr (le_max_of_le (Or.inr (ihb h))))
  | alternation i a b iha ihb =>
    simp only [nodes, List.mem_cons, List.mem_append] at h
    rcases h with rfl | h | h
    · exact le_max_of_le (Or.inl UInt32.le_rfl)
    · exact le_max_of_le (Or.inr (le_max_of_le (Or.inl (iha h))))
    · exact le_max_of_le (Or.inr (le_max_of_le (Or.inr (ihb h))))
  | group i a c q ih =>
    simp only [nodes, List.mem_cons] at h
    rcases h with rfl | h
    · exact le_max_of_le (Or.inl UInt32.le_rfl)
    · exact le_max_of_le (Or.inr (ih h))
  | _ =>
    simp only [nodes, List.mem_singleton] at h
    subst h
    exact UInt32.le_rfl

end Pattern

end PatternMachine
