import PatternMachine.Pattern.Analysis
import Std.Data.HashSet

/-!
# Trees that can be compiled

* `Fault` — why a tree is refused.
* `Pattern.visit` — the order in which nodes are checked.
* `Pattern.faultAt?` — what is wrong with one node taken alone.
* `Pattern.firstFault?` — the first fault of a tree, repeated node numbers included.

Main statement: `mem_visit` says that checking meets every node of the tree.
-/

set_option autoImplicit false

namespace PatternMachine

/-- Why a tree cannot be compiled. -/
inductive Fault where
  | duplicateId (id : NodeId)
  | emptyLiteral (id : NodeId)
  | literalTooLong (id : NodeId) (length limit : Nat)
  | emptyRepetition (id : NodeId)
  | invertedBounds (id : NodeId) (min max : UInt32)
  deriving DecidableEq, Repr

namespace Fault

/-- The fault in words. -/
def message : Fault → String
  | .duplicateId id => "node id " ++ toString id.toNat ++ " is used more than once"
  | .emptyLiteral id => "node " ++ toString id.toNat ++ ": empty literal"
  | .literalTooLong id length limit =>
    "node " ++ toString id.toNat ++ ": literal of " ++ toString length ++
      " bytes exceeds the maximum of " ++ toString limit
  | .emptyRepetition id =>
    "node " ++ toString id.toNat ++
      ": unbounded repetition of a group that can match the empty string"
  | .invertedBounds id min max =>
    "node " ++ toString id.toNat ++ ": minimum " ++ toString min.toNat ++
      " is greater than maximum " ++ toString max.toNat

end Fault

/-- The fault of bounds whose minimum exceeds the maximum. -/
def Quantifier.fault? (id : NodeId) (q : Quantifier) : Option Fault :=
  match q.max with
  | .finite max => if max < q.min then some (.invertedBounds id q.min max) else none
  | .unbounded => none

namespace Pattern

/-- All subtrees in the order in which they are checked: a node, then its second part, then its
first part. -/
def visit : Pattern → List Pattern
  | .concat id first second => .concat id first second :: (second.visit ++ first.visit)
  | .alternation id first second => .alternation id first second :: (second.visit ++ first.visit)
  | .group id body capture q => .group id body capture q :: body.visit
  | p => [p]

/-- The first thing that is wrong with a node taken alone, when literals may have `limit` bytes. -/
def faultAt? (limit : Nat) : Pattern → Option Fault
  | .wildcard id q => q.fault? id
  | .literal id bytes q =>
    if bytes.isEmpty then some (.emptyLiteral id)
    else if limit < bytes.length then some (.literalTooLong id bytes.length limit)
    else q.fault? id
  | .group id body _ q =>
    if q.max = .unbounded ∧ body.matchesEmpty = true then some (.emptyRepetition id)
    else q.fault? id
  | _ => none

/-- The first fault of a list of nodes, of which none may carry a number in `seen` or one that an
earlier node of the list carries. -/
def firstFaultOf? (limit : Nat) (seen : Std.HashSet NodeId) : List Pattern → Option Fault
  | [] => none
  | p :: ps =>
    if seen.contains p.id then some (.duplicateId p.id)
    else match p.faultAt? limit with
      | some fault => some fault
      | none => firstFaultOf? limit (seen.insert p.id) ps

/-- The first fault of a tree in checking order, if it has one. -/
def firstFault? (limit : Nat) (p : Pattern) : Option Fault :=
  firstFaultOf? limit ∅ p.visit

/-- Checking meets exactly the nodes of the tree. -/
theorem mem_visit {p n : Pattern} : n ∈ p.visit ↔ n ∈ p.nodes := by
  induction p with
  | concat i a b iha ihb => simp [visit, nodes, iha, ihb, or_comm]
  | alternation i a b iha ihb => simp [visit, nodes, iha, ihb, or_comm]
  | group i a c q ih => simp [visit, nodes, ih]
  | _ => simp [visit, nodes]

end Pattern

end PatternMachine
