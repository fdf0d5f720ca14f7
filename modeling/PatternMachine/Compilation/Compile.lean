import PatternMachine.Compilation.Lowering
import PatternMachine.Pattern.Check

/-!
# Compiling patterns

* `CompileOptions` — what a listing holds, and how long a literal may be.
* `Pattern.wrapped?` — a tree with its span recorded as the whole match, an end marker behind it
  and, unless it is anchored at the start, a scan in front of it.
* `compile` — the program that searches for a pattern.
* `CompileError` — why there is none.
-/

set_option autoImplicit false

namespace PatternMachine

/-- The choices for one compilation. -/
structure CompileOptions where
  /-- Whether the listing holds line markers. -/
  lineMarkers : Bool := true
  /-- Whether entering a block is told to the journal. -/
  trace : Bool := false
  /-- The largest number of bytes of a literal. -/
  maxLiteral : Nat := 256
  deriving DecidableEq, Repr

/-- Why a tree has no program. -/
inductive CompileError where
  | fault (fault : Fault)
  /-- The nodes around the tree would get numbers beyond 32 bits. -/
  | idSpaceExhausted (maxId : NodeId)
  | link (error : LinkError)
  deriving DecidableEq, Repr

/-- The error in words. -/
def CompileError.message : CompileError → String
  | .fault f => f.message
  | .idSpaceExhausted maxId =>
    "no node ids left after " ++ toString maxId.toNat ++ " for the search wrapper"
  | .link e => e.message

/-- The capture index of the whole match. -/
def wholeMatch : UInt32 := 0

namespace Pattern

/-- The number of nodes that `wrapped?` adds to a tree. -/
def wrapperSize (p : Pattern) : Nat := if p.startAnchored then 3 else 5

/-- The tree that is compiled for `p`, unless the numbers after the largest one of `p` do not
suffice: `p` as the whole match, an end marker, and in front of them, if `p` can match elsewhere
than at the start, a scan that skips as few bytes as possible. -/
def wrapped? (p : Pattern) : Option Pattern :=
  let m := p.maxId
  if m.toNat + p.wrapperSize < UInt32.size then
    let found := .concat (m + 3) (.group (m + 1) p (some wholeMatch) .once) (.endMarker (m + 2))
    if p.startAnchored then some found
    else some (.concat (m + 5) (.wildcard (m + 4) ⟨0, .unbounded, false⟩) found)
  else none

end Pattern

namespace Compilation

/-- The lines at the top of every listing. -/
def header : List String :=
  [".sub rule_entry",
    "    .param string target",
    "    new match, rule_search",
    "    match.\"_next\"()",
    "    .return(match)",
    ".end",
    "",
    ".sub rule_search",
    "    .param pmc match",
    "    .param string target",
    "    .param int pos",
    "    .param int lastpos",
    "    .local int rep",
    "    .local int maxrep",
    "    .local pmc gr_rep",
    "    .local pmc gr_cap"]

/-- The start of the search: the tree is called, and when it comes back there is no further
match. -/
def opening (trace : Bool) (root : NodeId) : List Instruction :=
  Lowering.head trace .search "resumable search" ++
    [.call (.node root), .block .failForever none, .exhausted, .goto .failForever]

/-- The listing of a whole program for a wrapped tree. -/
def directives (trace : Bool) (root : Pattern) : List Directive :=
  header.map .comment ++
    Lowering.directives (opening trace root.id) ++
    root.lower trace .fail ++
    Lowering.directives [.block .fail none, .ret] ++
    [.comment ".end"]

/-- Whether a slot comes no later than another: slots are in the order of their indexes, and within
an index in the order of their groups. -/
def slotLe (a b : CaptureSlot) : Bool :=
  decide (a.index < b.index) || (a.index == b.index && decide (a.group ≤ b.group))

/-- The assembled listing of a wrapped tree. -/
def assembly (options : CompileOptions) (root : Pattern) : Assembly :=
  ((Listing.new options.lineMarkers).writeAll (directives options.trace root)).take.1

/-- The capture table of a wrapped tree. -/
def captureTable (root : Pattern) : List CaptureSlot := root.captureSlots.mergeSort slotLe

end Compilation

open Compilation in
/-- The program that searches for a pattern. -/
def compile (p : Pattern) (options : CompileOptions) : Except CompileError Program :=
  match p.firstFault? options.maxLiteral with
  | some fault => .error (.fault fault)
  | none =>
    match p.wrapped? with
    | none => .error (.idSpaceExhausted p.maxId)
    | some root =>
      let assembled := assembly options root
      match Program.link assembled.code (captureTable root) assembled.text with
      | .error e => .error (.link e)
      | .ok program => .ok program

end PatternMachine
