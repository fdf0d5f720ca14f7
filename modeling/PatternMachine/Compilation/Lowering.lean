import PatternMachine.Program.Link
import PatternMachine.Program.Listing

/-!
# From trees to instructions

Every node becomes a block of instructions that is given the label of what is to happen next. A
block jumps to that label in tail position, or calls it; a call comes back when all that is
reachable from the label has failed, and then the block tries its next way. A block that has no way
left jumps to the shared label `fail`, which returns to the most recent call.

* `Lowering.wildcardBlock`, `Lowering.literalBlock`, `Lowering.anchorBlock`, `Lowering.repetition` —
  the instructions of each kind of node.
* `Pattern.lower` — the whole listing of a tree.
-/

set_option autoImplicit false

namespace PatternMachine

namespace Lowering

/-- The number of a bound, as an operand. -/
def imm (n : UInt32) : Operand := .imm n.toNat

/-- A branch on a register. -/
def branchIf (r : Register) (comparison : Comparison) (operand : Operand) (target : Label) :
    Instruction :=
  .branch (.register r comparison operand) target

/-- A branch on the counter of a group. -/
def branchCount (group : NodeId) (comparison : Comparison) (value : Nat) (target : Label) :
    Instruction :=
  .branch (.count group comparison value) target

/-- A label inside a block. -/
def place (label : Label) : Instruction := .block label none

/-- The head of a block. With tracing, entering the block is told to the journal. -/
def head (trace : Bool) (label : Label) (comment : String) : List Instruction :=
  if trace then [.block label (some comment), .trace label.text]
  else [.block label (some comment)]

/-- Exactly one byte. -/
def wildcardOnce (next : Label) : List Instruction :=
  [branchIf .pos .ge .lastPos .fail, .add .pos (.imm 1), .goto next]

/-- Sets `maxrep` to the number of bytes that are left, or to the maximum if that is smaller. -/
def clip (id : NodeId) : Bound → List Instruction
  | .unbounded => [.set .maxrep .remaining]
  | .finite max =>
    [.set .maxrep .remaining,
      branchIf .maxrep .le (imm max) (.inner id 1),
      .set .maxrep (imm max),
      place (.inner id 1)]

/-- Any bytes, as many as possible first. -/
def wildcardGreedy (id : NodeId) (min : UInt32) (next : Label) : List Instruction :=
  [.set .rep (.register .maxrep),
    .add .pos (.register .rep),
    place (.inner id 2),
    branchIf .rep .eq (imm min) next,
    branchIf .rep .lt (imm min) .fail,
    .call next,
    .sub .rep (.imm 1),
    .sub .pos (.imm 1),
    .goto (.inner id 2)]

/-- Any bytes, as few as possible first. -/
def wildcardLazy (id : NodeId) (min : UInt32) (next : Label) : List Instruction :=
  [.set .rep (imm min)] ++
  (if min = 0 then [] else [.add .pos (imm min)]) ++
  [place (.inner id 3),
    branchIf .rep .eq (.register .maxrep) next,
    branchIf .rep .gt (.register .maxrep) .fail,
    .call next,
    .add .rep (.imm 1),
    .add .pos (.imm 1),
    .goto (.inner id 3)]

/-- Any bytes, repeated as the quantifier says. -/
def wildcardBlock (id : NodeId) (q : Quantifier) (next : Label) : List Instruction :=
  if q.isOnce then wildcardOnce next
  else clip id q.max ++
    (if q.greedy then wildcardGreedy id q.min next else wildcardLazy id q.min next)

/-- A branch for the case that the bytes do not stand at the position. -/
def unlessLiteral (bytes : List UInt8) (target : Label) : Instruction :=
  .branch (.literal bytes false) target

/-- Exactly once the bytes. -/
def literalOnce (bytes : List UInt8) (next : Label) : List Instruction :=
  [unlessLiteral bytes .fail, .add .pos (.imm bytes.length), .goto next]

/-- The bytes, as often as possible first. -/
def literalGreedy (id : NodeId) (bytes : List UInt8) (min : UInt32) (max : Bound) (next : Label) :
    List Instruction :=
  [.set .rep (.imm 0), place (.inner id 1)] ++
  (match max with
    | .finite max => [branchIf .rep .ge (imm max) (.inner id 2)]
    | .unbounded => []) ++
  [unlessLiteral bytes (.inner id 2),
    .add .rep (.imm 1),
    .add .pos (.imm bytes.length),
    .goto (.inner id 1),
    place (.inner id 2),
    branchIf .rep .eq (imm min) next] ++
  (if min = 0 then [] else [branchIf .rep .lt (imm min) .fail]) ++
  [.call next,
    .sub .rep (.imm 1),
    .sub .pos (.imm bytes.length),
    .goto (.inner id 2)]

/-- The bytes, as rarely as possible first. -/
def literalLazy (id : NodeId) (bytes : List UInt8) (min : UInt32) (max : Bound) (next : Label) :
    List Instruction :=
  [.set .rep (.imm 0), place (.inner id 1)] ++
  (match max with
    | .finite max => [branchIf .rep .eq (imm max) next]
    | .unbounded => []) ++
  (if min = 0 then [] else [branchIf .rep .lt (imm min) (.inner id 2)]) ++
  [.call next,
    place (.inner id 2),
    unlessLiteral bytes .fail,
    .add .rep (.imm 1),
    .add .pos (.imm bytes.length),
    .goto (.inner id 1)]

/-- The bytes, repeated as the quantifier says. -/
def literalBlock (id : NodeId) (bytes : List UInt8) (q : Quantifier) (next : Label) :
    List Instruction :=
  if q.isOnce then literalOnce bytes next
  else if q.greedy then literalGreedy id bytes q.min q.max next
  else literalLazy id bytes q.min q.max next

/-- Entering a group: its state begins anew, and its repetitions are called. When they come back,
the group has failed. -/
def entry (id : NodeId) (capturing : Bool) : List Instruction :=
  [.enter id capturing, .call (.again id), .leave id, .goto .fail]

/-- Records the end of a repetition, unless none has been made. -/
def closeSpan (id : NodeId) (capturing : Bool) : List Instruction :=
  (if capturing then [branchCount id .lt 1 (.againInner id 1), .pushPos id] else []) ++
  [place (.againInner id 1)]

/-- One more repetition of the body, undone when it fails. -/
def repeatBody (id body : NodeId) (capturing : Bool) : List Instruction :=
  [.countUp id] ++ (if capturing then [.pushPos id] else []) ++ [.call (.node body)] ++
  (if capturing then [.popPos id] else []) ++ [.countDown id]

/-- Repeats the body as often as possible before going on. -/
def repeatGreedy (id body : NodeId) (capturing : Bool) (min : UInt32) (max : Bound)
    (next : Label) : List Instruction :=
  (match max with
    | .finite max => [branchCount id .ge max.toNat (.againInner id 2)]
    | .unbounded => []) ++
  repeatBody id body capturing ++
  [place (.againInner id 2)] ++
  (if min = 0 then [] else [branchCount id .lt min.toNat (.againFail id)]) ++
  [.call next]

/-- Repeats the body only when going on has failed. -/
def repeatLazy (id body : NodeId) (capturing : Bool) (min : UInt32) (max : Bound)
    (next : Label) : List Instruction :=
  (if min = 0 then [] else [branchCount id .lt min.toNat (.againInner id 3)]) ++
  [.call next, place (.againInner id 3)] ++
  (match max with
    | .finite max => [branchCount id .ge max.toNat (.againFail id)]
    | .unbounded => []) ++
  repeatBody id body capturing

/-- Forgets the end of the repetition that was recorded last, and fails. -/
def unwind (id : NodeId) (capturing : Bool) : List Instruction :=
  [place (.againFail id)] ++
  (if capturing then [branchCount id .lt 1 .fail, .popPos id] else []) ++
  [.goto .fail]

/-- What decides on one more repetition of a group. It is reached when the group is entered and
after every repetition. -/
def repetition (id body : NodeId) (capturing : Bool) (q : Quantifier) (next : Label) :
    List Instruction :=
  closeSpan id capturing ++
  (if q.greedy then repeatGreedy id body capturing q.min q.max next
    else repeatLazy id body capturing q.min q.max next) ++
  unwind id capturing

/-- The condition of an anchor. -/
def anchorBlock (kind : Anchor) (next : Label) : List Instruction :=
  match kind with
  | .start => [branchIf .pos .ne (.imm 0) .fail, .goto next]
  | .finish => [branchIf .pos .ne .lastPos .fail, .goto next]
  | .lineStart =>
    [branchIf .pos .eq (.imm 0) next, .branch (.newline (-1) true) next, .goto .fail]
  | .lineEnd =>
    [branchIf .pos .eq .lastPos next, .branch (.newline 0 true) next, .goto .fail]

/-! ## Comments of blocks -/

/-- The name of the block of a node. -/
def nodeText (id : NodeId) : String := (Label.node id).text

/-- An anchor as listings show it. -/
def anchorText : Anchor → String
  | .start => "^anchor"
  | .finish => "anchor$"
  | .lineStart => "^^anchor"
  | .lineEnd => "anchor$$"

/-- A group as listings show it. -/
def groupText (body : NodeId) (capture : Option UInt32) (q : Quantifier) : String :=
  match capture with
  | some index =>
    "group " ++ toString index.toNat ++ " ( " ++ nodeText body ++ " ) " ++ q.text
  | none => "group [ " ++ nodeText body ++ " ] " ++ q.text

/-- The comment of the block of a node. -/
def blockComment : Pattern → String
  | .empty _ => "empty match"
  | .endMarker _ => "end of pattern"
  | .wildcard _ q => "wildcard " ++ q.text
  | .literal _ bytes q => "literal " ++ Quoted.text bytes ++ " " ++ q.text
  | .concat _ first second => "concat " ++ nodeText first.id ++ ", " ++ nodeText second.id
  | .alternation _ first second => "alt " ++ nodeText first.id ++ " | " ++ nodeText second.id
  | .group _ body capture q => groupText body.id capture q
  | .anchor _ kind => anchorText kind

/-- The instructions of a list, as directives. -/
def directives (is : List Instruction) : List Directive := is.map .instruction

end Lowering

open Lowering

namespace Pattern

/-- Whether a group needs no state: it is matched once, and its span is not recorded. -/
def isTransparent (capture : Option UInt32) (q : Quantifier) : Bool :=
  q.isOnce && capture.isNone

/-- The listing of a tree that goes on at `next`: for every node a place for a line marker, the head
of its block, and its instructions with those of its parts. -/
def lower (trace : Bool) (p : Pattern) (next : Label) : List Directive :=
  let start := .mark :: directives (head trace (.node p.id) (blockComment p))
  match p with
  | .empty _ => start ++ directives [.goto next]
  | .endMarker _ => start ++ directives [.yield, .goto .fail]
  | .wildcard id q => start ++ directives (wildcardBlock id q next)
  | .literal id bytes q => start ++ directives (literalBlock id bytes q next)
  | .concat _ first second =>
    start ++ first.lower trace (.node second.id) ++ second.lower trace next
  | .alternation _ first second =>
    start ++ directives [.call (.node first.id), .goto (.node second.id)] ++
      first.lower trace next ++ second.lower trace next
  | .group id body capture q =>
    if isTransparent capture q then start ++ body.lower trace next
    else
      start ++ directives (entry id capture.isSome) ++
        directives (head trace (.again id) ("repeat " ++ nodeText id)) ++
        directives (repetition id body.id capture.isSome q next) ++
        body.lower trace (.again id)
  | .anchor _ kind => start ++ directives (anchorBlock kind next)

/-- The groups that record spans, in the order of their blocks. -/
def captureSlots : Pattern → List CaptureSlot
  | .concat _ first second => first.captureSlots ++ second.captureSlots
  | .alternation _ first second => first.captureSlots ++ second.captureSlots
  | .group id body (some index) _ => ⟨index, id⟩ :: body.captureSlots
  | .group _ body none _ => body.captureSlots
  | _ => []

end Pattern

end PatternMachine
