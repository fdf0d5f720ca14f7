import PatternMachine.Pattern.Basic

/-!
# Labels

The places a program can jump to. Most belong to a node of the pattern.

* `Label` — the kinds of labels.
* `Label.isInner` — those that stand inside a block of the listing.
* `Label.text` — their names in the listing.
-/

set_option autoImplicit false

namespace PatternMachine

/-- A place that a program can jump to. -/
inductive Label where
  /-- The start of the search. -/
  | search
  /-- The loop that reports for ever that there is no further match. -/
  | failForever
  /-- The shared place of failure, which returns to the most recent call. -/
  | fail
  /-- The block of a node. -/
  | node (id : NodeId)
  /-- A place inside the block of a node. -/
  | inner (id : NodeId) (index : UInt8)
  /-- The part of a group that decides on one more repetition. -/
  | again (id : NodeId)
  /-- A place inside that part. -/
  | againInner (id : NodeId) (index : UInt8)
  /-- Where that part undoes its own doings and fails. -/
  | againFail (id : NodeId)
  deriving DecidableEq, Hashable, Repr

namespace Label

/-- Whether the label stands inside a block, where listings indent it. -/
def isInner : Label → Bool
  | .inner _ _ => true
  | .againInner _ _ => true
  | .againFail _ => true
  | .failForever => true
  | .fail => true
  | _ => false

/-- The name of a label in listings. -/
def text : Label → String
  | .search => "search"
  | .failForever => "fail_forever"
  | .fail => "fail"
  | .node id => "R" ++ toString id.toNat
  | .inner id index => "R" ++ toString id.toNat ++ "_" ++ toString index.toNat
  | .again id => "R" ++ toString id.toNat ++ "_repeat"
  | .againInner id index => "R" ++ toString id.toNat ++ "_repeat_" ++ toString index.toNat
  | .againFail id => "R" ++ toString id.toNat ++ "_repeat_fail"

end Label

end PatternMachine
