import PatternMachine.Pattern.Basic

/-!
# What a tree says about its matches

* `Pattern.startAnchored` — every match begins at offset 0, by the shape of the tree.
* `Pattern.matchesEmpty` — the tree can succeed without consuming a byte.
-/

set_option autoImplicit false

namespace PatternMachine.Pattern

/-- Whether the shape of the tree forces every match to begin at offset 0. A sequence keeps that
offset for its parts, so one anchored part is enough; a choice needs both. -/
def startAnchored : Pattern → Bool
  | .anchor _ .start => true
  | .concat _ first second => first.startAnchored || second.startAnchored
  | .alternation _ first second => first.startAnchored && second.startAnchored
  | .group _ body _ _ => body.startAnchored
  | _ => false

/-- Whether the tree can succeed without consuming a byte. Anchors count as able to, although each
holds only at some offsets. -/
def matchesEmpty : Pattern → Bool
  | .empty _ => true
  | .anchor _ _ => true
  | .endMarker _ => false
  | .wildcard _ q => q.min == 0
  | .literal _ bytes q => q.min == 0 || bytes.isEmpty
  | .concat _ first second => first.matchesEmpty && second.matchesEmpty
  | .alternation _ first second => first.matchesEmpty || second.matchesEmpty
  | .group _ body _ q => q.min == 0 || body.matchesEmpty

end PatternMachine.Pattern
