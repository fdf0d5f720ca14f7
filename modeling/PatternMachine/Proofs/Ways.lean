import Mathlib.Data.List.Sort
import PatternMachine.Search.Step

/-!
# What a pattern means

The meaning of a tree is told without the machine: at an offset, and with the spans that the groups
have recorded so far, a tree has an ordered list of *ways* to match.

* `PerNode`, `Records`, `Way` — a value for every node, the spans of every group, and how one match
  of a tree ends.
* `Anchor.holds`, `occursTimes`, `Quantifier.counts` — the conditions of anchors, and how often a
  unit can be repeated, in the order in which the counts are tried.
* `Quantifier.rounds` — the repetitions of a group, one after the other.
* `Pattern.ways` — the ways of a tree; `Pattern.capturesOf` — the spans of every capture index at
  the end of one, read off the groups of the tree.
* `Pattern.matchesFrom`, `Pattern.matchesAnywhere`, `Pattern.matchesIn` — the matches that begin at
  an offset, at any offset, and those that a search is to find.
* `Pattern.found` — the same meaning for trees that hold end markers, told by what is found: the
  ways are handed on as they come, and every end marker that is met reports a match.

Principal results: `mem_counts` — which counts are tried.  `rounds_enough` — the number of rounds
that is allowed for does not matter once it suffices, so it hides no repetition.
`found_eq_flatMap_ways` — without end markers, what is found is what the ways lead to.
-/

set_option autoImplicit false

namespace PatternMachine

/-! ## Values for nodes -/

/-- A value for every node. -/
abbrev PerNode (α : Type) := NodeId → α

namespace PerNode

variable {α : Type}

/-- The same values, but for one node. -/
def set (f : PerNode α) (id : NodeId) (a : α) : PerNode α :=
  fun other => if other = id then a else f other

@[simp] theorem set_self (f : PerNode α) (id : NodeId) (a : α) : f.set id a id = a := by
  simp [set]

theorem set_of_ne (f : PerNode α) {id other : NodeId} (a : α) (h : other ≠ id) :
    f.set id a other = f other := by
  simp [set, h]

@[simp] theorem set_set (f : PerNode α) (id : NodeId) (a b : α) :
    (f.set id a).set id b = f.set id b := by
  funext other
  by_cases h : other = id <;> simp [set, h]

theorem set_eq_self {f : PerNode α} {id : NodeId} {a : α} (h : f id = a) : f.set id a = f := by
  funext other
  by_cases ho : other = id
  · simp [set, ho, h]
  · simp [set, ho]

end PerNode

/-- The spans that every group has recorded. -/
abbrev Records := PerNode (List Span)

/-- No group has recorded a span. -/
def Records.none : Records := fun _ => []

/-- How a match of a tree ends: the offset behind it, and what the groups have recorded then. -/
structure Way where
  stop : Nat
  records : Records

/-! ## Units -/

/-- Whether an anchor holds at an offset. -/
def Anchor.holds (subject : Subject) : Anchor → Nat → Bool
  | .start, p => decide (p = 0)
  | .finish, p => decide (p = subject.size)
  | .lineStart, 0 => true
  | .lineStart, p + 1 => subject[p]? == some 10
  | .lineEnd, p => decide (p = subject.size) || subject[p]? == some 10

/-- Whether bytes stand a number of times in a row from an offset on. -/
def occursTimes (subject : Subject) (bytes : List UInt8) : Nat → Nat → Bool
  | 0, _ => true
  | k + 1, p => occursAt subject bytes p && occursTimes subject bytes k (p + bytes.length)

/-- A unit that occurs a number of times in a row occurs fewer times in a row, too. -/
theorem occursTimes_succ (subject : Subject) (bytes : List UInt8) (k p : Nat) :
    occursTimes subject bytes (k + 1) p =
      (occursTimes subject bytes k p && occursAt subject bytes (p + k * bytes.length)) := by
  induction k generalizing p with
  | zero => simp [occursTimes]
  | succ k ih =>
    rw [occursTimes, ih, occursTimes, Bool.and_assoc,
      show p + bytes.length + k * bytes.length = p + (k + 1) * bytes.length by
        rw [Nat.succ_mul]; omega]

theorem le_size_of_occursTimes {subject : Subject} {bytes : List UInt8} {k p : Nat}
    (hp : p ≤ subject.size) (h : occursTimes subject bytes k p = true) :
    p + k * bytes.length ≤ subject.size := by
  cases k with
  | zero => simpa using hp
  | succ k =>
    rw [occursTimes_succ, Bool.and_eq_true] at h
    have := (occursAt_iff.mp h.2).1
    rw [Nat.succ_mul]
    omega

/-- Whether a number of repetitions does not exceed a bound. -/
def Bound.covers : Bound → Nat → Bool
  | .finite count, k => decide (k ≤ count.toNat)
  | .unbounded, _ => true

/-- A condition on counts that is not regained once it is lost holds up to a largest one. -/
theorem exists_most {P : Nat → Prop} {size : Nat} (hzero : P 0) (hdown : ∀ k, P (k + 1) → P k)
    (hle : ∀ k, P k → k ≤ size) : ∃ most, most ≤ size ∧ ∀ k, P k ↔ k ≤ most := by
  induction size with
  | zero =>
    refine ⟨0, Nat.le_refl _, fun k => ⟨hle k, fun hk => ?_⟩⟩
    rwa [Nat.le_zero.mp hk]
  | succ size ih =>
    by_cases hP : P (size + 1)
    · have hbelow : ∀ d k, k + d = size + 1 → P k := by
        intro d
        induction d with
        | zero =>
          intro k hk
          rwa [show k = size + 1 from hk]
        | succ d ihd =>
          intro k hk
          exact hdown k (ihd (k + 1) (by omega))
      refine ⟨size + 1, Nat.le_refl _, fun k => ⟨hle k, fun hk => ?_⟩⟩
      exact hbelow (size + 1 - k) k (by omega)
    · obtain ⟨most, hmost, hiff⟩ := ih fun k hk => by
        have hne : k ≠ size + 1 := by
          rintro rfl
          exact hP hk
        have := hle k hk
        omega
      exact ⟨most, by omega, hiff⟩

namespace Quantifier

/-- The numbers of repetitions to be tried, in order, of those for which `occurs` holds. A unit has
at least one byte, so it does not occur more often than the subject has bytes. -/
def counts (q : Quantifier) (size : Nat) (occurs : Nat → Bool) : List Nat :=
  let ks := (List.range (size + 1)).filter fun k =>
    decide (q.min.toNat ≤ k) && q.max.covers k && occurs k
  if q.greedy then ks.reverse else ks

theorem of_mem_counts {q : Quantifier} {size k : Nat} {occurs : Nat → Bool}
    (h : k ∈ q.counts size occurs) :
    q.min.toNat ≤ k ∧ q.max.covers k = true ∧ occurs k = true := by
  have hmem : k ∈ (List.range (size + 1)).filter fun k =>
      decide (q.min.toNat ≤ k) && q.max.covers k && occurs k := by
    unfold counts at h
    cases hg : q.greedy <;> simpa [hg] using h
  have hcond := (List.mem_filter.mp hmem).2
  simp only [Bool.and_eq_true, decide_eq_true_eq] at hcond
  exact ⟨hcond.1.1, hcond.1.2, hcond.2⟩

/-- No count is missing when the unit cannot occur more often than the subject has bytes. -/
theorem mem_counts {q : Quantifier} {size k : Nat} {occurs : Nat → Bool}
    (hsize : occurs k = true → k ≤ size) :
    k ∈ q.counts size occurs ↔ q.min.toNat ≤ k ∧ q.max.covers k = true ∧ occurs k = true := by
  refine ⟨of_mem_counts, fun ⟨hmin, hmax, hoccurs⟩ => ?_⟩
  have := hsize hoccurs
  unfold counts
  cases q.greedy <;> simp [hmin, hmax, hoccurs] <;> omega

theorem filter_range_le (a n : Nat) :
    (List.range n).filter (fun k => decide (a ≤ k)) = List.range' a (n - a) := by
  induction n with
  | zero => simp
  | succ n ih =>
    rw [List.range_succ, List.filter_append, ih]
    by_cases h : a ≤ n
    · rw [show n + 1 - a = n - a + 1 by omega, List.range'_concat]
      simp [h]
    · rw [show n + 1 - a = 0 by omega, show n - a = 0 by omega]
      simp [h]

theorem filter_range_ge {b n : Nat} (h : b ≤ n) :
    (List.range (n + 1)).filter (fun k => decide (k ≤ b)) = List.range (b + 1) := by
  induction n with
  | zero =>
    obtain rfl : b = 0 := by omega
    rfl
  | succ n ih =>
    rw [List.range_succ, List.filter_append]
    by_cases hb : b = n + 1
    · subst hb
      rw [List.filter_eq_self.mpr (by simp; omega), List.range_succ (n := n + 1)]
      simp
    · rw [ih (by omega)]
      simp
      omega

/-- When a unit can be repeated exactly up to `most` times, the counts are an interval. -/
theorem counts_eq {q : Quantifier} {size most : Nat} {occurs : Nat → Bool} (hmost : most ≤ size)
    (h : ∀ k, (q.max.covers k = true ∧ occurs k = true) ↔ k ≤ most) :
    q.counts size occurs =
      if q.greedy then (List.range' q.min.toNat (most + 1 - q.min.toNat)).reverse
      else List.range' q.min.toNat (most + 1 - q.min.toNat) := by
  have hfilter : (List.range (size + 1)).filter (fun k =>
      decide (q.min.toNat ≤ k) && q.max.covers k && occurs k) =
      List.range' q.min.toNat (most + 1 - q.min.toNat) := by
    rw [← filter_range_le, ← filter_range_ge hmost, List.filter_filter]
    refine List.filter_congr fun k _ => ?_
    have := h k
    rw [Bool.and_assoc]
    congr 1
    rw [Bool.eq_iff_iff]
    simpa using this
  simp only [counts, hfilter]

/-- One more repetition first if greedy, and last if lazy. -/
def inOrder {α : Type} (q : Quantifier) (more stop : List α) : List α :=
  if q.greedy then more ++ stop else stop ++ more

theorem mem_inOrder {α : Type} {q : Quantifier} {more stop : List α} {a : α} :
    a ∈ q.inOrder more stop ↔ a ∈ more ∨ a ∈ stop := by
  unfold inOrder
  split <;> simp [or_comm]

/-- The largest number of repetitions that a group can begin in a subject: when there is no maximum,
every repetition but the last has consumed a byte. -/
def ceiling (q : Quantifier) (size : Nat) : Nat :=
  match q.max with
  | .finite count => count.toNat
  | .unbounded => size + 1

/-- What comes of a group that has made `k` repetitions and is at offset `p`. It goes on to `next`
if these are enough, and if they are not too many it makes one more: `body` finds the ends of the
repetition, and `note` tells how its span is recorded. At most `left` repetitions are begun. -/
def rounds {α : Type} (q : Quantifier)
    (body : (Nat → Records → List α) → Nat → Records → List α)
    (note : Nat → Nat → Records → Records) (next : Nat → Records → List α) :
    (left k p : Nat) → Records → List α
  | 0, k, p, records => q.inOrder [] (if q.min.toNat ≤ k then next p records else [])
  | left + 1, k, p, records =>
    q.inOrder
      (if q.max.admitsMore k then
        body (fun stop after => rounds q body note next left (k + 1) stop (note p stop after))
          p records
      else [])
      (if q.min.toNat ≤ k then next p records else [])

/-- Whether `left` more rounds are as many as there can be for a group at offset `p` that has made
`k` repetitions. -/
def Enough (q : Quantifier) (size left k p : Nat) : Prop :=
  match q.max with
  | .finite count => count.toNat ≤ left + k
  | .unbounded => size < left + p

theorem enough_ceiling (q : Quantifier) (size p : Nat) : q.Enough size (q.ceiling size) 0 p := by
  unfold Enough ceiling
  cases q.max with
  | finite count => simp
  | unbounded => simp; omega

/-- A round uses up one of those that are left: it makes one more repetition, and consumes a byte if
there is no maximum. -/
theorem Enough.next {q : Quantifier} {size left k p stop : Nat}
    (h : q.Enough size (left + 1) k p) (hstop : q.max = .unbounded → p < stop) :
    q.Enough size left (k + 1) stop := by
  unfold Enough at *
  cases hmax : q.max with
  | finite count => simp only [hmax] at h ⊢; omega
  | unbounded =>
    have := hstop hmax
    simp only [hmax] at h ⊢
    omega

/-- With no round left, no repetition can be made. -/
theorem Enough.admitsMore_eq_false {q : Quantifier} {size k p : Nat} (h : q.Enough size 0 k p)
    (hp : p ≤ size) : q.max.admitsMore k = false := by
  unfold Enough at h
  cases hmax : q.max with
  | finite count =>
    simp only [hmax] at h
    simp [Bound.admitsMore]
    omega
  | unbounded => simp only [hmax] at h; omega

/-- **The number of rounds that is allowed for does not matter, if it suffices.** The repetitions
may hand on only to offsets inside the subject, and to later ones if there is no maximum. -/
theorem rounds_enough {α : Type} {q : Quantifier} {size : Nat}
    {body : (Nat → Records → List α) → Nat → Records → List α}
    (note : Nat → Nat → Records → Records) (next : Nat → Records → List α)
    (hbody : ∀ f g p records, p ≤ size →
      (∀ stop after, p ≤ stop → stop ≤ size → (q.max = .unbounded → p < stop) →
        f stop after = g stop after) → body f p records = body g p records)
    {left left' k p : Nat} {records : Records} (hp : p ≤ size)
    (h : q.Enough size left k p) (h' : q.Enough size left' k p) :
    q.rounds body note next left k p records = q.rounds body note next left' k p records := by
  induction left generalizing left' k p records with
  | zero =>
    have hno := h.admitsMore_eq_false hp
    cases left' <;> simp [rounds, hno]
  | succ left ih =>
    cases left' with
    | zero =>
      have hno := h'.admitsMore_eq_false hp
      simp [rounds, hno]
    | succ left' =>
      have hmore := hbody
        (fun stop after => q.rounds body note next left (k + 1) stop (note p stop after))
        (fun stop after => q.rounds body note next left' (k + 1) stop (note p stop after))
        p records hp (fun stop after _ hle hlt => ih hle (h.next hlt) (h'.next hlt))
      simp only [rounds, hmore]

end Quantifier

/-- The records after a repetition of a group. Only a group with a capture index keeps spans. -/
def Records.note (id : NodeId) (capture : Option UInt32) (start stop : Nat) (records : Records) :
    Records :=
  if capture.isSome then records.set id (records id ++ [⟨start, stop⟩]) else records

/-! ## Trees -/

namespace Pattern

/-- The ways of a tree at an offset, in the order in which they are tried. An end marker has no way
on: what follows it is never tried. -/
def ways (subject : Subject) : Pattern → Nat → Records → List Way
  | .empty _, p, records => [⟨p, records⟩]
  | .endMarker _, _, _ => []
  | .wildcard _ q, p, records =>
    (q.counts subject.size fun k => decide (p + k ≤ subject.size)).map fun k => ⟨p + k, records⟩
  | .literal _ bytes q, p, records =>
    (q.counts subject.size fun k => occursTimes subject bytes k p).map fun k =>
      ⟨p + k * bytes.length, records⟩
  | .concat _ first second, p, records =>
    (first.ways subject p records).flatMap fun w => second.ways subject w.stop w.records
  | .alternation _ first second, p, records =>
    first.ways subject p records ++ second.ways subject p records
  | .group id body capture q, p, records =>
    q.rounds
      (fun onward p records =>
        (body.ways subject p records).flatMap fun w => onward w.stop w.records)
      (Records.note id capture) (fun stop records => [⟨stop, records⟩])
      (q.ceiling subject.size) 0 p (records.set id [])
  | .anchor _ kind, p, records => if kind.holds subject p then [⟨p, records⟩] else []

/-- The groups of a tree that have a capture index, with their indexes. -/
def captureGroups (tree : Pattern) : List (NodeId × UInt32) :=
  tree.nodes.filterMap fun
    | .group id _ (some index) _ => some (id, index)
    | _ => none

/-- The groups of a tree that record under an index, by ascending number. -/
def groupsUnder (tree : Pattern) (index : UInt32) : List NodeId :=
  ((tree.captureGroups.filter fun group => group.2 = index).map Prod.fst).insertionSort (· ≤ ·)

/-- The spans under an index in the match that a way makes: what the groups of this index have
recorded, one group after the other, and under index 0 the whole match behind them. -/
def spansUnder (tree : Pattern) (start : Nat) (w : Way) (index : UInt32) : List Span :=
  (tree.groupsUnder index).flatMap w.records ++ if index = 0 then [⟨start, w.stop⟩] else []

/-- The spans of every index that has any in the match that a way makes. -/
def capturesOf (tree : Pattern) (start : Nat) (w : Way) : Captures :=
  .ofList (((0 :: tree.captureGroups.map Prod.snd).map fun index =>
    (index, tree.spansUnder start w index)).filter fun entry => entry.2 ≠ [])

/-- The match that a way of a tree makes. -/
def matchOf (tree : Pattern) (start : Nat) (w : Way) : Match :=
  ⟨⟨start, w.stop⟩, tree.capturesOf start w⟩

/-- The matches of a tree that begin at an offset. -/
def matchesFrom (tree : Pattern) (subject : Subject) (start : Nat) : List Match :=
  (tree.ways subject start .none).map (tree.matchOf start)

/-- The matches of a tree when every offset of the subject is tried in ascending order. -/
def matchesAnywhere (tree : Pattern) (subject : Subject) : List Match :=
  (List.range (subject.size + 1)).flatMap (tree.matchesFrom subject)

/-- The matches of a tree in a subject. A tree that is anchored by its shape is tried at the start
alone, all others at every offset. -/
def matchesIn (tree : Pattern) (subject : Subject) : List Match :=
  if tree.startAnchored then tree.matchesFrom subject 0 else tree.matchesAnywhere subject

/-- Whether a tree holds no end marker. -/
def endFree : Pattern → Bool
  | .endMarker _ => false
  | .concat _ first second => first.endFree && second.endFree
  | .alternation _ first second => first.endFree && second.endFree
  | .group _ body _ _ => body.endFree
  | _ => true

/-- What is found when every way of a tree is handed on to `next`. An end marker reports a match and
is not passed. -/
def found {α : Type} (subject : Subject) (report : Nat → Records → α) :
    Pattern → (Nat → Records → List α) → Nat → Records → List α
  | .empty _, next, p, records => next p records
  | .endMarker _, _, p, records => [report p records]
  | .wildcard _ q, next, p, records =>
    (q.counts subject.size fun k => decide (p + k ≤ subject.size)).flatMap fun k =>
      next (p + k) records
  | .literal _ bytes q, next, p, records =>
    (q.counts subject.size fun k => occursTimes subject bytes k p).flatMap fun k =>
      next (p + k * bytes.length) records
  | .concat _ first second, next, p, records =>
    first.found subject report (second.found subject report next) p records
  | .alternation _ first second, next, p, records =>
    first.found subject report next p records ++ second.found subject report next p records
  | .group id body capture q, next, p, records =>
    q.rounds (fun onward => body.found subject report onward) (Records.note id capture) next
      (q.ceiling subject.size) 0 p (records.set id [])
  | .anchor _ kind, next, p, records => if kind.holds subject p then next p records else []

/-- A group that is matched exactly once finds what its body finds. -/
theorem found_once {α : Type} (subject : Subject) (report : Nat → Records → α) (id : NodeId)
    (body : Pattern) (capture : Option UInt32) {q : Quantifier} (hq : q.isOnce = true)
    (next : Nat → Records → List α) (p : Nat) (records : Records) :
    (Pattern.group id body capture q).found subject report next p records =
      body.found subject report
        (fun stop after => next stop (Records.note id capture p stop after)) p
        (records.set id []) := by
  obtain ⟨hmin, hmax⟩ := Quantifier.isOnce_iff.mp hq
  have hstop : ∀ stop after,
      q.rounds (fun onward => body.found subject report onward) (Records.note id capture) next 0 1
        stop after = next stop after := by
    intro stop after
    cases hg : q.greedy <;> simp [Quantifier.rounds, Quantifier.inOrder, hmin, hg]
  have hadmits : q.max.admitsMore 0 = true := by rw [hmax]; rfl
  have hnot : ¬ q.min.toNat ≤ 0 := by rw [hmin]; decide
  have hceiling : q.ceiling subject.size = 0 + 1 := by rw [Quantifier.ceiling, hmax]; rfl
  rw [found, hceiling, Quantifier.rounds, if_pos hadmits, if_neg hnot]
  simp only [Nat.zero_add, hstop]
  cases hg : q.greedy <;> simp [Quantifier.inOrder, hg]

end Pattern

/-- What the rounds of a group find is what comes of the ways that they find. -/
theorem Quantifier.rounds_eq_flatMap {α : Type} (q : Quantifier)
    (ways : Nat → Records → List Way)
    {body : (Nat → Records → List α) → Nat → Records → List α}
    (hbody : ∀ f p records, body f p records =
      (ways p records).flatMap fun w => f w.stop w.records)
    (note : Nat → Nat → Records → Records) (next : Nat → Records → List α)
    (left k p : Nat) (records : Records) :
    q.rounds body note next left k p records =
      (q.rounds (fun onward p records =>
        (ways p records).flatMap fun w => onward w.stop w.records)
        note (fun stop records => [(⟨stop, records⟩ : Way)]) left k p records).flatMap
          fun w => next w.stop w.records := by
  have hstop : ∀ k p records,
      (if q.min.toNat ≤ k then next p records else []) =
        (if q.min.toNat ≤ k then [(⟨p, records⟩ : Way)] else []).flatMap
          fun w => next w.stop w.records := by
    intro k p records
    split <;> simp
  induction left generalizing k p records with
  | zero =>
    rw [rounds, rounds, hstop]
    cases hg : q.greedy <;> simp [inOrder, hg]
  | succ left ih =>
    have hmore :
        body (fun stop after => q.rounds body note next left (k + 1) stop (note p stop after))
          p records =
        ((ways p records).flatMap fun w =>
          q.rounds (fun onward p records =>
            (ways p records).flatMap fun w => onward w.stop w.records)
            note (fun stop records => [(⟨stop, records⟩ : Way)]) left (k + 1) w.stop
            (note p w.stop w.records)).flatMap fun w => next w.stop w.records := by
      rw [hbody, List.flatMap_assoc]
      congr 1
      funext w
      exact ih _ _ _
    rw [rounds, rounds, hstop, hmore]
    cases hg : q.greedy <;> cases ha : q.max.admitsMore k <;>
      simp [inOrder, hg, List.flatMap_append]

/-- **Without end markers, what is found is what the ways lead to.** -/
theorem Pattern.found_eq_flatMap_ways {α : Type} (subject : Subject) (report : Nat → Records → α)
    {tree : Pattern} (h : tree.endFree = true) (next : Nat → Records → List α) (p : Nat)
    (records : Records) :
    tree.found subject report next p records =
      (tree.ways subject p records).flatMap fun w => next w.stop w.records := by
  induction tree generalizing next p records with
  | empty id => simp [found, ways]
  | endMarker id => cases h
  | wildcard id q => simp [found, ways, List.flatMap_map]
  | literal id bytes q => simp [found, ways, List.flatMap_map]
  | concat id a b iha ihb =>
    simp only [endFree, Bool.and_eq_true] at h
    rw [found, ways, iha h.1, List.flatMap_assoc]
    congr 1
    funext w
    exact ihb h.2 _ _ _
  | alternation id a b iha ihb =>
    simp only [endFree, Bool.and_eq_true] at h
    rw [found, ways, iha h.1, ihb h.2, List.flatMap_append]
  | group id body capture q ih =>
    exact q.rounds_eq_flatMap (body.ways subject) (fun f p records => ih h f p records) _ _ _ _ _ _
  | anchor id kind =>
    rw [found, ways]
    split <;> simp

end PatternMachine
