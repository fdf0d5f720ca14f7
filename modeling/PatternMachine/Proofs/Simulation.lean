import PatternMachine.Proofs.Reaching
import PatternMachine.Proofs.Repetitions

/-!
# The code of a tree finds what the tree means

* `Groups.records` — the spans that groups with a capture index have recorded.
* `InRounds` — what holds whenever a group decides on one more repetition.
* `Grounds`, `Pattern.Agrees` — what the blocks of a tree rely on in the program around them.

Principal results: `InRounds.next` — every repetition keeps the invariant.  `again_serves` — so a
group finds what the rounds of the reference meaning find.  `code_serves` — the code of a tree finds
what the tree means, if its continuation does.
-/

set_option autoImplicit false

namespace PatternMachine

open Lowering

/-! ## Records -/

/-- Marks that are complete do not take part in what is recorded behind them. -/
theorem spansOf_append : ∀ {xs : List Nat} (ys : List Nat), xs.length % 2 = 0 →
    spansOf (xs ++ ys) = spansOf xs ++ spansOf ys
  | [], _, _ => rfl
  | [_], _, h => by simp at h
  | x :: y :: xs, ys, h => by
    have heven : xs.length % 2 = 0 := by
      simp only [List.length_cons] at h
      omega
    simp [spansOf, spansOf_append ys heven]

/-- The marks of a stay are complete: each two make a span. -/
def Activation.Complete (stay : Activation) : Prop := stay.marks.length % 2 = 0

namespace Groups

/-- The spans that groups with a capture index have recorded in their current stays. -/
def records (capturing : PerNode Bool) (groups : Groups) : Records := fun id =>
  if capturing id then groups.spans id else []

variable {capturing : PerNode Bool} {groups : Groups} {id : NodeId} {p : Nat}

/-- A new stay has recorded nothing. -/
theorem records_enter :
    records capturing (groups.set id (groups id).enter) =
      (groups.records capturing).set id [] := by
  funext other
  by_cases ho : other = id
  · subst ho
    simp [records, spans, GroupState.enter, Activation.new, Activation.spans, spansOf]
  · simp only [records, spans, PerNode.set_of_ne _ _ ho]

/-- A repetition that has begun has recorded nothing yet. -/
theorem records_begun (hcomplete : capturing id = true → (groups id).current.Complete) :
    (groups.begun id (capturing id) p).records capturing = groups.records capturing := by
  funext other
  by_cases ho : other = id
  · subst ho
    unfold records
    cases hc : capturing other with
    | false => rfl
    | true =>
      simp only [spans, begun, if_true, PerNode.set_self, GroupState.push, GroupState.countUp,
        Activation.spans, List.reverse_cons]
      rw [spansOf_append _ (by rw [List.length_reverse]; exact hcomplete hc)]
      simp [spansOf]
  · simp only [records, spans, begun_of_ne ho]

/-- The end of a repetition completes its span. -/
theorem records_closed {capture : Option UInt32} {start : Nat} {marks : List Nat}
    (hcapture : capturing id = capture.isSome) (hcount : (groups id).current.count ≠ 0)
    (hmarks : capturing id = true →
      (groups id).current.marks = start :: marks ∧ marks.length % 2 = 0) :
    (groups.closed id (capturing id) p).records capturing =
      Records.note id capture start p (groups.records capturing) := by
  unfold Records.note
  rw [← hcapture]
  cases hc : capturing id with
  | false => simp [closed]
  | true =>
    obtain ⟨hmarks, heven⟩ := hmarks hc
    rw [if_pos rfl, closed, if_pos ⟨rfl, hcount⟩]
    funext other
    by_cases ho : other = id
    · subst ho
      simp only [records, hc, if_true, spans, PerNode.set_self, GroupState.push, Activation.spans,
        hmarks, List.reverse_cons, List.append_assoc, List.cons_append, List.nil_append]
      rw [spansOf_append _ (by simpa using heven), spansOf_append _ (by simpa using heven)]
      simp [spansOf]
    · simp only [records, spans, PerNode.set_of_ne _ _ ho]

/-- Matches show the groups of the slots alone. -/
theorem report_records {slots : List CaptureSlot}
    (hslots : ∀ slot ∈ slots, capturing slot.group = true) :
    (groups.records capturing).report slots p = groups.spans.report slots p := by
  have hcaptures : ∀ start : Captures,
      slots.foldl (fun captures slot =>
        captures.append slot.index (groups.records capturing slot.group)) start =
      slots.foldl (fun captures slot =>
        captures.append slot.index (groups.spans slot.group)) start := by
    induction slots with
    | nil => exact fun _ => rfl
    | cons slot slots ih =>
      intro start
      have hslot : groups.records capturing slot.group = groups.spans slot.group :=
        if_pos (hslots slot (by simp))
      rw [List.foldl_cons, List.foldl_cons, hslot]
      exact ih (fun other ho => hslots other (by simp [ho])) _
  unfold Records.report Records.captures
  rw [hcaptures]

end Groups

/-! ## Rounds -/

/-- What holds when the group `id`, which was entered at offset `start` when the groups were in the
states `before`, decides on one more repetition at offset `p` after `k` of them. -/
structure InRounds (id : NodeId) (body : Pattern) (capturing : Bool) (q : Quantifier)
    (subject : Subject) (start : Nat) (before : Groups) (k p : Nat) (groups : Groups) : Prop
    extends Repeated id body subject start before k p groups where
  count : (groups id).current.count = k
  active : (groups id).outer ≠ []
  covers : q.max.covers k = true
  consumed : q.max = .unbounded → k ≤ p
  complete : capturing = true → (groups.closed id capturing p id).current.Complete

section

variable {id : NodeId} {body : Pattern} {capturing : PerNode Bool} {q : Quantifier}
variable {subject : Subject} {start k p stop : Nat} {before groups after : Groups}

/-- The invariant holds when the group has been entered. -/
theorem InRounds.init (hp : p ≤ subject.size) :
    InRounds id body (capturing id) q subject p groups 0 p
      (groups.set id (groups id).enter) where
  toRepeated := .init hp fun other ho => PerNode.set_of_ne _ _ ho
  count := by simp [GroupState.enter, Activation.new]
  active := by simp [GroupState.enter]
  covers := by cases q.max <;> simp [Bound.covers]
  consumed := fun _ => Nat.zero_le _
  complete := by
    intro _
    rw [Groups.closed_of_count (by simp [GroupState.enter, Activation.new])]
    simp [GroupState.enter, Activation.new, Activation.Complete]

/-- The number of repetitions stays below the ceiling when one more is begun. -/
theorem InRounds.lt_ceiling (h : InRounds id body (capturing id) q subject start before k p groups)
    (hsize : subject.size < 2 ^ 63) (hadmits : q.max.admitsMore k = true) :
    k < q.ceiling subject.size ∧ k + 1 < wordSize := by
  unfold Quantifier.ceiling wordSize
  have hle := h.le_size
  cases hmax : q.max with
  | finite count =>
    have hlt : k < count.toNat := by simpa [hmax, Bound.admitsMore] using hadmits
    have hword := count.toNat_lt
    exact ⟨hlt, by omega⟩
  | unbounded =>
    have := h.consumed hmax
    exact ⟨by simp only; omega, by omega⟩

/-- The marks of a group that records spans, when a repetition has come to its end. -/
theorem InRounds.marks (h : InRounds id body (capturing id) q subject start before k p groups)
    (hid : id ∉ body.ids) (hc : capturing id = true)
    (hreach : Reaches body subject p ((groups.closed id (capturing id) p).begun id (capturing id) p)
      stop after) :
    (after id).current.marks = p :: (groups.closed id (capturing id) p id).current.marks ∧
      (groups.closed id (capturing id) p id).current.marks.length % 2 = 0 := by
  refine ⟨?_, h.complete hc⟩
  rw [hreach.same id hid, Groups.begun, PerNode.set_self, if_pos hc]
  rfl

theorem InRounds.count_after
    (h : InRounds id body (capturing id) q subject start before k p groups)
    (hid : id ∉ body.ids) (hword : k + 1 < wordSize)
    (hreach : Reaches body subject p ((groups.closed id (capturing id) p).begun id (capturing id) p)
      stop after) : (after id).current.count = k + 1 := by
  rw [hreach.same id hid, Groups.count_begun (by simpa [h.count] using hword), Groups.count_closed,
    h.count]

/-- **Every repetition keeps the invariant.** -/
theorem InRounds.next (h : InRounds id body (capturing id) q subject start before k p groups)
    (hid : id ∉ body.ids) (hempty : q.max = .unbounded → body.matchesEmpty = false)
    (hword : k + 1 < wordSize) (hadmits : q.max.admitsMore k = true)
    (hreach : Reaches body subject p ((groups.closed id (capturing id) p).begun id (capturing id) p)
      stop after) :
    InRounds id body (capturing id) q subject start before (k + 1) stop after where
  toRepeated := Repeated.next
    (h.toRepeated.congr fun other ho => (Groups.begun_of_ne ho).trans (Groups.closed_of_ne ho))
    hreach
  count := h.count_after hid hword hreach
  active := by simpa [hreach.same id hid] using h.active
  covers := by
    cases hmax : q.max with
    | unbounded => rfl
    | finite count =>
      have : k < count.toNat := by simpa [hmax, Bound.admitsMore] using hadmits
      exact decide_eq_true (show k + 1 ≤ count.toNat by omega)
  consumed := by
    intro hmax
    have := h.consumed hmax
    have := hreach.lt (hempty hmax)
    omega
  complete := by
    intro hc
    obtain ⟨hmarks, heven⟩ := h.marks hid hc hreach
    have hcount : (after id).current.count ≠ 0 := by
      rw [h.count_after hid hword hreach]
      exact Nat.succ_ne_zero k
    rw [Groups.closed, if_pos ⟨hc, hcount⟩, PerNode.set_self]
    simp only [Activation.Complete, GroupState.push, hmarks, List.length_cons]
    omega

/-- The span of a repetition that has come to its end is recorded. -/
theorem InRounds.records_next {capture : Option UInt32}
    (h : InRounds id body (capturing id) q subject start before k p groups)
    (hid : id ∉ body.ids) (hword : k + 1 < wordSize) (hcapture : capturing id = capture.isSome)
    (hreach : Reaches body subject p ((groups.closed id (capturing id) p).begun id (capturing id) p)
      stop after) :
    (after.closed id (capturing id) stop).records capturing =
      Records.note id capture p stop (after.records capturing) := by
  have hcount : (after id).current.count ≠ 0 := by
    rw [h.count_after hid hword hreach]
    exact Nat.succ_ne_zero k
  exact Groups.records_closed hcapture hcount fun hc => h.marks hid hc hreach

/-- When the group is left after enough repetitions, it hands on. -/
theorem InRounds.reaches {capture : Option UInt32}
    (h : InRounds id body (capturing id) q subject start before k p groups)
    (hk : q.min.toNat ≤ k) :
    Reaches (.group id body capture q) subject start before p
      (groups.closed id (capturing id) p) :=
  (h.toRepeated.congr fun _ ho => Groups.closed_of_ne ho).reaches capture hk

end

/-! ## Trees -/

/-- What the blocks of a tree rely on in the program around them. -/
structure Grounds (program : Program) (subject : Subject) (ceiling : PerNode Nat)
    (capturing : PerNode Bool) : Prop where
  linked : program.Linked
  fails : Fails program subject ceiling
  size : subject.size < 2 ^ 63
  slots : ∀ slot ∈ program.captures, capturing slot.group = true

/-- The ceilings of the groups of a tree, and whether they record spans, are as their nodes say. -/
def Pattern.Agrees (size : Nat) (ceiling : PerNode Nat) (capturing : PerNode Bool)
    (tree : Pattern) : Prop :=
  ∀ id body capture q, .group id body capture q ∈ tree.nodes →
    ceiling id = q.ceiling size ∧ capturing id = capture.isSome

theorem Pattern.Agrees.of_nodes {size : Nat} {ceiling : PerNode Nat} {capturing : PerNode Bool}
    {part tree : Pattern} (h : tree.Agrees size ceiling capturing)
    (hpart : ∀ n ∈ part.nodes, n ∈ tree.nodes) : part.Agrees size ceiling capturing :=
  fun id body capture q hmem => h id body capture q (hpart _ hmem)

theorem Quantifier.covers_min {q : Quantifier} (h : q.isValid = true) :
    q.max.covers q.min.toNat = true := by
  unfold isValid at h
  cases hmax : q.max with
  | unbounded => rfl
  | finite count =>
    simp only [hmax, decide_eq_true_eq] at h
    exact decide_eq_true (UInt32.le_iff_toNat_le.mp h)

section

variable {program : Program} {subject : Subject} {ceiling : PerNode Nat}
variable {capturing : PerNode Bool} {trace : Bool} {next : Label}

/-- Falling through to the code of a tree is the same as going on at its label. -/
theorem Serves.fall_through {tree : Pattern} {a : Nat} {is : List Instruction} {rs : Registers}
    {groups : Groups} {ms : List Match}
    (h : Serves program subject ceiling (.node tree.id) rs.pos groups ms) (hl : program.Linked)
    (hat : program.HasAt a (tree.code trace next ++ is)) :
    Returns program subject ceiling a rs groups groups ms := by
  obtain ⟨b, hb, hreturns⟩ := h
  obtain ⟨js, hcode⟩ := tree.code_eq_head trace next
  have hblock : program.resolve? (.node tree.id) = some a := by
    rw [hcode, head] at hat
    cases trace <;> exact hl.resolve hat
  obtain rfl : b = a := Option.some.inj (hb.symm.trans hblock)
  exact hreturns rs rfl

/-- **A group finds what its rounds find.** -/
theorem again_serves {id : NodeId} {body : Pattern} {capture : Option UInt32} {q : Quantifier}
    {a start : Nat} {before : Groups} {is : List Instruction} {comment : String}
    (onward : Nat → Records → List Match) (report : Nat → Records → Match)
    (hg : Grounds program subject ceiling capturing)
    (hceiling : ceiling id = q.ceiling subject.size) (hcapture : capturing id = capture.isSome)
    (hid : id ∉ body.ids) (hempty : q.max = .unbounded → body.matchesEmpty = false)
    (h : program.HasAt a (head trace (.again id) comment ++
      (repetition id body.id capture.isSome q next ++ is)))
    (hbody : ∀ p (groups : Groups) (f : Nat → Records → List Match), p ≤ subject.size →
      (∀ stop (after : Groups), Reaches body subject p groups stop after →
        Serves program subject ceiling (.again id) stop after
          (f stop (after.records capturing))) →
      Serves program subject ceiling (.node body.id) p groups
        (body.found subject report f p (groups.records capturing)))
    (hnext : ∀ stop (after : Groups),
      Reaches (.group id body capture q) subject start before stop after →
        Serves program subject ceiling next stop after (onward stop (after.records capturing)))
    {left k p : Nat} {groups : Groups}
    (hrounds : InRounds id body (capturing id) q subject start before k p groups)
    (henough : q.Enough subject.size left k p) :
    Serves program subject ceiling (.again id) p groups
      (q.rounds (fun f => body.found subject report f) (Records.note id capture) onward left k p
        ((groups.closed id (capturing id) p).records capturing)) := by
  rw [← hcapture] at h
  induction left generalizing k p groups with
  | zero =>
    have hno := henough.admitsMore_eq_false hrounds.le_size
    refine Serves.of_head hg.linked h fun b h rs hrs => ?_
    subst hrs
    have hnone : q.max.admitsMore (groups id).current.count = true → False := by
      rw [hrounds.count, hno]
      exact nofun
    -- no repetition is begun, so that it does not matter what it would find
    have hreturns : Returns program subject ceiling b rs groups groups
        (q.inOrder (if q.max.admitsMore (groups id).current.count then [] else [])
          (if q.min.toNat ≤ (groups id).current.count then
            onward rs.pos ((groups.closed id (capturing id) rs.pos).records capturing) else [])) :=
      repetition_returns hg.linked hg.fails h hrounds.active (fun h => (hnone h).elim)
        (fun h => (hnone h).elim) fun hk => hnext _ _ (hrounds.reaches (hrounds.count ▸ hk))
    rwa [ite_self, hrounds.count] at hreturns
  | succ left ih =>
    refine Serves.of_head hg.linked h fun b h rs hrs => ?_
    subst hrs
    rw [Quantifier.rounds, ← hrounds.count]
    refine repetition_returns hg.linked hg.fails h hrounds.active ?_ ?_ ?_
    · intro hadmits
      rw [hrounds.count] at hadmits ⊢
      rw [hceiling]
      exact hrounds.lt_ceiling hg.size hadmits
    · intro hadmits
      rw [hrounds.count] at hadmits ⊢
      have hword := (hrounds.lt_ceiling hg.size hadmits).2
      have hrecords := Groups.records_begun (p := rs.pos) (fun hc => hrounds.complete hc)
      rw [← hrecords]
      refine hbody _ _ _ hrounds.le_size fun stop after hreach => ?_
      have hround := hrounds.next hid hempty hword hadmits hreach
      rw [← hrounds.records_next hid hword hcapture hreach]
      exact ih hround (henough.next fun hmax => hreach.lt (hempty hmax))
    · intro hk
      exact hnext _ _ (hrounds.reaches (hrounds.count ▸ hk))

/-- A group that needs no state finds what its body finds. -/
theorem found_transparent {id : NodeId} {body : Pattern} {capture : Option UInt32}
    {q : Quantifier} (onward : Nat → Records → List Match) (report : Nat → Records → Match)
    (ht : Pattern.isTransparent capture q = true) {p : Nat} {records : Records}
    (hrecords : records id = []) :
    (Pattern.group id body capture q).found subject report onward p records =
      body.found subject report onward p records := by
  obtain ⟨honce, hcapture⟩ := Bool.and_eq_true_iff.mp ht
  obtain rfl : capture = none := by simpa using hcapture
  rw [Pattern.found_once _ _ _ _ _ honce, PerNode.set_eq_self hrecords]
  rfl

/-- **The code of a tree finds what the tree means**, if the label to which it hands on finds what
`onward` says. -/
theorem code_serves {limit : Nat} {tree : Pattern} (hg : Grounds program subject ceiling capturing)
    (hwf : tree.WellFormed limit) (hagrees : tree.Agrees subject.size ceiling capturing)
    {a p : Nat} {groups : Groups} {is : List Instruction} {onward : Nat → Records → List Match}
    (h : program.HasAt a (tree.code trace next ++ is)) (hp : p ≤ subject.size)
    (hnext : ∀ stop (after : Groups), Reaches tree subject p groups stop after →
      Serves program subject ceiling next stop after (onward stop (after.records capturing))) :
    Serves program subject ceiling (.node tree.id) p groups
      (tree.found subject (fun p records => records.report program.captures p) onward p
        (groups.records capturing)) := by
  induction tree generalizing next a p groups is onward with
  | empty id =>
    rw [Pattern.code_empty, List.append_assoc] at h
    refine Serves.of_head hg.linked h fun b h rs hrs => ?_
    subst hrs
    exact .gotoTo h (hnext _ _ (.here rfl hp))
  | endMarker id =>
    rw [Pattern.code_endMarker, List.append_assoc] at h
    refine Serves.of_head hg.linked h fun b h rs hrs => ?_
    subst hrs
    rw [Pattern.found, Groups.report_records hg.slots]
    exact .yield h fun h => .gotoTo h (hg.fails _ _)
  | wildcard id q =>
    rw [Pattern.code_wildcard, List.append_assoc] at h
    refine Serves.of_head hg.linked h fun b h rs hrs => ?_
    refine wildcardBlock_returns hg.linked hg.fails hg.size h.left hrs hp fun k hk hmax hle => ?_
    refine hnext _ _ (.of_le (Nat.le_add_right _ _) hle fun hempty => ?_)
    have := Quantifier.pos_of_min hempty
    omega
  | literal id bytes q =>
    rw [Pattern.code_literal, List.append_assoc] at h
    obtain ⟨hbytes, hvalid⟩ := hwf.literal
    refine Serves.of_head hg.linked h fun b h rs hrs => ?_
    refine literalBlock_returns hg.linked hg.fails hg.size h.left hrs hp hbytes
      (Quantifier.covers_min hvalid) fun k hk hmax hoccurs => ?_
    refine hnext _ _ (.of_le (Nat.le_add_right _ _) (le_size_of_occursTimes hp hoccurs) ?_)
    intro hempty
    have := Quantifier.pos_of_min (Bool.or_eq_false_iff.mp hempty).1
    have : 0 < k * bytes.length := Nat.mul_pos (by omega) hbytes
    omega
  | concat id first second ihFirst ihSecond =>
    have hparts := hwf.concat
    rw [Pattern.code_concat, List.append_assoc, List.append_assoc] at h
    refine Serves.of_head hg.linked h fun b h rs hrs => ?_
    subst hrs
    refine Serves.fall_through ?_ hg.linked h
    refine ihFirst hparts.first (hagrees.of_nodes fun n hn => by simp [Pattern.nodes, hn]) h hp
      fun mid between hfirst => ?_
    refine ihSecond hparts.second (hagrees.of_nodes fun n hn => by simp [Pattern.nodes, hn])
      h.right hfirst.le_size fun stop after hsecond => ?_
    exact hnext _ _ (hfirst.concat id hsecond)
  | alternation id first second ihFirst ihSecond =>
    have hparts := hwf.alternation
    rw [Pattern.code_alternation, List.append_assoc, List.append_assoc, List.append_assoc] at h
    refine Serves.of_head hg.linked h fun b h rs hrs => ?_
    subst hrs
    refine .call h ?_ fun h => .gotoTo h ?_
    · refine ihFirst hparts.first (hagrees.of_nodes fun n hn => by simp [Pattern.nodes, hn])
        h.right hp fun stop after hfirst => ?_
      exact hnext _ _ (hfirst.alternation id (Or.inl rfl))
    · refine ihSecond hparts.second (hagrees.of_nodes fun n hn => by simp [Pattern.nodes, hn])
        h.tail.right.right hp fun stop after hsecond => ?_
      exact hnext _ _ (hsecond.alternation id (Or.inr rfl))
  | group id body capture q ih =>
    obtain ⟨hbody, hid, -, hempty⟩ := hwf.group
    obtain ⟨hceiling, hcapture⟩ := hagrees id body capture q (Pattern.self_mem_nodes _)
    have hinside : body.Agrees subject.size ceiling capturing :=
      hagrees.of_nodes fun n hn => by simp [Pattern.nodes, hn]
    cases ht : Pattern.isTransparent capture q with
    | true =>
      rw [Pattern.code_group_transparent _ _ _ _ _ _ ht, List.append_assoc] at h
      have hrecords : groups.records capturing id = [] := by
        have hnone := (Bool.and_eq_true_iff.mp ht).2
        simp [Groups.records, hcapture, Option.isNone_iff_eq_none.mp hnone]
      rw [found_transparent onward _ ht hrecords]
      refine Serves.of_head hg.linked h fun b h rs hrs => ?_
      subst hrs
      refine Serves.fall_through ?_ hg.linked h
      refine ih hbody hinside h hp fun stop after hreach => hnext _ _ ?_
      refine ⟨hreach.le, hreach.le_size, ?_, ?_⟩
      · intro hgroup
        exact hreach.lt (Bool.or_eq_false_iff.mp hgroup).2
      · intro other ho
        simp only [Pattern.ids, Pattern.nodes, List.map_cons, List.mem_cons, not_or] at ho
        exact hreach.same other ho.2
    | false =>
      simp only [Pattern.code_group _ _ _ _ _ _ ht, List.append_assoc] at h
      refine Serves.of_head hg.linked h fun b h rs hrs => ?_
      subst hrs
      refine entry_returns hg.fails h ?_
      have hagain := again_serves onward
        (fun p records => records.report program.captures p) hg hceiling hcapture hid hempty h.right
        (fun p groups f hp hf => ih hbody hinside h.right.right.right hp hf) hnext
        (InRounds.init hp) (q.enough_ceiling subject.size rs.pos)
      rw [Groups.closed_of_count (by simp [GroupState.enter, Activation.new]),
        Groups.records_enter] at hagain
      exact hagain
  | anchor id kind =>
    rw [Pattern.code_anchor, List.append_assoc] at h
    refine Serves.of_head hg.linked h fun b h rs hrs => ?_
    subst hrs
    exact anchorBlock_returns hg.fails h.left fun _ => hnext _ _ (.here rfl hp)

end

end PatternMachine
