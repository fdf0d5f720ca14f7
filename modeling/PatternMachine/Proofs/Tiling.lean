import Mathlib.Data.List.Chain
import PatternMachine.Proofs.Keeping

/-!
# What groups have recorded

A group records where a repetition begins and where it ends at different places of its code, and
what it has recorded stays when the group is left, until it is entered again.

* `Tiled` — recorded positions that are the ends of spans, each of which begins where the one before
  it ends.
* `Activation.Settled`, `Pattern.Settled` — what a stay in a group, and the groups of a tree, have
  recorded when the group, or the tree, is not at work.
* `Pattern.calls` — the number of calls that a tree has pending at most.
* `Promise.Carries` — a promise allows going on at a tree if it allows going on behind it.

Principal results: `again_allows` — every repetition adds one span at the end.  `code_carries` — so
the code of a tree keeps every promise that allows going on where the groups of the tree are
settled.
-/

set_option autoImplicit false

namespace PatternMachine

open Lowering

/-! ## Spans that lie one behind the other -/

/-- Recorded positions, the latest first, that are the ends of `k` spans. The first one begins at
`start`, every other one where the one before it ends, and the last one ends at `stop`. -/
inductive Tiled (start : Nat) : (stop : Nat) → (marks : List Nat) → (k : Nat) → Prop
  | nil : Tiled start start [] 0
  | cons {mid stop k : Nat} {marks : List Nat} (h : Tiled start mid marks k) (hle : mid ≤ stop) :
      Tiled start stop (stop :: mid :: marks) (k + 1)

namespace Tiled

variable {start stop k : Nat} {marks : List Nat}

theorem le (h : Tiled start stop marks k) : start ≤ stop := by
  induction h with
  | nil => exact Nat.le_refl start
  | cons _ hle ih => exact Nat.le_trans ih hle

/-- The recorded positions, the earliest first, are the ends of spans. -/
theorem spans (h : Tiled start stop marks k) :
    ∃ spans : List Span, marks.reverse = spans.flatMap (fun s => [s.start, s.stop]) ∧
      spans.length = k ∧ (spans.IsChain fun s t => s.stop = t.start) ∧
      (∀ s ∈ spans, start ≤ s.start ∧ s.start ≤ s.stop ∧ s.stop ≤ stop) ∧
      ∀ s ∈ spans.getLast?, s.stop = stop := by
  induction h with
  | nil => exact ⟨[], rfl, rfl, .nil, nofun, nofun⟩
  | @cons mid stop k marks h hle ih =>
    obtain ⟨spans, hmarks, hlength, hchain, hinside, hlast⟩ := ih
    refine ⟨spans ++ [⟨mid, stop⟩], by simp [hmarks], by simp [hlength], ?_, ?_, by simp⟩
    · refine hchain.append (.singleton _) fun s hs t ht => ?_
      obtain rfl : t = ⟨mid, stop⟩ := by simpa [eq_comm] using ht
      exact hlast s hs
    · intro s hs
      rcases List.mem_append.mp hs with hs | hs
      · obtain ⟨hlow, hordered, hhigh⟩ := hinside s hs
        exact ⟨hlow, hordered, Nat.le_trans hhigh hle⟩
      · obtain rfl := List.mem_singleton.mp hs
        exact ⟨h.le, hle, Nat.le_refl stop⟩

end Tiled

/-- What a stay in a group has recorded when the group is not at work: as many spans as the
quantifier admits, or none, one behind the other between `low` and `high`. -/
def Activation.Settled (q : Quantifier) (low high : Nat) (stay : Activation) : Prop :=
  ∃ start stop k, low ≤ start ∧ stop ≤ high ∧ Tiled start stop stay.marks k ∧
    (k = 0 ∨ q.min.toNat ≤ k ∧ q.max.covers k = true)

namespace Pattern

/-- The groups of a tree that record their spans have done so between `low` and `high`, and none of
them is at work. -/
def Settled (tree : Pattern) (low high : Nat) (groups : Groups) : Prop :=
  ∀ id body index q, .group id body (some index) q ∈ tree.nodes →
    (groups id).current.Settled q low high

/-- The number of calls that a tree has pending at most while the search goes on behind it. -/
def calls (size : Nat) : Pattern → Nat
  | .wildcard _ q => q.unitCalls
  | .literal _ _ q => q.unitCalls
  | .concat _ first second => first.calls size + second.calls size
  | .alternation _ first second => max (1 + first.calls size) (second.calls size)
  | .group _ body capture q =>
    if isTransparent capture q then body.calls size
    else 2 + q.ceiling size * (1 + body.calls size)
  | _ => 0

namespace Settled

variable {tree first second : Pattern} {low p stop : Nat} {groups after : Groups} {id : NodeId}

/-- Groups that were not used are settled. -/
theorem of_unused (hle : low ≤ p) (h : ∀ id ∈ tree.ids, (groups id).current.marks = []) :
    tree.Settled low p groups := by
  intro id body index q hmem
  refine ⟨low, low, 0, Nat.le_refl low, hle, ?_, Or.inl rfl⟩
  rw [h id (List.mem_map.mpr ⟨_, hmem, rfl⟩)]
  exact .nil

/-- What is settled stays so at later offsets, as long as the groups are left alone. -/
theorem keep (h : tree.Settled low p groups) (hle : p ≤ stop)
    (hsame : ∀ id ∈ tree.ids, after id = groups id) : tree.Settled low stop after := by
  intro id body index q hmem
  obtain ⟨start, mid, k, hlow, hhigh, htiled, hk⟩ := h id body index q hmem
  rw [hsame id (List.mem_map.mpr ⟨_, hmem, rfl⟩)]
  exact ⟨start, mid, k, hlow, Nat.le_trans hhigh hle, htiled, hk⟩

/-- The groups of a tree are those of its parts. -/
theorem of_nodes (h : tree.Settled low p groups) (hnodes : ∀ n ∈ first.nodes, n ∈ tree.nodes) :
    first.Settled low p groups :=
  fun id body index q hmem => h id body index q (hnodes _ hmem)

theorem of_parts (hnodes : tree.nodes = tree :: (first.nodes ++ second.nodes))
    (htree : tree.group? = none) (hfirst : first.Settled low p groups)
    (hsecond : second.Settled low p groups) : tree.Settled low p groups := by
  intro id body index q hmem
  rw [hnodes, List.mem_cons, List.mem_append] at hmem
  rcases hmem with rfl | hmem | hmem
  · cases htree
  · exact hfirst id body index q hmem
  · exact hsecond id body index q hmem

theorem of_group {body : Pattern} {capture : Option UInt32} {q : Quantifier}
    (hbody : body.Settled low p groups)
    (hown : capture.isSome = true → (groups id).current.Settled q low p) :
    (group id body capture q).Settled low p groups := by
  intro other body' index q' hmem
  rcases List.mem_cons.mp hmem with heq | hmem
  · cases heq
    exact hown rfl
  · exact hbody other body' index q' hmem

end Settled

end Pattern

namespace Promise

/-- The promise allows going on at a tree wherever the groups of the tree are settled, if it allows
going on at `next` wherever the tree hands on with settled groups. -/
def Carries (promise : Promise) (program : Program) (subject : Subject) (ceiling : PerNode Nat)
    (low : Nat) (tree : Pattern) (next : Label) : Prop :=
  ∀ n room p (groups : Groups), p ≤ subject.size → low ≤ p → tree.Settled low p groups →
    (∀ stop (after : Groups), Reaches tree subject p groups stop after →
      tree.Settled low stop after →
        promise.Allows program subject ceiling n room next stop after) →
    promise.Allows program subject ceiling n (room + tree.calls subject.size) (.node tree.id) p
      groups

variable {promise : Promise} {program : Program} {subject : Subject} {ceiling : PerNode Nat}
variable {n room a p low limit : Nat} {next : Label} {trace : Bool} {is : List Instruction}

/-! ## Groups -/

section

variable {id : NodeId} {body : Pattern} {capture : Option UInt32} {q : Quantifier} {start k : Nat}
variable {capturing : PerNode Bool} {before groups after : Groups}

/-- A repetition that has come to its end adds a span. -/
theorem tiled_next {stop : Nat}
    (h : InRounds id body (capturing id) q subject start before k p groups) (hid : id ∉ body.ids)
    (hword : k + 1 < wordSize) (hc : capturing id = true)
    (hreach : Reaches body subject p ((groups.closed id (capturing id) p).begun id (capturing id) p)
      stop after)
    (htiled : Tiled start p (groups.closed id (capturing id) p id).current.marks k) :
    Tiled start stop (after.closed id (capturing id) stop id).current.marks (k + 1) := by
  have hcount : (after id).current.count ≠ 0 := by
    rw [h.count_after hid hword hreach]
    exact Nat.succ_ne_zero k
  rw [Groups.closed, if_pos ⟨hc, hcount⟩, PerNode.set_self]
  simp only [GroupState.push, (h.marks hid hc hreach).1]
  exact .cons htiled hreach.le

/-- **Every repetition of a group adds one span at the end**: a promise is kept that allows going on
after enough repetitions. -/
theorem again_allows {comment : String} (capturing : PerNode Bool) (hf : program.Framed)
    (hsize : subject.size < 2 ^ 63) (hcapture : capturing id = capture.isSome) (hid : id ∉ body.ids)
    (hempty : q.max = .unbounded → body.matchesEmpty = false)
    (h : program.HasAt a (head trace (.again id) comment ++
      (repetition id body.id capture.isSome q next ++ is)))
    (hbody : promise.Carries program subject ceiling low body (.again id)) (hlow : low ≤ start)
    (hnext : ∀ stop (after : Groups),
      Reaches (.group id body capture q) subject start before stop after →
      body.Settled low stop after →
      (∃ k, q.min.toNat ≤ k ∧ q.max.covers k = true ∧
        (capture.isSome = true → Tiled start stop (after id).current.marks k)) →
      promise.Allows program subject ceiling n room next stop after)
    (hrounds : InRounds id body (capturing id) q subject start before k p groups)
    (hsettled : body.Settled low p groups)
    (htiled : capturing id = true →
      Tiled start p (groups.closed id (capturing id) p id).current.marks k) :
    promise.Allows program subject ceiling n
      (room + (q.ceiling subject.size - k) * (1 + body.calls subject.size) + 1) (.again id) p
      groups := by
  rw [← hcapture] at h hnext
  induction n generalizing k p groups with
  | zero => exact .zero
  | succ n ih =>
    have hnext' := fun stop after hreach hbody hown =>
      (hnext stop after hreach hbody hown).of_le (Nat.le_succ n)
    -- the group leaves alone what the groups of its body have recorded
    have hne : ∀ other ∈ body.ids, other ≠ id := by
      rintro other ho rfl
      exact hid ho
    refine .of_head_succ hf.linked h fun b h rs hrs => ?_
    subst hrs
    refine repetition_proceeds hf h hrounds.active (fun hadmits => ?_) fun hmin => ?_
    · rw [hrounds.count] at hadmits
      obtain ⟨hlt, hword⟩ := hrounds.lt_ceiling hsize hadmits
      have hroom : room + (q.ceiling subject.size - k) * (1 + body.calls subject.size) =
          room + (q.ceiling subject.size - (k + 1)) * (1 + body.calls subject.size) + 1 +
            body.calls subject.size := by
        rw [show q.ceiling subject.size - k = q.ceiling subject.size - (k + 1) + 1 by omega,
          Nat.succ_mul]
        omega
      rw [hroom]
      refine hbody n _ _ _ hrounds.le_size (Nat.le_trans hlow hrounds.le)
        (hsettled.keep (Nat.le_refl _) fun other ho => ?_) fun stop after hreach hafter => ?_
      · exact (Groups.begun_of_ne (hne other ho)).trans (Groups.closed_of_ne (hne other ho))
      · exact ih hnext' (hrounds.next hid hempty hword hadmits hreach) hafter fun hc =>
          tiled_next hrounds hid hword hc hreach (htiled hc)
    · rw [hrounds.count] at hmin
      refine (hnext' _ _ (hrounds.reaches hmin) (hsettled.keep (Nat.le_refl _) fun other ho => ?_)
        ⟨k, hmin, hrounds.covers, htiled⟩).of_room (Nat.le_add_right _ _)
      exact Groups.closed_of_ne (hne other ho)

/-- **A group keeps a promise** that allows going on where the groups of its body are settled, and
where it has itself recorded enough spans, from where it is entered up to where it is left. -/
theorem group_allows (hf : program.Framed) (hsize : subject.size < 2 ^ 63) (hid : id ∉ body.ids)
    (hempty : q.max = .unbounded → body.matchesEmpty = false)
    (ht : Pattern.isTransparent capture q = false)
    (h : program.HasAt a ((Pattern.group id body capture q).code trace next ++ is))
    (hbody : ∀ a, program.HasAt a (body.code trace (.again id) ++ is) →
      promise.Carries program subject ceiling low body (.again id))
    (hp : p ≤ subject.size) (hlow : low ≤ p) (hsettled : body.Settled low p groups)
    (hnext : ∀ stop (after : Groups),
      Reaches (.group id body capture q) subject p groups stop after →
      body.Settled low stop after →
      (∃ k, q.min.toNat ≤ k ∧ q.max.covers k = true ∧
        (capture.isSome = true → Tiled p stop (after id).current.marks k)) →
      promise.Allows program subject ceiling n room next stop after) :
    promise.Allows program subject ceiling n
      (room + (Pattern.group id body capture q).calls subject.size) (.node id) p groups := by
  simp only [Pattern.code_group _ _ _ _ _ _ ht, List.append_assoc] at h
  rw [Pattern.calls, ht, if_neg Bool.false_ne_true, ← Nat.add_assoc, Nat.add_right_comm,
    ← Nat.sub_zero (q.ceiling subject.size)]
  refine .of_head hf.linked h fun b h rs hrs => ?_
  subst hrs
  have hnew : (groups.set id (groups id).enter id).current = .new := by simp [GroupState.enter]
  have hclosed : Groups.closed (groups.set id (groups id).enter) id capture.isSome rs.pos =
      groups.set id (groups id).enter :=
    Groups.closed_of_count (by rw [hnew]; rfl)
  have hinit : InRounds id body capture.isSome q subject rs.pos groups 0 rs.pos
      (groups.set id (groups id).enter) :=
    @InRounds.init id body (fun _ => capture.isSome) q subject rs.pos groups hp
  refine entry_proceeds hf h (again_allows (fun _ => capture.isSome) hf hsize rfl hid hempty
    h.right (hbody _ h.right.right.right) hlow hnext hinit ?_ fun _ => ?_)
  · exact hsettled.keep (Nat.le_refl _) fun other ho => PerNode.set_of_ne _ _ fun heq =>
      hid (heq ▸ ho)
  · rw [hclosed, hnew]
    exact .nil

end

/-! ## Trees -/

/-- Falling through to the code of a tree is the same as going on at its label. -/
theorem Allows.fall_through {tree : Pattern} {rs : Registers} {groups : Groups}
    (h : promise.Allows program subject ceiling n room (.node tree.id) rs.pos groups)
    (hl : program.Linked) (hat : program.HasAt a (tree.code trace next ++ is)) :
    promise.Proceeds program subject ceiling n room a rs groups := by
  obtain ⟨js, hcode⟩ := tree.code_eq_head trace next
  rw [hcode, head] at hat
  refine h.jump a ?_
  cases trace <;> exact hl.resolve hat

/-- A sequence goes on at its second part. -/
theorem carries_concat {id : NodeId} {first second : Pattern} (hf : program.Framed)
    (hparts : Pattern.WellFormed.Parts limit first second)
    (h : program.HasAt a ((Pattern.concat id first second).code trace next ++ is))
    (hfirst : ∀ a, program.HasAt a (first.code trace (.node second.id) ++
      (second.code trace next ++ is)) →
        promise.Carries program subject ceiling low first (.node second.id))
    (hsecond : ∀ a, program.HasAt a (second.code trace next ++ is) →
      promise.Carries program subject ceiling low second next) :
    promise.Carries program subject ceiling low (.concat id first second) next := by
  intro n room p groups hp hlow hsettled hnext
  have hnodes : (Pattern.concat id first second).nodes =
      .concat id first second :: (first.nodes ++ second.nodes) := rfl
  rw [Pattern.code_concat, List.append_assoc, List.append_assoc] at h
  rw [Pattern.calls, Nat.add_comm (first.calls _), ← Nat.add_assoc]
  refine .of_head hf.linked h fun b h rs hrs => ?_
  subst hrs
  refine Allows.fall_through ?_ hf.linked h
  refine hfirst _ h n _ _ _ hp hlow (hsettled.of_nodes fun n hn => by simp [hnodes, hn])
    fun mid between hreach hmid => ?_
  refine hsecond _ h.right n _ _ _ hreach.le_size (Nat.le_trans hlow hreach.le) ?_
    fun stop after hreach' hstop => ?_
  · refine (hsettled.of_nodes fun n hn => by simp [hnodes, hn]).keep hreach.le fun other ho =>
      hreach.same other fun ho' => hparts.disjoint other ho' ho
  · refine hnext _ _ (hreach.concat id hreach') (.of_parts hnodes rfl ?_ hstop)
    exact hmid.keep hreach'.le fun other ho => hreach'.same other (hparts.disjoint other ho)

/-- A choice calls its first part, and then goes on as its second one. -/
theorem carries_alternation {id : NodeId} {first second : Pattern} (hf : program.Framed)
    (hparts : Pattern.WellFormed.Parts limit first second)
    (h : program.HasAt a ((Pattern.alternation id first second).code trace next ++ is))
    (hfirst : ∀ a, program.HasAt a (first.code trace next ++ (second.code trace next ++ is)) →
      promise.Carries program subject ceiling low first next)
    (hsecond : ∀ a, program.HasAt a (second.code trace next ++ is) →
      promise.Carries program subject ceiling low second next) :
    promise.Carries program subject ceiling low (.alternation id first second) next := by
  intro n room p groups hp hlow hsettled hnext
  have hnodes : (Pattern.alternation id first second).nodes =
      .alternation id first second :: (first.nodes ++ second.nodes) := rfl
  have hsettledFirst : first.Settled low p groups :=
    hsettled.of_nodes fun n hn => by simp [hnodes, hn]
  have hsettledSecond : second.Settled low p groups :=
    hsettled.of_nodes fun n hn => by simp [hnodes, hn]
  rw [Pattern.code_alternation, List.append_assoc, List.append_assoc, List.append_assoc] at h
  obtain ⟨most, hmost⟩ : ∃ most, max (1 + first.calls subject.size) (second.calls subject.size) =
      most + 1 := ⟨max (1 + first.calls subject.size) (second.calls subject.size) - 1, by omega⟩
  rw [Pattern.calls, hmost]
  refine .of_head hf.linked h fun b h rs hrs => ?_
  subst hrs
  refine .call h ?_ fun h => .goto h (Allows.jump ?_)
  · refine Allows.of_room ?_ (show room + first.calls subject.size ≤ room + most by omega)
    refine hfirst _ h.right n _ _ _ hp hlow hsettledFirst fun stop after hreach hstop => ?_
    refine hnext _ _ (hreach.alternation id (Or.inl rfl)) (.of_parts hnodes rfl hstop ?_)
    exact hsettledSecond.keep hreach.le fun other ho => hreach.same other fun ho' =>
      hparts.disjoint other ho' ho
  · refine Allows.of_room ?_ (show room + second.calls subject.size ≤ room + most + 1 by omega)
    refine hsecond _ h.tail.right.right n _ _ _ hp hlow hsettledSecond
      fun stop after hreach hstop => ?_
    refine hnext _ _ (hreach.alternation id (Or.inr rfl)) (.of_parts hnodes rfl ?_ hstop)
    exact hsettledFirst.keep hreach.le fun other ho =>
      hreach.same other (hparts.disjoint other ho)

/-- A group that needs no state goes on as its body. -/
theorem carries_transparent {id : NodeId} {body : Pattern} {capture : Option UInt32}
    {q : Quantifier} (hf : program.Framed) (ht : Pattern.isTransparent capture q = true)
    (h : program.HasAt a ((Pattern.group id body capture q).code trace next ++ is))
    (hbody : ∀ a, program.HasAt a (body.code trace next ++ is) →
      promise.Carries program subject ceiling low body next) :
    promise.Carries program subject ceiling low (.group id body capture q) next := by
  intro n room p groups hp hlow hsettled hnext
  rw [Pattern.code_group_transparent _ _ _ _ _ _ ht, List.append_assoc] at h
  rw [Pattern.calls, if_pos ht]
  obtain rfl : capture = none := Option.isNone_iff_eq_none.mp (Bool.and_eq_true_iff.mp ht).2
  refine .of_head hf.linked h fun b h rs hrs => ?_
  subst hrs
  refine Allows.fall_through ?_ hf.linked h
  refine hbody _ h n _ _ _ hp hlow (hsettled.of_nodes fun n hn => by simp [Pattern.nodes, hn])
    fun stop after hreach hstop => hnext _ _ ⟨hreach.le, hreach.le_size, ?_, ?_⟩ ?_
  · exact fun hgroup => hreach.lt (Bool.or_eq_false_iff.mp hgroup).2
  · intro other ho
    rw [Pattern.ids_group, List.mem_cons, not_or] at ho
    exact hreach.same other ho.2
  · exact .of_group hstop fun h => absurd h Bool.false_ne_true

/-- **The code of a tree keeps a promise** that allows going on where the groups of the tree are
settled. -/
theorem code_carries {tree : Pattern} (hf : program.Framed) (hsize : subject.size < 2 ^ 63)
    (hwf : tree.WellFormed limit)
    (hreports : tree.endFree = false → ∀ p groups, promise.reports p groups)
    (h : program.HasAt a (tree.code trace next ++ is)) :
    promise.Carries program subject ceiling low tree next := by
  induction tree generalizing next a is with
  | empty id =>
    intro n room p groups hp hlow hsettled hnext
    rw [Pattern.code_empty, List.append_assoc] at h
    refine .of_head hf.linked h fun b h rs hrs => ?_
    subst hrs
    exact .goto h (hnext _ _ (.here rfl hp) hsettled).jump
  | endMarker id =>
    intro n room p groups hp hlow hsettled hnext
    rw [Pattern.code_endMarker, List.append_assoc] at h
    refine .of_head hf.linked h fun b h rs hrs => ?_
    exact .yield h (hreports rfl _ _) fun h => .goto h (Allows.fail hf).jump
  | wildcard id q =>
    intro n room p groups hp hlow hsettled hnext
    rw [Pattern.code_wildcard, List.append_assoc] at h
    refine .of_head hf.linked h fun b h rs hrs => ?_
    refine wildcardBlock_proceeds hf h.left hrs hp fun k hk hle => ?_
    refine hnext _ _ (.of_le (Nat.le_add_right _ _) hle fun hempty => ?_)
      (hsettled.keep (Nat.le_add_right _ _) fun _ _ => rfl)
    have := Quantifier.pos_of_min hempty
    omega
  | literal id bytes q =>
    intro n room p groups hp hlow hsettled hnext
    rw [Pattern.code_literal, List.append_assoc] at h
    obtain ⟨hbytes, hvalid⟩ := hwf.literal
    refine .of_head hf.linked h fun b h rs hrs => ?_
    refine literalBlock_proceeds hf h.left hrs hp (Quantifier.covers_min hvalid)
      fun k hk hle => ?_
    refine hnext _ _ (.of_le (Nat.le_add_right _ _) hle fun hempty => ?_)
      (hsettled.keep (Nat.le_add_right _ _) fun _ _ => rfl)
    have := Quantifier.pos_of_min (Bool.or_eq_false_iff.mp hempty).1
    have : 0 < k * bytes.length := Nat.mul_pos (by omega) hbytes
    omega
  | concat id first second ihFirst ihSecond =>
    have hparts := hwf.concat
    have hpart := fun hpart => hreports (Bool.and_eq_false_iff.mpr hpart)
    exact carries_concat hf hparts h
      (fun _ h => ihFirst hparts.first (fun hfree => hpart (Or.inl hfree)) h)
      (fun _ h => ihSecond hparts.second (fun hfree => hpart (Or.inr hfree)) h)
  | alternation id first second ihFirst ihSecond =>
    have hparts := hwf.alternation
    have hpart := fun hpart => hreports (Bool.and_eq_false_iff.mpr hpart)
    exact carries_alternation hf hparts h
      (fun _ h => ihFirst hparts.first (fun hfree => hpart (Or.inl hfree)) h)
      (fun _ h => ihSecond hparts.second (fun hfree => hpart (Or.inr hfree)) h)
  | group id body capture q ih =>
    obtain ⟨hbody, hid, -, hempty⟩ := hwf.group
    cases ht : Pattern.isTransparent capture q with
    | true => exact carries_transparent hf ht h fun _ h => ih hbody hreports h
    | false =>
      intro n room p groups hp hlow hsettled hnext
      refine group_allows hf hsize hid hempty ht h (fun _ h => ih hbody hreports h) hp hlow
        (hsettled.of_nodes fun n hn => by simp [Pattern.nodes, hn])
        fun stop after hreach hstop hown => ?_
      obtain ⟨k, hmin, hcovers, htiled⟩ := hown
      exact hnext _ _ hreach (.of_group hstop fun hc =>
        ⟨p, stop, k, hlow, Nat.le_refl stop, htiled hc, Or.inr ⟨hmin, hcovers⟩⟩)
  | anchor id kind =>
    intro n room p groups hp hlow hsettled hnext
    rw [Pattern.code_anchor, List.append_assoc] at h
    refine .of_head hf.linked h fun b h rs hrs => ?_
    subst hrs
    exact anchorBlock_proceeds hf h.left (hnext _ _ (.here rfl hp) hsettled)

end Promise

end PatternMachine
