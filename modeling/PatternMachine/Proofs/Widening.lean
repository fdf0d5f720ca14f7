import PatternMachine.Proofs.Labels
import PatternMachine.Proofs.Refinement
import Mathlib.Data.List.Nodup
import Mathlib.Data.List.Flatten

/-!
# Wider bounds keep all matches

A quantifier that allows more repetitions adds ways to match.  The ways that were there before stay,
and they stay in order.

* `Bound.Within`, `Quantifier.Within` — one bound, and one quantifier, allows what the other allows.
* `Pattern.requantified` — a tree with other quantifiers.

Principal results: `Quantifier.rounds_sublist` — rounds under wider bounds find what was found, in
order.  `Pattern.ways_sublist` — so the ways of a tree are a subsequence of those under wider
quantifiers, through all groups.  `widened_keeps_matches` — and so are the matches.
-/

set_option autoImplicit false

namespace PatternMachine

/-! ## Bounds -/

/-- The second bound allows every number of repetitions that the first one allows. -/
def Bound.Within : Bound → Bound → Prop
  | .finite least, .finite most => least ≤ most
  | .unbounded, .finite _ => False
  | _, .unbounded => True

instance : DecidableRel Bound.Within := fun bound bound' => by
  cases bound <;> cases bound' <;> unfold Bound.Within <;> infer_instance

theorem Bound.Within.refl (bound : Bound) : bound.Within bound := by
  cases bound with
  | finite count => exact UInt32.le_refl count
  | unbounded => trivial

theorem Bound.Within.covers {bound bound' : Bound} (h : bound.Within bound') {k : Nat}
    (hk : bound.covers k = true) : bound'.covers k = true := by
  cases bound' with
  | unbounded => rfl
  | finite most =>
    cases bound with
    | unbounded => exact h.elim
    | finite least =>
      have hle : least.toNat ≤ most.toNat := h
      simp only [Bound.covers, decide_eq_true_eq] at hk ⊢
      omega

theorem Bound.Within.admitsMore {bound bound' : Bound} (h : bound.Within bound') {k : Nat}
    (hk : bound.admitsMore k = true) : bound'.admitsMore k = true := by
  cases bound' with
  | unbounded => rfl
  | finite most =>
    cases bound with
    | unbounded => exact h.elim
    | finite least =>
      have hle : least.toNat ≤ most.toNat := h
      simp only [Bound.admitsMore, decide_eq_true_eq] at hk ⊢
      omega

namespace Quantifier

/-- The second quantifier has wider bounds than the first one, or the same, and tries the counts in
the same order. -/
structure Within (q q' : Quantifier) : Prop where
  min : q'.min ≤ q.min
  max : q.max.Within q'.max
  greedy : q'.greedy = q.greedy

instance : DecidableRel Within := fun q q' =>
  decidable_of_iff (q'.min ≤ q.min ∧ q.max.Within q'.max ∧ q'.greedy = q.greedy)
    ⟨fun ⟨hmin, hmax, hgreedy⟩ => ⟨hmin, hmax, hgreedy⟩, fun h => ⟨h.min, h.max, h.greedy⟩⟩

theorem Within.refl (q : Quantifier) : q.Within q := ⟨UInt32.le_refl _, .refl _, rfl⟩

section

variable {q q' : Quantifier} (h : q.Within q')
include h

theorem Within.min_le {k : Nat} (hk : q.min.toNat ≤ k) : q'.min.toNat ≤ k :=
  Nat.le_trans h.min hk

/-- The two sides of a decision stay where they are. -/
theorem Within.inOrder_sublist {α : Type} {more more' stop stop' : List α}
    (hmore : more.Sublist more') (hstop : stop.Sublist stop') :
    (q.inOrder more stop).Sublist (q'.inOrder more' stop') := by
  unfold inOrder
  rw [h.greedy]
  split
  · exact hmore.append hstop
  · exact hstop.append hmore

/-- The counts that were tried are tried in the same order. -/
theorem Within.counts_sublist (size : Nat) (occurs : Nat → Bool) :
    (q.counts size occurs).Sublist (q'.counts size occurs) := by
  have hfilter : ((List.range (size + 1)).filter fun k =>
      decide (q.min.toNat ≤ k) && q.max.covers k && occurs k).Sublist
      ((List.range (size + 1)).filter fun k =>
        decide (q'.min.toNat ≤ k) && q'.max.covers k && occurs k) := by
    refine List.monotone_filter_right _ fun k hk => ?_
    simp only [Bool.and_eq_true, decide_eq_true_eq] at hk ⊢
    exact ⟨⟨h.min_le hk.1.1, h.max.covers hk.1.2⟩, hk.2⟩
  unfold counts
  rw [h.greedy]
  cases q.greedy with
  | true => exact hfilter.reverse
  | false => exact hfilter

/-- **Rounds under wider bounds find what was found, in order**, if the ways of a repetition stay in
order, too. -/
theorem rounds_sublist {size : Nat} {ways ways' : Nat → Records → List Way}
    (hways : ∀ p records, p ≤ size → (ways p records).Sublist (ways' p records))
    (hstop : ∀ p records, p ≤ size → ∀ w ∈ ways p records, w.stop ≤ size)
    (note : Nat → Nat → Records → Records) (next : Nat → Records → List Way)
    (left k : Nat) {p : Nat} (hp : p ≤ size) (records : Records) :
    (q.rounds (fun onward p records => (ways p records).flatMap fun w => onward w.stop w.records)
      note next left k p records).Sublist
    (q'.rounds (fun onward p records => (ways' p records).flatMap fun w => onward w.stop w.records)
      note next left k p records) := by
  have hend : ∀ k p records, (if q.min.toNat ≤ k then next p records else []).Sublist
      (if q'.min.toNat ≤ k then next p records else []) := by
    intro k p records
    split
    · rename_i hmin
      rw [if_pos (h.min_le hmin)]
    · exact List.nil_sublist _
  induction left generalizing k p records with
  | zero => exact h.inOrder_sublist (.refl _) (hend k p records)
  | succ left ih =>
    rw [rounds, rounds]
    refine h.inOrder_sublist ?_ (hend k p records)
    split
    · rename_i hmore
      rw [if_pos (h.max.admitsMore hmore)]
      refine .trans ?_ ((hways p records hp).flatMap _)
      exact List.Sublist.flatMap_right _ fun w hw => ih (k + 1) (hstop p records hp w hw) _
    · exact List.nil_sublist _

end

/-- More rounds than there can be are enough. -/
theorem enough_of_ceiling_le {q : Quantifier} {size left : Nat} (h : q.ceiling size ≤ left)
    (p : Nat) : q.Enough size left 0 p := by
  unfold Enough
  unfold ceiling at h
  cases hmax : q.max with
  | finite count =>
    simp only [hmax] at h ⊢
    omega
  | unbounded =>
    simp only [hmax] at h ⊢
    omega

end Quantifier

/-! ## Trees -/

namespace Pattern

/-- The tree in which every node that carries a quantifier carries another one, which may depend on
the number of the node and on the quantifier that it had. -/
def requantified (other : NodeId → Quantifier → Quantifier) : Pattern → Pattern
  | .wildcard id q => .wildcard id (other id q)
  | .literal id bytes q => .literal id bytes (other id q)
  | .concat id first second => .concat id (first.requantified other) (second.requantified other)
  | .alternation id first second =>
    .alternation id (first.requantified other) (second.requantified other)
  | .group id body capture q => .group id (body.requantified other) capture (other id q)
  | .empty id => .empty id
  | .endMarker id => .endMarker id
  | .anchor id kind => .anchor id kind

/-- The other quantifiers are wider than those of the tree, or the same. -/
def Widens (other : NodeId → Quantifier → Quantifier) (tree : Pattern) : Prop :=
  ∀ n ∈ tree.nodes, ∀ q ∈ n.quantifier?, q.Within (other n.id q)

instance (other : NodeId → Quantifier → Quantifier) (tree : Pattern) :
    Decidable (Widens other tree) := by
  unfold Widens
  infer_instance

variable {other : NodeId → Quantifier → Quantifier}

namespace Widens

variable {id : NodeId} {first second body : Pattern} {capture : Option UInt32} {q : Quantifier}

theorem self {n : Pattern} (h : Widens other n) (hq : n.quantifier? = some q) :
    q.Within (other n.id q) := h n (self_mem_nodes n) q hq

theorem concat (h : Widens other (.concat id first second)) :
    Widens other first ∧ Widens other second :=
  ⟨fun n hn => h n (by simp [nodes, hn]), fun n hn => h n (by simp [nodes, hn])⟩

theorem alternation (h : Widens other (.alternation id first second)) :
    Widens other first ∧ Widens other second :=
  ⟨fun n hn => h n (by simp [nodes, hn]), fun n hn => h n (by simp [nodes, hn])⟩

theorem of_group (h : Widens other (.group id body capture q)) : Widens other body :=
  fun n hn => h n (by simp [nodes, hn])

/-- Only the quantifier of one node of a tree may be another one. -/
theorem single {limit : Nat} {tree n : Pattern} {q' : Quantifier} (hwf : tree.WellFormed limit)
    (hn : n ∈ tree.nodes) (hq : n.quantifier? = some q) (h : q.Within q') :
    Widens (fun id r => if id = n.id then q' else r) tree := by
  intro m hm r hr
  dsimp only
  split
  · rename_i hid
    obtain rfl := List.inj_on_of_nodup_map hwf.nodup hm hn hid
    obtain rfl : r = q := Option.some.inj (hr.symm.trans hq)
    exact h
  · exact .refl r

end Widens

/-- **The ways of a tree are a subsequence of those under wider quantifiers.** -/
theorem ways_sublist {limit limit' : Nat} {subject : Subject} {tree : Pattern}
    (hwf : tree.WellFormed limit) (hwf' : (tree.requantified other).WellFormed limit')
    (hwider : Widens other tree) {p : Nat} (hp : p ≤ subject.size) (records : Records) :
    (tree.ways subject p records).Sublist ((tree.requantified other).ways subject p records) := by
  induction tree generalizing p records with
  | wildcard id q => exact ((hwider.self rfl).counts_sublist _ _).map _
  | literal id bytes q => exact ((hwider.self rfl).counts_sublist _ _).map _
  | concat id first second ihFirst ihSecond =>
    have hfirst := ihFirst hwf.concat.first hwf'.concat.first hwider.concat.1 hp records
    rw [requantified, ways, ways]
    refine .trans ?_ (hfirst.flatMap _)
    exact List.Sublist.flatMap_right _ fun w hw =>
      ihSecond hwf.concat.second hwf'.concat.second hwider.concat.2 (ways_reach hw hp).le_size _
  | alternation id first second ihFirst ihSecond =>
    exact
      (ihFirst hwf.alternation.first hwf'.alternation.first hwider.alternation.1 hp records).append
      (ihSecond hwf.alternation.second hwf'.alternation.second hwider.alternation.2 hp records)
  | group id body capture q ih =>
    -- Both groups are allowed as many rounds as the one that is allowed more.
    have hleft := Nat.le_max_left (q.ceiling subject.size) ((other id q).ceiling subject.size)
    have hleft' := Nat.le_max_right (q.ceiling subject.size) ((other id q).ceiling subject.size)
    rw [requantified, hwf.ways_group hp records (Quantifier.enough_of_ceiling_le hleft p),
      hwf'.ways_group hp records (Quantifier.enough_of_ceiling_le hleft' p)]
    refine Quantifier.rounds_sublist (hwider.self rfl) ?_ ?_ _ _ _ _ hp _
    · exact fun p records hp => ih hwf.group.1 hwf'.group.1 hwider.of_group hp records
    · exact fun p records hp w hw => (ways_reach hw hp).le_size
  | empty _ | endMarker _ | anchor _ _ => exact .refl _

/-! ## What does not depend on quantifiers -/

theorem endFree_requantified (tree : Pattern) :
    (tree.requantified other).endFree = tree.endFree := by
  induction tree with
  | concat id first second ihFirst ihSecond | alternation id first second ihFirst ihSecond =>
    simp only [requantified, endFree, ihFirst, ihSecond]
  | group id body capture q ih => exact ih
  | _ => rfl

theorem startAnchored_requantified (tree : Pattern) :
    (tree.requantified other).startAnchored = tree.startAnchored := by
  induction tree with
  | concat id first second ihFirst ihSecond | alternation id first second ihFirst ihSecond =>
    simp only [requantified, startAnchored, ihFirst, ihSecond]
  | group id body capture q ih => exact ih
  | _ => rfl

theorem captureSlots_requantified (tree : Pattern) :
    (tree.requantified other).captureSlots = tree.captureSlots := by
  induction tree with
  | concat id first second ihFirst ihSecond | alternation id first second ihFirst ihSecond =>
    simp only [requantified, captureSlots, ihFirst, ihSecond]
  | group id body capture q ih => cases capture <;> simp [requantified, captureSlots, ih]
  | _ => rfl

/-- **The matches of a tree are a subsequence of those under wider quantifiers.** -/
theorem matchesIn_sublist {limit limit' : Nat} {tree : Pattern} (hwf : tree.WellFormed limit)
    (hwf' : (tree.requantified other).WellFormed limit') (hwider : Widens other tree)
    (subject : Subject) :
    (tree.matchesIn subject).Sublist ((tree.requantified other).matchesIn subject) := by
  have hmatchOf : (tree.requantified other).matchOf = tree.matchOf :=
    matchOf_congr (captureSlots_requantified tree)
  have hfrom : ∀ start ≤ subject.size, (tree.matchesFrom subject start).Sublist
      ((tree.requantified other).matchesFrom subject start) := by
    intro start hstart
    rw [matchesFrom, matchesFrom, hmatchOf]
    exact (ways_sublist hwf hwf' hwider hstart .none).map _
  rw [matchesIn, matchesIn, startAnchored_requantified]
  split
  · exact hfrom 0 (Nat.zero_le _)
  · exact List.Sublist.flatMap_right _ fun start hstart =>
      hfrom start (Nat.lt_succ_iff.mp (List.mem_range.mp hstart))

end Pattern

/-- **Wider bounds keep all matches.**  Take an accepted tree and widen the bounds of any of its
quantifiers, at any nesting, without changing the order in which they try the counts.  If the new
tree is accepted, too, its search finds all that the search of the tree finds, in the same order,
with the same spans and with what the groups have recorded: the first sequence of matches is a
subsequence of the second one. -/
theorem widened_keeps_matches {tree : Pattern} {other : NodeId → Quantifier → Quantifier}
    {options options' : CompileOptions} {program program' : Program} {subject : Subject}
    (hwider : Pattern.Widens other tree) (hcompile : compile tree options = .ok program)
    (hcompile' : compile (tree.requantified other) options' = .ok program')
    (hend : tree.endFree = true) (hsize : subject.size < 2 ^ 63) :
    ∃ ms ms', Cursor.new.Answers program subject ms ∧ Cursor.new.Answers program' subject ms' ∧
      ms.Sublist ms' := by
  have hend' : (tree.requantified other).endFree = true := by
    rw [Pattern.endFree_requantified, hend]
  obtain ⟨_, hstanding⟩ := standing_of_compile hcompile hend hsize
  obtain ⟨_, hstanding'⟩ := standing_of_compile hcompile' hend' hsize
  exact ⟨_, _, hstanding.answers, hstanding'.answers,
    Pattern.matchesIn_sublist (wellFormed_of_compile hcompile).1
      (wellFormed_of_compile hcompile').1 hwider subject⟩

/-- The pattern `(?:a(b))|.{2}`, where the first group is matched once. -/
def pairOrTwo : Pattern :=
  .alternation 1
    (.group 2 (.concat 3 (.literal 4 [97] .once) (.group 5 (.literal 6 [98] .once) (some 1) .once))
      none .once)
    (.wildcard 7 ⟨2, .finite 2, true⟩)

/-- The first group of `pairOrTwo` may be repeated any number of times, or left out. -/
theorem widened_keeps_matches_pairOrTwo :
    ∃ program program', compile pairOrTwo {} = .ok program ∧
      compile (pairOrTwo.requantified fun id q =>
        if id = 2 then ⟨0, .unbounded, true⟩ else q) {} = .ok program' ∧
      ∃ ms ms', Cursor.new.Answers program #[97, 98, 97, 98] ms ∧
        Cursor.new.Answers program' #[97, 98, 97, 98] ms' ∧ ms.Sublist ms' := by
  have hwf : pairOrTwo.WellFormed 256 := ⟨by decide, by decide⟩
  obtain ⟨program, hcompile⟩ : ∃ program, compile pairOrTwo {} = .ok program :=
    compile_isOk_of_isSome hwf (by decide)
  obtain ⟨program', hcompile'⟩ : ∃ program', compile (pairOrTwo.requantified fun id q =>
      if id = 2 then ⟨0, .unbounded, true⟩ else q) {} = .ok program' :=
    compile_isOk_of_isSome ⟨by decide, by decide⟩ (by decide)
  have hgroup : .group 2 (.concat 3 (.literal 4 [97] .once)
      (.group 5 (.literal 6 [98] .once) (some 1) .once)) none .once ∈ pairOrTwo.nodes := by decide
  have hwider := Pattern.Widens.single hwf hgroup rfl
    (show Quantifier.once.Within ⟨0, .unbounded, true⟩ by decide)
  exact ⟨program, program', hcompile, hcompile',
    widened_keeps_matches hwider hcompile hcompile' (by decide) (by decide)⟩

end PatternMachine
