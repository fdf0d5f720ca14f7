import PatternMachine.Proofs.Units

/-!
# The blocks of groups

A group keeps its counter and its records apart from the registers, and undoes by hand what it did
to them.  What its blocks do is told here for a body and a continuation of which only the labels are
known.

* `Groups.begun`, `Groups.closed` — the groups after a repetition has begun, and after its end has
  been recorded.

Principal results: `repetition_returns` — the group tries one more repetition, and going on, in the
order of its quantifier, and takes back what it did.  `entry_returns` — a group begins a new stay
and takes back the one before it.
-/

set_option autoImplicit false

namespace PatternMachine

open Lowering

namespace Groups

/-- One more repetition of a group has begun. -/
def begun (groups : Groups) (id : NodeId) (capturing : Bool) (p : Nat) : Groups :=
  groups.set id
    (if capturing then (groups id).countUp.push p else (groups id).countUp)

/-- The end of a repetition has been recorded, unless none was made. -/
def closed (groups : Groups) (id : NodeId) (capturing : Bool) (p : Nat) : Groups :=
  if capturing = true ∧ (groups id).current.count ≠ 0 then groups.set id ((groups id).push p)
  else groups

variable {groups : Groups} {id other : NodeId} {capturing : Bool} {p : Nat}

theorem begun_of_ne (h : other ≠ id) : groups.begun id capturing p other = groups other :=
  PerNode.set_of_ne _ _ h

theorem closed_of_ne (h : other ≠ id) : groups.closed id capturing p other = groups other := by
  unfold closed
  split
  · exact PerNode.set_of_ne _ _ h
  · rfl

theorem closed_of_count (h : (groups id).current.count = 0) :
    groups.closed id capturing p = groups :=
  if_neg fun hc => hc.2 h

@[simp] theorem count_closed :
    (groups.closed id capturing p id).current.count = (groups id).current.count := by
  unfold closed
  split <;> simp [GroupState.push]

@[simp] theorem outer_closed :
    (groups.closed id capturing p id).outer = (groups id).outer := by
  unfold closed
  split <;> simp [GroupState.push]

theorem count_begun (h : (groups id).current.count + 1 < wordSize) :
    (groups.begun id capturing p id).current.count = (groups id).current.count + 1 := by
  unfold begun
  rw [PerNode.set_self]
  split <;> simp [GroupState.push, GroupState.countUp, Nat.mod_eq_of_lt h]

@[simp] theorem outer_begun : (groups.begun id capturing p id).outer = (groups id).outer := by
  unfold begun
  rw [PerNode.set_self]
  split <;> rfl

end Groups

section

variable {program : Program} {subject : Subject} {ceiling : PerNode Nat}
variable {a b : Nat} {rs : Registers} {groups kept : Groups} {ms ms' : List Match}
variable {is : List Instruction} {next : Label} {id body : NodeId} {capturing : Bool}

/-! ## Parts of the decision on one more repetition -/

theorem closeSpan_returns (hl : program.Linked)
    (h : program.HasAt a (closeSpan id capturing ++ is)) (hactive : (groups id).outer ≠ [])
    (hrest : ∀ b, program.HasAt b is →
      Returns program subject ceiling b rs (groups.closed id capturing rs.pos) kept ms) :
    Returns program subject ceiling a rs groups kept ms := by
  unfold closeSpan at h
  unfold Groups.closed at hrest
  cases capturing with
  | false =>
    exact .block h fun h => hrest _ h
  | true =>
    by_cases hcount : (groups id).current.count = 0
    · rw [if_neg (fun hc => hc.2 hcount)] at hrest
      refine .taken h hactive (decide_eq_true (by omega)) (hl.resolve h.tail.tail) ?_
      exact .block h.tail.tail fun h => hrest _ h
    · rw [if_pos ⟨rfl, hcount⟩] at hrest
      refine .passed h hactive (decide_eq_false (by omega)) fun h => ?_
      exact .pushPos h hactive fun h => .block h fun h => hrest _ h

/-- A repetition finds what its body finds, and is taken back. -/
theorem repeatBody_returns (h : program.HasAt a (repeatBody id body capturing ++ is))
    (hactive : (groups id).outer ≠ []) (hlt : (groups id).current.count < ceiling id)
    (hword : (groups id).current.count + 1 < wordSize)
    (hbody : Serves program subject ceiling (.node body) rs.pos
      (groups.begun id capturing rs.pos) ms)
    (hrest : ∀ b, program.HasAt b is → Returns program subject ceiling b rs groups kept ms') :
    Returns program subject ceiling a rs groups kept (ms ++ ms') := by
  have hback : (groups.set id (groups id).countUp id).countDown? = some (groups id) := by
    rw [PerNode.set_self]
    exact GroupState.countDown?_countUp hword
  have hrestored : (groups.set id (groups id).countUp).set id (groups id) = groups := by
    rw [PerNode.set_set]
    exact PerNode.set_eq_self rfl
  unfold repeatBody at h
  unfold Groups.begun at hbody
  cases capturing with
  | false =>
    refine .countUp h hactive hlt hword fun h => .call h hbody fun h => ?_
    refine .countDown h hback fun h => ?_
    rw [hrestored]
    exact hrest _ h
  | true =>
    refine .countUp h hactive hlt hword fun h => ?_
    have hactive' : (groups.set id (groups id).countUp id).outer ≠ [] := by
      rw [PerNode.set_self]
      exact hactive
    refine .pushPos h hactive' fun h => ?_
    rw [PerNode.set_self, PerNode.set_set]
    refine .call h hbody fun h => ?_
    refine .popPos h (g := (groups id).countUp) (by simp) fun h => ?_
    rw [PerNode.set_set]
    refine .countDown h hback fun h => ?_
    rw [hrestored]
    exact hrest _ h

/-- The recorded end is forgotten before the group fails. -/
theorem unwind_returns (hfail : Fails program subject ceiling)
    (h : program.HasAt a (unwind id capturing ++ is)) (hactive : (groups id).outer ≠ [])
    {p : Nat} : Returns program subject ceiling a rs (groups.closed id capturing p) groups [] := by
  unfold unwind at h
  refine .block h fun h => ?_
  cases capturing with
  | false =>
    exact .gotoTo h (hfail _ _)
  | true =>
    by_cases hcount : (groups id).current.count = 0
    · rw [Groups.closed_of_count hcount]
      exact .takenTo h hactive (decide_eq_true (by omega)) (hfail _ _)
    · rw [Groups.closed, if_pos ⟨rfl, hcount⟩]
      refine .passed h ?_ (decide_eq_false ?_) fun h => ?_
      · simpa [Condition.Ready, GroupState.push] using hactive
      · simp [GroupState.push]
        omega
      refine .popPos h (g := groups id) (by simp) fun h => ?_
      rw [PerNode.set_set, PerNode.set_eq_self rfl]
      exact .gotoTo h (hfail _ _)

theorem minGuard (hactive : (groups id).outer ≠ []) (min : UInt32) (target : Label) (p : Nat) :
    Guards subject rs (groups.closed id capturing p) target
      (decide ((groups id).current.count < min.toNat))
      (if min = 0 then [] else [branchCount id .lt min.toNat target]) := by
  refine .ofMin ?_ ?_
  · simpa [Condition.Ready] using hactive
  · simp [Condition.holds, Comparison.test]

theorem maxGuard (hactive : (groups id).outer ≠ []) (max : Bound) (target : Label) (p : Nat) :
    Guards subject rs (groups.closed id capturing p) target
      (!max.admitsMore (groups id).current.count)
      (match max with
        | .finite max => [branchCount id .ge max.toNat target]
        | .unbounded => []) := by
  cases max with
  | unbounded => exact .absent rfl
  | finite count =>
    refine .present ?_ ?_
    · simpa [Condition.Ready] using hactive
    · simp [Condition.holds, Comparison.test, Bound.admitsMore, ← decide_not]

/-- Going on, if the minimum is reached, and then failing: the end of a greedy decision. -/
theorem greedyStop_returns {min : UInt32} {label : Label} (hl : program.Linked)
    (hfail : Fails program subject ceiling)
    (h : program.HasAt a (place label :: ((if min = 0 then []
      else [branchCount id .lt min.toNat (.againFail id)]) ++
        (.call next :: (unwind id capturing ++ is)))))
    (hactive : (groups id).outer ≠ [])
    (hstop : min.toNat ≤ (groups id).current.count →
      Serves program subject ceiling next rs.pos (groups.closed id capturing rs.pos) ms) :
    Returns program subject ceiling a rs (groups.closed id capturing rs.pos) groups
      (if min.toNat ≤ (groups id).current.count then ms else []) := by
  refine .block h fun h => ?_
  refine .guard _ _ h (minGuard hactive _ _ _) ?_ fun hfree b h => ?_
  · intro hblocked h
    rw [if_neg (Nat.not_le.mpr (of_decide_eq_true hblocked))]
    exact ⟨_, hl.resolve h.tail, unwind_returns hfail h.tail hactive⟩
  · have hmin := Nat.not_lt.mp (of_decide_eq_false hfree)
    rw [if_pos hmin, ← List.append_nil ms]
    exact .call h (hstop hmin) fun h => unwind_returns hfail h hactive

/-- One more repetition first, and then going on. -/
theorem repeatGreedy_returns {min : UInt32} {max : Bound} (hl : program.Linked)
    (hfail : Fails program subject ceiling)
    (h : program.HasAt a (repeatGreedy id body capturing min max next ++
      (unwind id capturing ++ is)))
    (hactive : (groups id).outer ≠ [])
    (hlt : max.admitsMore (groups id).current.count = true →
      (groups id).current.count < ceiling id ∧ (groups id).current.count + 1 < wordSize)
    (hmore : max.admitsMore (groups id).current.count = true →
      Serves program subject ceiling (.node body) rs.pos
        ((groups.closed id capturing rs.pos).begun id capturing rs.pos) ms)
    (hstop : min.toNat ≤ (groups id).current.count →
      Serves program subject ceiling next rs.pos (groups.closed id capturing rs.pos) ms') :
    Returns program subject ceiling a rs (groups.closed id capturing rs.pos) groups
      ((if max.admitsMore (groups id).current.count then ms else []) ++
        (if min.toNat ≤ (groups id).current.count then ms' else [])) := by
  simp only [repeatGreedy, List.append_assoc, List.cons_append, List.nil_append] at h
  refine .guard _ _ h (maxGuard hactive _ _ _) ?_ fun hfree b h => ?_
  · intro hblocked h
    have hfull : max.admitsMore (groups id).current.count = false := by simpa using hblocked
    rw [hfull, if_neg Bool.false_ne_true, List.nil_append]
    exact ⟨_, hl.resolve h.right, greedyStop_returns hl hfail h.right hactive hstop⟩
  · have hadmits : max.admitsMore (groups id).current.count = true := by simpa using hfree
    rw [if_pos hadmits]
    exact repeatBody_returns h (by simpa using hactive) (by simpa using (hlt hadmits).1)
      (by simpa using (hlt hadmits).2) (hmore hadmits)
      fun b h => greedyStop_returns hl hfail h hactive hstop

/-- One more repetition, if the maximum allows it, and then failing: the end of a lazy decision. -/
theorem lazyMore_returns {max : Bound} {label : Label} (hl : program.Linked)
    (hfail : Fails program subject ceiling)
    (h : program.HasAt a (place label :: ((match max with
        | .finite max => [branchCount id .ge max.toNat (.againFail id)]
        | .unbounded => []) ++
      (repeatBody id body capturing ++ (unwind id capturing ++ is)))))
    (hactive : (groups id).outer ≠ [])
    (hlt : max.admitsMore (groups id).current.count = true →
      (groups id).current.count < ceiling id ∧ (groups id).current.count + 1 < wordSize)
    (hmore : max.admitsMore (groups id).current.count = true →
      Serves program subject ceiling (.node body) rs.pos
        ((groups.closed id capturing rs.pos).begun id capturing rs.pos) ms) :
    Returns program subject ceiling a rs (groups.closed id capturing rs.pos) groups
      (if max.admitsMore (groups id).current.count then ms else []) := by
  refine .block h fun h => ?_
  refine .guard _ _ h (maxGuard hactive _ _ _) ?_ fun hfree b h => ?_
  · intro hblocked h
    have hfull : max.admitsMore (groups id).current.count = false := by simpa using hblocked
    rw [hfull, if_neg Bool.false_ne_true]
    exact ⟨_, hl.resolve h.right, unwind_returns hfail h.right hactive⟩
  · have hadmits : max.admitsMore (groups id).current.count = true := by simpa using hfree
    rw [if_pos hadmits, ← List.append_nil ms]
    exact repeatBody_returns h (by simpa using hactive) (by simpa using (hlt hadmits).1)
      (by simpa using (hlt hadmits).2) (hmore hadmits) fun b h => unwind_returns hfail h hactive

/-- Going on first, if the minimum is reached, and then one more repetition. -/
theorem repeatLazy_returns {min : UInt32} {max : Bound} (hl : program.Linked)
    (hfail : Fails program subject ceiling)
    (h : program.HasAt a (repeatLazy id body capturing min max next ++
      (unwind id capturing ++ is)))
    (hactive : (groups id).outer ≠ [])
    (hlt : max.admitsMore (groups id).current.count = true →
      (groups id).current.count < ceiling id ∧ (groups id).current.count + 1 < wordSize)
    (hmore : max.admitsMore (groups id).current.count = true →
      Serves program subject ceiling (.node body) rs.pos
        ((groups.closed id capturing rs.pos).begun id capturing rs.pos) ms)
    (hstop : min.toNat ≤ (groups id).current.count →
      Serves program subject ceiling next rs.pos (groups.closed id capturing rs.pos) ms') :
    Returns program subject ceiling a rs (groups.closed id capturing rs.pos) groups
      ((if min.toNat ≤ (groups id).current.count then ms' else []) ++
        (if max.admitsMore (groups id).current.count then ms else [])) := by
  simp only [repeatLazy, List.append_assoc, List.cons_append, List.nil_append] at h
  refine .guard _ _ h (minGuard hactive _ _ _) ?_ fun hfree b h => ?_
  · intro hblocked h
    rw [if_neg (Nat.not_le.mpr (of_decide_eq_true hblocked)), List.nil_append]
    exact ⟨_, hl.resolve h.tail, lazyMore_returns hl hfail h.tail hactive hlt hmore⟩
  · have hmin := Nat.not_lt.mp (of_decide_eq_false hfree)
    rw [if_pos hmin]
    exact .call h (hstop hmin) fun h => lazyMore_returns hl hfail h hactive hlt hmore

/-- **A group tries one more repetition, and going on, in the order of its quantifier, and takes
back what it did.** -/
theorem repetition_returns {q : Quantifier} (hl : program.Linked)
    (hfail : Fails program subject ceiling)
    (h : program.HasAt a (repetition id body capturing q next ++ is))
    (hactive : (groups id).outer ≠ [])
    (hlt : q.max.admitsMore (groups id).current.count = true →
      (groups id).current.count < ceiling id ∧ (groups id).current.count + 1 < wordSize)
    (hmore : q.max.admitsMore (groups id).current.count = true →
      Serves program subject ceiling (.node body) rs.pos
        ((groups.closed id capturing rs.pos).begun id capturing rs.pos) ms)
    (hstop : q.min.toNat ≤ (groups id).current.count →
      Serves program subject ceiling next rs.pos (groups.closed id capturing rs.pos) ms') :
    Returns program subject ceiling a rs groups groups
      (q.inOrder (if q.max.admitsMore (groups id).current.count then ms else [])
        (if q.min.toNat ≤ (groups id).current.count then ms' else [])) := by
  simp only [repetition, List.append_assoc] at h
  refine closeSpan_returns hl h hactive fun b h => ?_
  unfold Quantifier.inOrder
  cases hg : q.greedy with
  | true =>
    rw [hg, if_pos rfl] at h
    exact repeatGreedy_returns hl hfail h hactive hlt hmore hstop
  | false =>
    rw [hg, if_neg Bool.false_ne_true] at h
    exact repeatLazy_returns hl hfail h hactive hlt hmore hstop

/-- **Entering a group finds what its repetitions find, and takes back the stay before it.** -/
theorem entry_returns (hfail : Fails program subject ceiling)
    (h : program.HasAt a (entry id capturing ++ is))
    (hagain : Serves program subject ceiling (.again id) rs.pos
      (groups.set id (groups id).enter) ms) :
    Returns program subject ceiling a rs groups groups ms := by
  have hback : (groups.set id (groups id).enter id).leave? = some (groups id) := by
    rw [PerNode.set_self]
    exact GroupState.leave?_enter _
  rw [← List.append_nil ms]
  refine .enter h fun h => .call h hagain fun h => ?_
  refine .leave h hback fun h => ?_
  rw [PerNode.set_set, PerNode.set_eq_self rfl]
  exact .gotoTo h (hfail _ _)

end

end PatternMachine
