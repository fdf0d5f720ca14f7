import Mathlib.Algebra.Group.Nat.Defs
import PatternMachine.Proofs.Returning

/-!
# The blocks of units

Wildcards, literals and anchors: their blocks hand on to the next label once for every count that
the quantifier admits, in the order of the reference meaning.

* `Fails` — what is used of the shared place of failure.
* `Lowering.offerDown`, `Lowering.offerUp` — the loops in which greedy units offer their counts from
  the largest one, and lazy literals from the smallest one.
* `Most` — the largest count of a literal at an offset.

Principal results: `wildcardBlock_returns`, `literalBlock_returns`, `anchorBlock_returns` — if the
next label finds `found k` behind `k` repetitions, the block finds these lists one after the other.
-/

set_option autoImplicit false

namespace PatternMachine

open Lowering

/-- Whatever the position and the groups are, the shared place of failure comes back. -/
def Fails (program : Program) (subject : Subject) (ceiling : PerNode Nat) : Prop :=
  ∀ p groups, Serves program subject ceiling .fail p groups []

/-- The loop that offers the counts from the one in `rep` downwards. The guard keeps it from going
below the minimum. -/
def Lowering.offerDown (label : Label) (min : UInt32) (next : Label) (length : Nat)
    (guard : List Instruction) : List Instruction :=
  place label :: branchIf .rep .eq (imm min) next ::
    (guard ++ [.call next, .sub .rep (.imm 1), .sub .pos (.imm length), .goto label])

section

variable {program : Program} {subject : Subject} {ceiling : PerNode Nat}
variable {a p : Nat} {groups : Groups} {next label : Label} {id : NodeId} {is : List Instruction}
variable {found : Nat → List Match}

/-! ## Greedy units -/

/-- The counts are offered in descending order. Without a guard the minimum is 0, where the loop
ends before it would go below. -/
theorem offerDown_returns {min : UInt32} {length rep maxrep : Nat} {guard : List Instruction}
    (hl : program.Linked) (hfail : Fails program subject ceiling)
    (h : program.HasAt a (offerDown label min next length guard))
    (hguard : ∀ k pos, Guards subject ⟨pos, k, maxrep⟩ groups .fail (decide (k < min.toNat)) guard)
    (hnext : ∀ k, min.toNat ≤ k → k ≤ rep →
      Serves program subject ceiling next (p + k * length) groups (found k)) :
    Returns program subject ceiling a ⟨p + rep * length, rep, maxrep⟩ groups groups
      ((List.range' min.toNat (rep + 1 - min.toNat)).reverse.flatMap found) := by
  have hloop := hl.resolve h
  induction rep with
  | zero =>
    refine .block h fun h => ?_
    by_cases heq : min.toNat = 0
    · simp only [heq, Nat.zero_add, Nat.sub_zero, List.range'_one, List.reverse_singleton,
        List.flatMap_singleton]
      exact .takenTo h trivial (decide_eq_true heq.symm) (hnext 0 (by omega) (Nat.le_refl _))
    · rw [show 0 + 1 - min.toNat = 0 by omega]
      refine .passed h trivial (decide_eq_false (Ne.symm heq)) fun h => ?_
      refine .guard _ _ h (hguard _ _) (fun _ _ => (hfail _ _).place) fun hfree => ?_
      exact absurd (Nat.pos_of_ne_zero heq) (of_decide_eq_false hfree)
  | succ rep ih =>
    refine .block h fun hat => ?_
    by_cases heq : rep + 1 = min.toNat
    · rw [show rep + 1 + 1 - min.toNat = 1 by omega, ← heq]
      simp only [List.range'_one, List.reverse_singleton, List.flatMap_singleton]
      exact .takenTo hat trivial (decide_eq_true heq) (hnext _ (by omega) (Nat.le_refl _))
    refine .passed hat trivial (decide_eq_false heq) fun hat => ?_
    refine .guard _ _ hat (hguard _ _) ?_ fun hfree b hat => ?_
    · intro hblocked _
      have hlt : rep + 1 < min.toNat := of_decide_eq_true hblocked
      rw [show rep + 1 + 1 - min.toNat = 0 by omega]
      exact (hfail _ _).place
    have hle : ¬ rep + 1 < min.toNat := of_decide_eq_false hfree
    have hlist : List.range' min.toNat (rep + 1 + 1 - min.toNat) =
        List.range' min.toNat (rep + 1 - min.toNat) ++ [rep + 1] := by
      rw [show rep + 1 + 1 - min.toNat = rep + 1 - min.toNat + 1 by omega, List.range'_concat,
        show min.toNat + 1 * (rep + 1 - min.toNat) = rep + 1 by omega]
    rw [hlist, List.reverse_append, List.reverse_singleton, List.singleton_append,
      List.flatMap_cons]
    refine .call hat (hnext _ (by omega) (Nat.le_refl _)) fun hat => ?_
    refine .sub hat (Nat.le_add_left 1 rep) fun hat => ?_
    have hpos : length ≤ p + (rep + 1) * length := by rw [Nat.succ_mul]; omega
    refine .sub hat hpos fun hat => ?_
    have hback : p + (rep + 1) * length - length = p + rep * length := by
      rw [Nat.succ_mul]; omega
    have := ih fun k hk hle => hnext k hk (by omega)
    refine .goto hat hloop ?_
    simpa [Registers.set, Registers.get, Operand.eval, hback] using this

/-! ## Wildcards -/

/-- The largest count of a wildcard at an offset. -/
def Bound.clipped (bound : Bound) (room : Nat) : Nat :=
  match bound with
  | .finite count => Nat.min room count.toNat
  | .unbounded => room

theorem Bound.clipped_le (bound : Bound) (room : Nat) : bound.clipped room ≤ room := by
  cases bound with
  | finite count => exact Nat.min_le_left _ _
  | unbounded => exact Nat.le_refl _

theorem Bound.le_clipped_iff (bound : Bound) (room k : Nat) :
    k ≤ bound.clipped room ↔ bound.covers k = true ∧ k ≤ room := by
  cases bound with
  | finite count =>
    simp only [clipped, covers, decide_eq_true_eq]
    exact Nat.le_min.trans and_comm
  | unbounded => simp [clipped, covers]

/-- Clipping leaves the largest count in `maxrep`. -/
theorem clip_returns {max : Bound} {rep maxrep : Nat} {kept : Groups} {ms : List Match}
    (hl : program.Linked) (h : program.HasAt a (clip id max ++ is))
    (hrest : ∀ b, program.HasAt b is → Returns program subject ceiling b
      ⟨p, rep, max.clipped (subject.size - p)⟩ groups kept ms) :
    Returns program subject ceiling a ⟨p, rep, maxrep⟩ groups kept ms := by
  cases max with
  | unbounded =>
    exact .set h fun h => hrest _ h
  | finite max =>
    refine .set h fun h => ?_
    have hplace := hl.resolve h.tail.tail
    by_cases hle : subject.size - p ≤ max.toNat
    · have hclip : (Bound.finite max).clipped (subject.size - p) = subject.size - p :=
        Nat.min_eq_left hle
      rw [hclip] at hrest
      exact .taken h trivial (decide_eq_true hle) hplace
        (.block h.tail.tail fun h => hrest _ h)
    · have hclip : (Bound.finite max).clipped (subject.size - p) = max.toNat :=
        Nat.min_eq_right (by omega)
      rw [hclip] at hrest
      refine .passed h trivial (decide_eq_false hle) fun h => ?_
      exact .set h fun h => .block h fun h => hrest _ h

theorem wildcardGreedy_returns {min : UInt32} {most rep : Nat} (hl : program.Linked)
    (hfail : Fails program subject ceiling) (hsize : subject.size < 2 ^ 63)
    (h : program.HasAt a (wildcardGreedy id min next)) (hmost : p + most ≤ subject.size)
    (hnext : ∀ k, min.toNat ≤ k → k ≤ most →
      Serves program subject ceiling next (p + k) groups (found k)) :
    Returns program subject ceiling a ⟨p, rep, most⟩ groups groups
      ((List.range' min.toNat (most + 1 - min.toNat)).reverse.flatMap found) := by
  refine .set h fun h => ?_
  have hword : p + most < wordSize := by unfold wordSize; omega
  refine .add h hword fun h => ?_
  have hloop : Returns program subject ceiling (a + 1 + 1) ⟨p + most * 1, most, most⟩ groups groups
      ((List.range' min.toNat (most + 1 - min.toNat)).reverse.flatMap found) := by
    have hat : program.HasAt (a + 1 + 1) (offerDown (.inner id 2) min next 1
        [branchIf .rep .lt (imm min) .fail]) := h
    have hguard : ∀ k pos, Guards subject ⟨pos, k, most⟩ groups .fail (decide (k < min.toNat))
        [branchIf .rep .lt (imm min) .fail] :=
      fun _ _ => .present trivial rfl
    refine offerDown_returns hl hfail hat hguard fun k hk hle => ?_
    rw [Nat.mul_one]
    exact hnext k hk hle
  rw [Nat.mul_one] at hloop
  exact hloop

/-- The counts are offered in ascending order. The position may lie behind the subject for a while,
when even the minimum is too large. -/
theorem wildcardLazy_loop {min : UInt32} {most rep : Nat} (hl : program.Linked)
    (hfail : Fails program subject ceiling) (hsize : subject.size < 2 ^ 63)
    (h : program.HasAt a [place label, branchIf .rep .eq (.register .maxrep) next,
      branchIf .rep .gt (.register .maxrep) .fail, .call next, .add .rep (.imm 1),
      .add .pos (.imm 1), .goto label])
    (hmost : p + most ≤ subject.size)
    (hnext : ∀ k, min.toNat ≤ k → k ≤ most →
      Serves program subject ceiling next (p + k) groups (found k))
    (hrep : min.toNat ≤ rep) :
    Returns program subject ceiling a ⟨p + rep, rep, most⟩ groups groups
      ((List.range' rep (most + 1 - rep)).flatMap found) := by
  have hloop := hl.resolve h
  induction hleft : most + 1 - rep generalizing rep with
  | zero =>
    refine .block h fun h => ?_
    refine .passed h trivial (decide_eq_false (show ¬ rep = most by omega)) fun h => ?_
    exact .takenTo h trivial (decide_eq_true (show most < rep by omega)) (hfail _ _)
  | succ left ih =>
    refine .block h fun h => ?_
    by_cases heq : rep = most
    · obtain rfl : left = 0 := by omega
      simp only [Nat.zero_add, List.range'_one, List.flatMap_singleton]
      exact .takenTo h trivial (decide_eq_true heq) (hnext _ hrep (by omega))
    refine .passed h trivial (decide_eq_false heq) fun h => ?_
    refine .passed h trivial (decide_eq_false (show ¬ most < rep by omega)) fun h => ?_
    rw [List.range'_succ, List.flatMap_cons]
    refine .call h (hnext _ hrep (by omega)) fun h => ?_
    have hrepWord : rep + 1 < wordSize := by unfold wordSize; omega
    have hposWord : p + rep + 1 < wordSize := by unfold wordSize; omega
    refine .add h hrepWord fun h => ?_
    refine .add h hposWord fun h => ?_
    refine .goto h hloop ?_
    exact @ih (rep + 1) (by omega) (by omega)

theorem wildcardLazy_returns {min : UInt32} {most rep : Nat} (hl : program.Linked)
    (hfail : Fails program subject ceiling) (hsize : subject.size < 2 ^ 63)
    (h : program.HasAt a (wildcardLazy id min next)) (hmost : p + most ≤ subject.size)
    (hnext : ∀ k, min.toNat ≤ k → k ≤ most →
      Serves program subject ceiling next (p + k) groups (found k)) :
    Returns program subject ceiling a ⟨p, rep, most⟩ groups groups
      ((List.range' min.toNat (most + 1 - min.toNat)).flatMap found) := by
  simp only [wildcardLazy, List.cons_append, List.nil_append] at h
  refine .set h fun hat => ?_
  by_cases hmin : min = 0
  · subst hmin
    have hloop : Returns program subject ceiling (a + 1) ⟨p + 0, 0, most⟩ groups groups
        ((List.range' 0 (most + 1 - 0)).flatMap found) :=
      wildcardLazy_loop hl hfail hsize hat hmost hnext (Nat.le_refl _)
    exact hloop
  · rw [if_neg hmin] at hat
    have hword : p + min.toNat < wordSize := by
      have := min.toNat_lt
      unfold wordSize
      omega
    exact .add hat hword fun hat =>
      wildcardLazy_loop hl hfail hsize hat hmost hnext (Nat.le_refl _)

/-- **A wildcard hands on once for every count, in order.** -/
theorem wildcardBlock_returns {q : Quantifier} {rs : Registers} (hl : program.Linked)
    (hfail : Fails program subject ceiling) (hsize : subject.size < 2 ^ 63)
    (h : program.HasAt a (wildcardBlock id q next)) (hp : rs.pos = p) (hle : p ≤ subject.size)
    (hnext : ∀ k, q.min.toNat ≤ k → q.max.covers k = true → p + k ≤ subject.size →
      Serves program subject ceiling next (p + k) groups (found k)) :
    Returns program subject ceiling a rs groups groups
      ((q.counts subject.size fun k => decide (p + k ≤ subject.size)).flatMap found) := by
  obtain ⟨pos, rep, maxrep⟩ := rs
  obtain rfl : pos = p := hp
  have hclip := q.max.clipped_le (subject.size - pos)
  have hmost : ∀ k, (q.max.covers k = true ∧ decide (pos + k ≤ subject.size) = true) ↔
      k ≤ q.max.clipped (subject.size - pos) := by
    intro k
    rw [Bound.le_clipped_iff, decide_eq_true_eq]
    exact and_congr_right fun _ => by omega
  have hserve : ∀ k, q.min.toNat ≤ k → k ≤ q.max.clipped (subject.size - pos) →
      Serves program subject ceiling next (pos + k) groups (found k) := by
    intro k hk hmost
    have := (Bound.le_clipped_iff _ _ _).mp hmost
    exact hnext k hk this.1 (by omega)
  rw [Quantifier.counts_eq (by omega) hmost]
  unfold wildcardBlock at h
  by_cases honce : q.isOnce = true
  · rw [if_pos honce] at h
    obtain ⟨hmin, hmax⟩ := Quantifier.isOnce_iff.mp honce
    simp only [hmin, hmax] at hserve ⊢
    by_cases hroom : pos < subject.size
    · have hmost : (Bound.finite 1).clipped (subject.size - pos) = 1 :=
        Nat.min_eq_right (by simp; omega)
      have hword : pos + 1 < wordSize := by unfold wordSize; omega
      have hlist : List.flatMap found
          (if q.greedy then (List.range' (1 : UInt32).toNat (1 + 1 - (1 : UInt32).toNat)).reverse
            else List.range' (1 : UInt32).toNat (1 + 1 - (1 : UInt32).toNat)) = found 1 := by
        cases q.greedy <;> simp
      rw [hmost, hlist]
      refine .passed h trivial (decide_eq_false (show ¬ pos ≥ subject.size by omega)) fun h => ?_
      refine .add h hword fun h => ?_
      exact .gotoTo h (hserve 1 (by simp) (Nat.le_of_eq hmost.symm))
    · have hmost : (Bound.finite 1).clipped (subject.size - pos) = 0 := by
        rw [show subject.size - pos = 0 by omega]
        rfl
      have hlist : List.flatMap found
          (if q.greedy then (List.range' (1 : UInt32).toNat (0 + 1 - (1 : UInt32).toNat)).reverse
            else List.range' (1 : UInt32).toNat (0 + 1 - (1 : UInt32).toNat)) = [] := by
        cases q.greedy <;> simp
      rw [hmost, hlist]
      exact .takenTo h trivial (decide_eq_true (show pos ≥ subject.size by omega)) (hfail _ _)
  · rw [if_neg honce] at h
    refine clip_returns hl h fun b h => ?_
    cases hg : q.greedy with
    | true =>
      rw [hg, if_pos rfl] at h
      exact wildcardGreedy_returns hl hfail hsize h (by omega) hserve
    | false =>
      rw [hg, if_neg (by simp)] at h
      exact wildcardLazy_returns hl hfail hsize h (by omega) hserve

/-! ## Literals -/

/-- The largest count of a literal at an offset: it is covered by the bound and occurs. -/
def Most (subject : Subject) (bytes : List UInt8) (max : Bound) (p most : Nat) : Prop :=
  ∀ k, (max.covers k = true ∧ occursTimes subject bytes k p = true) ↔ k ≤ most

theorem Most.pos_le {bytes : List UInt8} {max : Bound} {most k : Nat}
    (h : Most subject bytes max p most) (hp : p ≤ subject.size) (hk : k ≤ most) :
    p + k * bytes.length ≤ subject.size :=
  le_size_of_occursTimes hp ((h k).mpr hk).2

/-- The count can be raised exactly if the bound and the subject allow it. -/
theorem Most.lt_iff {bytes : List UInt8} {max : Bound} {most k : Nat}
    (h : Most subject bytes max p most) (hk : k ≤ most) :
    k < most ↔
      max.covers (k + 1) = true ∧ occursAt subject bytes (p + k * bytes.length) = true := by
  rw [← Nat.succ_le_iff, ← h (k + 1), occursTimes_succ, ((h k).mpr hk).2, Bool.true_and]

theorem exists_mostOf {bytes : List UInt8} (hbytes : 0 < bytes.length) (max : Bound)
    (hp : p ≤ subject.size) : ∃ most, most ≤ subject.size ∧ Most subject bytes max p most := by
  refine exists_most ⟨?_, rfl⟩ ?_ ?_
  · cases max <;> simp [Bound.covers]
  · rintro k ⟨hcovers, hoccurs⟩
    rw [occursTimes_succ, Bool.and_eq_true] at hoccurs
    refine ⟨?_, hoccurs.1⟩
    cases max with
    | unbounded => rfl
    | finite count =>
      simp only [Bound.covers, decide_eq_true_eq] at hcovers ⊢
      omega
  · rintro k ⟨_, hoccurs⟩
    have hle := le_size_of_occursTimes hp hoccurs
    have : k * 1 ≤ k * bytes.length := Nat.mul_le_mul_left k hbytes
    omega

/-- One more occurrence is taken, if there is one. -/
theorem occurrence_returns {bytes : List UInt8} {max : Bound} {most rep maxrep b : Nat}
    {start other : Label} {kept : Groups} {ms : List Match} (hsize : subject.size < 2 ^ 63)
    (h : program.HasAt a (unlessLiteral bytes other :: .add .rep (.imm 1) ::
      .add .pos (.imm bytes.length) :: .goto start :: is))
    (hp : p ≤ subject.size) (hmostSize : most ≤ subject.size)
    (hmost : Most subject bytes max p most) (hrep : rep ≤ most)
    (hcovers : max.covers (rep + 1) = true) (hstart : program.resolve? start = some b)
    (hnone : rep = most → ∃ c, program.resolve? other = some c ∧
      Returns program subject ceiling c ⟨p + rep * bytes.length, rep, maxrep⟩ groups kept ms)
    (hmore : rep < most → Returns program subject ceiling b
      ⟨p + (rep + 1) * bytes.length, rep + 1, maxrep⟩ groups kept ms) :
    Returns program subject ceiling a ⟨p + rep * bytes.length, rep, maxrep⟩ groups kept ms := by
  by_cases heq : rep = most
  · obtain ⟨c, hc, hreturns⟩ := hnone heq
    have hstop := mt (hmost.lt_iff hrep).mpr (by omega)
    refine .taken h trivial ?_ hc hreturns
    simpa [Condition.holds, hcovers] using hstop
  · have hoccurs := ((hmost.lt_iff hrep).mp (by omega)).2
    have hpos := hmost.pos_le hp (show rep + 1 ≤ most by omega)
    have hnext : p + rep * bytes.length + bytes.length = p + (rep + 1) * bytes.length := by
      rw [Nat.succ_mul]; omega
    have hrepWord : rep + 1 < wordSize := by unfold wordSize; omega
    have hposWord : p + rep * bytes.length + bytes.length < wordSize := by unfold wordSize; omega
    refine .passed h trivial (by simp [Condition.holds, hoccurs]) fun h => ?_
    refine .add h hrepWord fun h => ?_
    refine .add h hposWord fun h => ?_
    refine .goto h hstart ?_
    have := hmore (by omega)
    rw [← hnext] at this
    exact this

/-- The literal is taken as often as possible. -/
theorem expand_returns {bytes : List UInt8} {max : Bound} {most rep maxrep b : Nat}
    {start offer : Label} {guard : List Instruction} {kept : Groups} {ms : List Match}
    (hl : program.Linked) (hsize : subject.size < 2 ^ 63)
    (h : program.HasAt a (place start :: (guard ++ unlessLiteral bytes offer ::
      .add .rep (.imm 1) :: .add .pos (.imm bytes.length) :: .goto start :: is)))
    (hguard : ∀ k pos, Guards subject ⟨pos, k, maxrep⟩ groups offer (!max.covers (k + 1)) guard)
    (hp : p ≤ subject.size) (hmostSize : most ≤ subject.size)
    (hmost : Most subject bytes max p most) (hoffer : program.resolve? offer = some b)
    (hrest : Returns program subject ceiling b ⟨p + most * bytes.length, most, maxrep⟩
      groups kept ms)
    (hrep : rep ≤ most) :
    Returns program subject ceiling a ⟨p + rep * bytes.length, rep, maxrep⟩ groups kept ms := by
  have hloop := hl.resolve h
  induction hleft : most - rep generalizing rep with
  | zero =>
    obtain rfl : rep = most := by omega
    refine .block h fun h => ?_
    refine .guard _ _ h (hguard _ _) (fun _ _ => ⟨b, hoffer, hrest⟩) fun hfree c h => ?_
    exact occurrence_returns hsize h hp hmostSize hmost hrep (by simpa using hfree) hloop
      (fun _ => ⟨b, hoffer, hrest⟩) (fun hlt => absurd hlt (Nat.lt_irrefl _))
  | succ left ih =>
    have hcovers := ((hmost.lt_iff hrep).mp (by omega)).1
    refine .block h fun h => ?_
    refine .guard _ _ h (hguard _ _) (fun hblocked => by simp [hcovers] at hblocked) fun _ c h => ?_
    exact occurrence_returns hsize h hp hmostSize hmost hrep hcovers hloop
      (fun heq => by omega) (fun _ => @ih (rep + 1) (by omega) (by omega))

theorem literalGreedy_returns {bytes : List UInt8} {min : UInt32} {max : Bound}
    {most rep maxrep : Nat} (hl : program.Linked) (hfail : Fails program subject ceiling)
    (hsize : subject.size < 2 ^ 63)
    (h : program.HasAt a (literalGreedy id bytes min max next)) (hp : p ≤ subject.size)
    (hmostSize : most ≤ subject.size) (hmost : Most subject bytes max p most)
    (hnext : ∀ k, min.toNat ≤ k → k ≤ most →
      Serves program subject ceiling next (p + k * bytes.length) groups (found k)) :
    Returns program subject ceiling a ⟨p, rep, maxrep⟩ groups groups
      ((List.range' min.toNat (most + 1 - min.toNat)).reverse.flatMap found) := by
  simp only [literalGreedy, List.append_assoc, List.cons_append, List.nil_append] at h
  refine .set h fun hat => ?_
  have hguard : ∀ k pos, Guards subject ⟨pos, k, maxrep⟩ groups .fail (decide (k < min.toNat))
      (if min = 0 then [] else [branchIf .rep .lt (imm min) .fail]) :=
    fun _ _ => .ofMin trivial rfl
  have hoffer := hat.tail.right.tail.tail.tail.tail
  have hreturns : Returns program subject ceiling (a + 1) ⟨p + 0 * bytes.length, 0, maxrep⟩
      groups groups
      ((List.range' min.toNat (most + 1 - min.toNat)).reverse.flatMap found) := by
    refine expand_returns hl hsize hat (fun k pos => ?_) hp hmostSize hmost (hl.resolve hoffer)
      (offerDown_returns hl hfail hoffer hguard hnext) (Nat.zero_le _)
    cases max with
    | unbounded => exact .absent rfl
    | finite count =>
      refine .present trivial ?_
      rw [Bound.covers, ← decide_not]
      exact decide_eq_decide.mpr (show k ≥ count.toNat ↔ ¬ k + 1 ≤ count.toNat by omega)
  rw [Nat.zero_mul] at hreturns
  exact hreturns

/-- The loop of lazy literals. -/
def Lowering.offerUp (id : NodeId) (bytes : List UInt8) (min : UInt32) (max : Bound)
    (next : Label) : List Instruction :=
  place (.inner id 1) ::
    ((match max with
      | .finite max => [branchIf .rep .eq (imm max) next]
      | .unbounded => []) ++
    ((if min = 0 then [] else [branchIf .rep .lt (imm min) (.inner id 2)]) ++
    [.call next,
      place (.inner id 2),
      unlessLiteral bytes .fail,
      .add .rep (.imm 1),
      .add .pos (.imm bytes.length),
      .goto (.inner id 1)]))

/-- One round of the loop: the count is offered unless it is below the minimum, and then the next
one is tried. -/
theorem offerUp_round {bytes : List UInt8} {min : UInt32} {max : Bound} {most rep maxrep : Nat}
    {rest : List Match} (hl : program.Linked) (hfail : Fails program subject ceiling)
    (hsize : subject.size < 2 ^ 63) (h : program.HasAt a (offerUp id bytes min max next))
    (hp : p ≤ subject.size) (hmostSize : most ≤ subject.size)
    (hmost : Most subject bytes max p most) (hvalid : max.covers min.toNat = true)
    (hnext : min.toNat ≤ rep →
      Serves program subject ceiling next (p + rep * bytes.length) groups (found rep))
    (hrep : rep ≤ most) (hnone : rep = most → rest = [])
    (hmore : rep < most → Returns program subject ceiling a
      ⟨p + (rep + 1) * bytes.length, rep + 1, maxrep⟩ groups groups rest) :
    Returns program subject ceiling a ⟨p + rep * bytes.length, rep, maxrep⟩ groups groups
      ((if min.toNat ≤ rep then found rep else []) ++ rest) := by
  have hloop := hl.resolve h
  have hcoversRep := ((hmost rep).mpr hrep).1
  -- behind the offer one more occurrence is taken, unless the maximum has been reached
  have hretry : ∀ {b}, max.covers (rep + 1) = true →
      program.HasAt b [place (.inner id 2), unlessLiteral bytes .fail, .add .rep (.imm 1),
        .add .pos (.imm bytes.length), .goto (.inner id 1)] →
      Returns program subject ceiling b ⟨p + rep * bytes.length, rep, maxrep⟩ groups groups
        rest := by
    intro b hcovers h
    refine .block h fun h => ?_
    refine occurrence_returns hsize h hp hmostSize hmost hrep hcovers hloop ?_ hmore
    intro heq
    rw [hnone heq]
    exact (hfail _ _).place
  refine .block h fun h => ?_
  refine .guard next (!max.covers (rep + 1)) h ?_ ?_ fun hfree b h => ?_
  · cases max with
    | unbounded => exact .absent rfl
    | finite count =>
      simp only [Bound.covers, decide_eq_true_eq] at hcoversRep
      refine .present trivial ?_
      rw [Bound.covers, ← decide_not]
      exact decide_eq_decide.mpr (show rep = count.toNat ↔ ¬ rep + 1 ≤ count.toNat by omega)
  · intro hblocked _
    have hlast : rep = most := by
      have hno := mt (hmost (rep + 1)).mpr fun hmore => by simp [hmore.1] at hblocked
      omega
    have hmin : min.toNat ≤ rep := by
      cases max with
      | unbounded => cases hblocked
      | finite count =>
        simp only [Bound.covers, decide_eq_true_eq, Bool.not_eq_true', decide_eq_false_iff_not]
          at hblocked hvalid
        omega
    rw [hnone hlast, List.append_nil, if_pos hmin]
    exact (hnext hmin).place
  have hcovers : max.covers (rep + 1) = true := by simpa using hfree
  refine .guard _ _ h (.ofMin trivial rfl) ?_ fun hfree b h => ?_
  · intro hblocked h
    have hmin : rep < min.toNat := of_decide_eq_true hblocked
    rw [if_neg (by omega), List.nil_append]
    exact ⟨_, hl.resolve h.tail, hretry hcovers h.tail⟩
  · have hmin : ¬ rep < min.toNat := of_decide_eq_false hfree
    rw [if_pos (by omega)]
    exact .call h (hnext (by omega)) fun h => hretry hcovers h

/-- The counts are offered in ascending order. -/
theorem offerUp_returns {bytes : List UInt8} {min : UInt32} {max : Bound}
    {most rep left maxrep : Nat} (hl : program.Linked) (hfail : Fails program subject ceiling)
    (hsize : subject.size < 2 ^ 63) (h : program.HasAt a (offerUp id bytes min max next))
    (hp : p ≤ subject.size) (hmostSize : most ≤ subject.size)
    (hmost : Most subject bytes max p most) (hvalid : max.covers min.toNat = true)
    (hnext : ∀ k, min.toNat ≤ k → k ≤ most →
      Serves program subject ceiling next (p + k * bytes.length) groups (found k))
    (hleft : rep + left = most) :
    Returns program subject ceiling a ⟨p + rep * bytes.length, rep, maxrep⟩ groups groups
      (((List.range' rep (left + 1)).filter fun k => decide (min.toNat ≤ k)).flatMap found) := by
  have hlist : ∀ rep left,
      ((List.range' rep (left + 1)).filter fun k => decide (min.toNat ≤ k)).flatMap found =
        (if min.toNat ≤ rep then found rep else []) ++
          ((List.range' (rep + 1) left).filter fun k => decide (min.toNat ≤ k)).flatMap found := by
    intro rep left
    rw [List.range'_succ]
    by_cases hmin : min.toNat ≤ rep <;> simp [hmin]
  induction left generalizing rep with
  | zero =>
    rw [hlist]
    exact offerUp_round hl hfail hsize h hp hmostSize hmost hvalid
      (fun hk => hnext rep hk (by omega)) (by omega) (fun _ => rfl) (fun hlt => by omega)
  | succ left ih =>
    rw [hlist]
    exact offerUp_round hl hfail hsize h hp hmostSize hmost hvalid
      (fun hk => hnext rep hk (by omega)) (by omega) (fun hlast => by omega)
      (fun _ => @ih (rep + 1) (by omega))

theorem literalLazy_returns {bytes : List UInt8} {min : UInt32} {max : Bound}
    {most rep maxrep : Nat} (hl : program.Linked) (hfail : Fails program subject ceiling)
    (hsize : subject.size < 2 ^ 63) (h : program.HasAt a (literalLazy id bytes min max next))
    (hp : p ≤ subject.size) (hmostSize : most ≤ subject.size)
    (hmost : Most subject bytes max p most) (hvalid : max.covers min.toNat = true)
    (hnext : ∀ k, min.toNat ≤ k → k ≤ most →
      Serves program subject ceiling next (p + k * bytes.length) groups (found k)) :
    Returns program subject ceiling a ⟨p, rep, maxrep⟩ groups groups
      ((List.range' min.toNat (most + 1 - min.toNat)).flatMap found) := by
  simp only [literalLazy, List.append_assoc, List.cons_append, List.nil_append] at h
  refine .set h fun h => ?_
  have hreturns : Returns program subject ceiling (a + 1) ⟨p + 0 * bytes.length, 0, maxrep⟩
      groups groups
      (((List.range' 0 (most + 1)).filter fun k => decide (min.toNat ≤ k)).flatMap found) :=
    offerUp_returns hl hfail hsize h hp hmostSize hmost hvalid hnext (Nat.zero_add _)
  rw [Nat.zero_mul, ← List.range_eq_range', Quantifier.filter_range_le] at hreturns
  exact hreturns

theorem literalOnce_returns {bytes : List UInt8} {rep maxrep : Nat} {ms : List Match}
    (hfail : Fails program subject ceiling) (hsize : subject.size < 2 ^ 63)
    (h : program.HasAt a (literalOnce bytes next))
    (hnext : occursAt subject bytes p = true →
      Serves program subject ceiling next (p + bytes.length) groups ms)
    (hnone : occursAt subject bytes p = false → ms = []) :
    Returns program subject ceiling a ⟨p, rep, maxrep⟩ groups groups ms := by
  cases hoccurs : occursAt subject bytes p with
  | false =>
    rw [hnone hoccurs]
    exact .takenTo h trivial (by simp [Condition.holds, hoccurs]) (hfail _ _)
  | true =>
    have hword : p + bytes.length < wordSize := by
      have := (occursAt_iff.mp hoccurs).1
      unfold wordSize
      omega
    refine .passed h trivial (by simp [Condition.holds, hoccurs]) fun h => ?_
    exact .add h hword fun h => .gotoTo h (hnext hoccurs)

/-- **A literal hands on once for every count, in order.** -/
theorem literalBlock_returns {bytes : List UInt8} {q : Quantifier} {rs : Registers}
    (hl : program.Linked) (hfail : Fails program subject ceiling) (hsize : subject.size < 2 ^ 63)
    (h : program.HasAt a (literalBlock id bytes q next)) (hp : rs.pos = p)
    (hle : p ≤ subject.size) (hbytes : 0 < bytes.length) (hvalid : q.max.covers q.min.toNat = true)
    (hnext : ∀ k, q.min.toNat ≤ k → q.max.covers k = true →
      occursTimes subject bytes k p = true →
      Serves program subject ceiling next (p + k * bytes.length) groups (found k)) :
    Returns program subject ceiling a rs groups groups
      ((q.counts subject.size fun k => occursTimes subject bytes k p).flatMap found) := by
  obtain ⟨pos, rep, maxrep⟩ := rs
  obtain rfl : pos = p := hp
  obtain ⟨most, hmostSize, hmost⟩ := exists_mostOf hbytes q.max hle
  have hserve : ∀ k, q.min.toNat ≤ k → k ≤ most →
      Serves program subject ceiling next (pos + k * bytes.length) groups (found k) := by
    intro k hk hkmost
    obtain ⟨hcovers, hoccurs⟩ := (hmost k).mpr hkmost
    exact hnext k hk hcovers hoccurs
  rw [Quantifier.counts_eq hmostSize hmost]
  unfold literalBlock at h
  by_cases honce : q.isOnce = true
  · rw [if_pos honce] at h
    obtain ⟨hmin, hmax⟩ := Quantifier.isOnce_iff.mp honce
    have hiff : 0 < most ↔ occursAt subject bytes pos = true := by
      have := hmost.lt_iff (Nat.zero_le most)
      simpa [hmax, Bound.covers] using this
    have hmostLe : most ≤ 1 := by
      have := ((hmost most).mpr (Nat.le_refl _)).1
      simpa [hmax, Bound.covers] using this
    rw [hmin]
    refine literalOnce_returns hfail hsize h ?_ ?_
    · intro hoccurs
      obtain rfl : most = 1 := by have := hiff.mpr hoccurs; omega
      have := hserve 1 (by simp [hmin]) (Nat.le_refl _)
      cases q.greedy <;> simpa using this
    · intro hoccurs
      have hnone : ¬ 0 < most := by
        rw [hiff, hoccurs]
        exact Bool.false_ne_true
      obtain rfl : most = 0 := by omega
      cases q.greedy <;> simp
  · rw [if_neg honce] at h
    cases hg : q.greedy with
    | true =>
      rw [hg, if_pos rfl] at h
      exact literalGreedy_returns hl hfail hsize h hle hmostSize hmost hserve
    | false =>
      rw [hg, if_neg (by simp)] at h
      exact literalLazy_returns hl hfail hsize h hle hmostSize hmost hvalid hserve

/-! ## Anchors -/

theorem newlineAt_here (subject : Subject) (p : Nat) :
    newlineAt subject p 0 = (subject[p]? == some 10) := by
  simp [newlineAt]

theorem newlineAt_before (subject : Subject) (p : Nat) :
    newlineAt subject (p + 1) (-1) = (subject[p]? == some 10) := by
  have : ((p + 1 : Nat) : Int) + -1 = .ofNat p := by
    rw [Int.ofNat_eq_natCast]
    omega
  rw [newlineAt, this]

/-- A choice of two conditions, of which either hands on, and failure behind them. -/
theorem either_returns {c d : Condition} {rs : Registers} {holds : Bool} {ms : List Match}
    (hfail : Fails program subject ceiling)
    (h : program.HasAt a [.branch c next, .branch d next, .goto .fail])
    (hc : c.Ready groups) (hd : d.Ready groups)
    (hholds : holds = (c.holds subject rs groups || d.holds subject rs groups))
    (hnext : holds = true → Serves program subject ceiling next rs.pos groups ms) :
    Returns program subject ceiling a rs groups groups (if holds then ms else []) := by
  cases hfirst : c.holds subject rs groups with
  | true =>
    obtain rfl : holds = true := by simp [hholds, hfirst]
    exact .takenTo h hc hfirst (hnext rfl)
  | false =>
    refine .passed h hc hfirst fun h => ?_
    cases hsecond : d.holds subject rs groups with
    | true =>
      obtain rfl : holds = true := by simp [hholds, hsecond]
      exact .takenTo h hd hsecond (hnext rfl)
    | false =>
      obtain rfl : holds = false := by simp [hholds, hfirst, hsecond]
      refine .passed h hd hsecond fun h => ?_
      exact .gotoTo h (hfail _ _)

/-- A branch to failure, unless a condition holds. -/
theorem unless_returns {c : Condition} {rs : Registers} {holds : Bool} {ms : List Match}
    (hfail : Fails program subject ceiling) (h : program.HasAt a [.branch c .fail, .goto next])
    (hc : c.Ready groups) (hholds : holds = !c.holds subject rs groups)
    (hnext : holds = true → Serves program subject ceiling next rs.pos groups ms) :
    Returns program subject ceiling a rs groups groups (if holds then ms else []) := by
  cases hbranch : c.holds subject rs groups with
  | true =>
    obtain rfl : holds = false := by simp [hholds, hbranch]
    exact .takenTo h hc hbranch (hfail _ _)
  | false =>
    obtain rfl : holds = true := by simp [hholds, hbranch]
    refine .passed h hc hbranch fun h => ?_
    exact .gotoTo h (hnext rfl)

/-- **An anchor hands on where it holds.** -/
theorem anchorBlock_returns {kind : Anchor} {rs : Registers} {ms : List Match}
    (hfail : Fails program subject ceiling) (h : program.HasAt a (anchorBlock kind next))
    (hnext : kind.holds subject rs.pos = true →
      Serves program subject ceiling next rs.pos groups ms) :
    Returns program subject ceiling a rs groups groups
      (if kind.holds subject rs.pos then ms else []) := by
  cases kind with
  | start =>
    refine unless_returns hfail h trivial ?_ hnext
    by_cases hpos : rs.pos = 0 <;>
      simp [Anchor.holds, Condition.holds, Comparison.test, Registers.get, Operand.eval, hpos]
  | finish =>
    refine unless_returns hfail h trivial ?_ hnext
    by_cases hpos : rs.pos = subject.size <;>
      simp [Anchor.holds, Condition.holds, Comparison.test, Registers.get, Operand.eval, hpos]
  | lineStart =>
    refine either_returns hfail h trivial trivial ?_ hnext
    obtain ⟨pos, rep, maxrep⟩ := rs
    cases pos with
    | zero => rfl
    | succ pos =>
      simp [Anchor.holds, Condition.holds, Comparison.test, Registers.get, Operand.eval,
        newlineAt_before]
  | lineEnd =>
    refine either_returns hfail h trivial trivial ?_ hnext
    by_cases hpos : rs.pos = subject.size <;>
      simp [Anchor.holds, Condition.holds, Comparison.test, Registers.get, Operand.eval, hpos,
        newlineAt_here]

end

end PatternMachine
