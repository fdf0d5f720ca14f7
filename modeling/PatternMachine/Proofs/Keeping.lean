import PatternMachine.Proofs.Promises

/-!
# Blocks keep promises

The blocks of units and of groups, with a continuation, and for groups a body, of which only the
labels are known.  What is said here is less than that a block finds the right matches, and needs no
order of counts: it is enough to know with which positions and states of the groups a block can hand
on.

Principal results: `wildcardBlock_proceeds`, `literalBlock_proceeds`, `anchorBlock_proceeds` — a
block of a unit keeps a promise that allows going on after every count from the minimum on that fits
into the subject.  `repetition_proceeds`, `entry_proceeds` — the blocks of a group keep a promise
that allows the body one more repetition, and going on after enough of them.
-/

set_option autoImplicit false

namespace PatternMachine

open Lowering

/-- The number of calls that a unit has pending at most while the search goes on behind it. -/
def Quantifier.unitCalls (q : Quantifier) : Nat := if q.isOnce then 0 else 1

namespace Promise

variable {promise : Promise} {program : Program} {subject : Subject} {ceiling : PerNode Nat}
variable {n room a b p rep maxrep : Nat} {rs : Registers} {groups : Groups} {next label : Label}
variable {is : List Instruction} {id : NodeId} {min : UInt32} {bytes : List UInt8} {max : Bound}

/-! ## Wildcards -/

/-- The counts from the one in `rep` downwards. -/
theorem offerDown_proceeds {length : Nat} {guard : List Instruction} (hf : program.Framed)
    (h : program.HasAt a (offerDown label min next length guard))
    (hguard : ∀ k pos, Guards subject ⟨pos, k, maxrep⟩ groups .fail (decide (k < min.toNat)) guard)
    (hnext : ∀ k, min.toNat ≤ k → k ≤ rep →
      promise.Allows program subject ceiling n room next (p + k * length) groups) :
    promise.Proceeds program subject ceiling n (room + 1) a ⟨p + rep * length, rep, maxrep⟩
      groups := by
  have hloop := hf.linked.resolve h
  induction n generalizing rep with
  | zero => exact .zero
  | succ n ih =>
    have hoffer : min.toNat ≤ rep →
        promise.Allows program subject ceiling n room next (p + rep * length) groups :=
      fun hmin => (hnext rep hmin (Nat.le_refl rep)).of_le (Nat.le_succ n)
    refine .place h fun h => .branch h (fun heq => ?_) fun hne h => ?_
    · have hmin : rep = min.toNat := of_decide_eq_true heq
      exact ((hoffer (Nat.le_of_eq hmin.symm)).of_room (Nat.le_succ room)).jump
    refine .guard _ _ h (hguard _ _) (fun _ _ => (Allows.fail hf).jump) fun hfree b h => ?_
    have hmin : ¬ rep < min.toNat := of_decide_eq_false hfree
    refine .call h (hoffer (by omega)) fun h => .sub h fun hone h => .sub h fun _ h => ?_
    refine .goto h (Proceeds.at_label ?_ hloop)
    obtain ⟨rep, rfl⟩ : ∃ k, rep = k + 1 := Nat.exists_eq_add_of_le' hone
    have hback : p + (rep + 1) * length - length = p + rep * length := by
      rw [Nat.succ_mul]
      omega
    have := @ih rep fun k hk hle => (hnext k hk (by omega)).of_le (Nat.le_succ n)
    simpa [Registers.set, Registers.get, Operand.eval, hback] using this

/-- Clipping leaves a count in `maxrep` that fits into the subject. -/
theorem clip_proceeds (hf : program.Framed) (h : program.HasAt a (clip id max ++ is))
    (hp : p ≤ subject.size)
    (hrest : ∀ b most, p + most ≤ subject.size → program.HasAt b is →
      promise.Proceeds program subject ceiling n room b ⟨p, rep, most⟩ groups) :
    promise.Proceeds program subject ceiling n room a ⟨p, rep, maxrep⟩ groups := by
  have hroom : p + (subject.size - p) ≤ subject.size := by omega
  cases max with
  | unbounded => exact .set h fun h => hrest _ _ hroom h
  | finite max =>
    refine .set h fun h => ?_
    have hplace := hf.linked.resolve h.tail.tail
    refine .branch h (fun _ => ?_) fun hmore h => ?_
    · exact Proceeds.at_label (.block h.tail.tail fun h => hrest _ _ hroom h) hplace
    · have hlt : ¬ subject.size - p ≤ max.toNat := of_decide_eq_false hmore
      have hfits : p + max.toNat ≤ subject.size := by omega
      exact .set h fun h => .block h fun h => hrest _ _ hfits h

theorem wildcardGreedy_proceeds {most : Nat} (hf : program.Framed)
    (h : program.HasAt a (wildcardGreedy id min next))
    (hnext : ∀ k, min.toNat ≤ k → k ≤ most →
      promise.Allows program subject ceiling n room next (p + k) groups) :
    promise.Proceeds program subject ceiling n (room + 1) a ⟨p, rep, most⟩ groups := by
  refine .set h fun h => .add h fun h => ?_
  have hat : program.HasAt (a + 1 + 1) (offerDown (.inner id 2) min next 1
      [branchIf .rep .lt (imm min) .fail]) := h
  have hloop : promise.Proceeds program subject ceiling n (room + 1) (a + 1 + 1)
      ⟨p + most * 1, most, most⟩ groups := by
    refine offerDown_proceeds hf hat (fun _ _ => .present trivial rfl) fun k hk hle => ?_
    rw [Nat.mul_one]
    exact hnext k hk hle
  rw [Nat.mul_one] at hloop
  exact hloop

/-- The counts from the one in `rep` upwards. -/
theorem wildcardLazy_loop_proceeds {most : Nat} (hf : program.Framed)
    (h : program.HasAt a [Lowering.place label, branchIf .rep .eq (.register .maxrep) next,
      branchIf .rep .gt (.register .maxrep) .fail, .call next, .add .rep (.imm 1),
      .add .pos (.imm 1), .goto label])
    (hnext : ∀ k, min.toNat ≤ k → k ≤ most →
      promise.Allows program subject ceiling n room next (p + k) groups)
    (hrep : min.toNat ≤ rep) :
    promise.Proceeds program subject ceiling n (room + 1) a ⟨p + rep, rep, most⟩ groups := by
  have hloop := hf.linked.resolve h
  induction n generalizing rep with
  | zero => exact .zero
  | succ n ih =>
    have hoffer : rep ≤ most →
        promise.Allows program subject ceiling n room next (p + rep) groups :=
      fun hle => (hnext rep hrep hle).of_le (Nat.le_succ n)
    refine .place h fun h => .branch h (fun heq => ?_) fun _ h => ?_
    · have hlast : rep = most := of_decide_eq_true heq
      exact ((hoffer (Nat.le_of_eq hlast)).of_room (Nat.le_succ room)).jump
    refine .branch h (fun _ => (Allows.fail hf).jump) fun hmore h => ?_
    have hle : ¬ most < rep := of_decide_eq_false hmore
    refine .call h (hoffer (by omega)) fun h => .add h fun h => .add h fun h => ?_
    refine .goto h (Proceeds.at_label ?_ hloop)
    exact @ih (rep + 1) (fun k hk hle => (hnext k hk hle).of_le (Nat.le_succ n)) (by omega)

theorem wildcardLazy_proceeds {most : Nat} (hf : program.Framed)
    (h : program.HasAt a (wildcardLazy id min next))
    (hnext : ∀ k, min.toNat ≤ k → k ≤ most →
      promise.Allows program subject ceiling n room next (p + k) groups) :
    promise.Proceeds program subject ceiling n (room + 1) a ⟨p, rep, most⟩ groups := by
  simp only [wildcardLazy, List.cons_append, List.nil_append] at h
  refine .set h fun h => ?_
  by_cases hmin : min = 0
  · subst hmin
    have hloop : promise.Proceeds program subject ceiling n (room + 1) (a + 1) ⟨p + 0, 0, most⟩
        groups := wildcardLazy_loop_proceeds hf h hnext (Nat.le_refl 0)
    exact hloop
  · rw [if_neg hmin] at h
    exact .add h fun h => wildcardLazy_loop_proceeds hf h hnext (Nat.le_refl _)

/-- **A wildcard keeps a promise** that allows going on behind every count. -/
theorem wildcardBlock_proceeds {q : Quantifier} (hf : program.Framed)
    (h : program.HasAt a (wildcardBlock id q next)) (hp : rs.pos = p) (hle : p ≤ subject.size)
    (hnext : ∀ k, q.min.toNat ≤ k → p + k ≤ subject.size →
      promise.Allows program subject ceiling n room next (p + k) groups) :
    promise.Proceeds program subject ceiling n (room + q.unitCalls) a rs groups := by
  obtain ⟨pos, rep, maxrep⟩ := rs
  obtain rfl : pos = p := hp
  unfold wildcardBlock at h
  unfold Quantifier.unitCalls
  by_cases honce : q.isOnce = true
  · rw [if_pos honce] at h ⊢
    have hmin : q.min.toNat = 1 := by rw [(Quantifier.isOnce_iff.mp honce).1]; rfl
    refine .branch h (fun _ => (Allows.fail hf).jump) fun hroom h => ?_
    have hlt : ¬ pos ≥ subject.size := of_decide_eq_false hroom
    exact .add h fun h => .goto h (hnext 1 (by omega) (by omega)).jump
  · rw [if_neg honce] at h ⊢
    refine clip_proceeds hf h hle fun b most hmost h => ?_
    have hcount : ∀ k, q.min.toNat ≤ k → k ≤ most →
        promise.Allows program subject ceiling n room next (pos + k) groups :=
      fun k hk hkmost => hnext k hk (by omega)
    cases hg : q.greedy with
    | true =>
      rw [hg, if_pos rfl] at h
      exact wildcardGreedy_proceeds hf h hcount
    | false =>
      rw [hg, if_neg Bool.false_ne_true] at h
      exact wildcardLazy_proceeds hf h hcount

/-! ## Literals -/

/-- Where a literal stands, there is room for it. -/
theorem fits_of_passed (h : (Condition.literal bytes false).holds subject rs groups = false) :
    rs.pos + bytes.length ≤ subject.size :=
  (occursAt_iff.mp (by simpa [Condition.holds] using h)).1

/-- One more occurrence is taken, if there is one. -/
theorem occurrence_proceeds {start other : Label}
    (h : program.HasAt a (unlessLiteral bytes other :: .add .rep (.imm 1) ::
      .add .pos (.imm bytes.length) :: .goto start :: is))
    (hstart : program.resolve? start = some b)
    (hnone : ∀ c, program.resolve? other = some c → promise.Proceeds program subject ceiling n room
      c ⟨p + rep * bytes.length, rep, maxrep⟩ groups)
    (hmore : p + (rep + 1) * bytes.length ≤ subject.size → promise.Proceeds program subject ceiling
      n room b ⟨p + (rep + 1) * bytes.length, rep + 1, maxrep⟩ groups) :
    promise.Proceeds program subject ceiling n room a ⟨p + rep * bytes.length, rep, maxrep⟩
      groups := by
  have hnext : p + rep * bytes.length + bytes.length = p + (rep + 1) * bytes.length := by
    rw [Nat.succ_mul]
    omega
  refine .branch h (fun _ => hnone) fun hoccurs h => .add h fun h => .add h fun h => ?_
  refine .goto h (Proceeds.at_label ?_ hstart)
  rw [← hnext] at hmore
  exact hmore (fits_of_passed hoccurs)

/-- The literal is taken as often as it occurs. -/
theorem expand_proceeds {start offer : Label} {guard : List Instruction} (hf : program.Framed)
    (h : program.HasAt a (Lowering.place start :: (guard ++ unlessLiteral bytes offer ::
      .add .rep (.imm 1) :: .add .pos (.imm bytes.length) :: .goto start :: is)))
    (hguard : ∀ k pos, ∃ blocked, Guards subject ⟨pos, k, maxrep⟩ groups offer blocked guard)
    (hfits : p + rep * bytes.length ≤ subject.size)
    (hoffer : ∀ k, p + k * bytes.length ≤ subject.size → ∀ b, program.resolve? offer = some b →
      promise.Proceeds program subject ceiling n room b ⟨p + k * bytes.length, k, maxrep⟩ groups) :
    promise.Proceeds program subject ceiling n room a ⟨p + rep * bytes.length, rep, maxrep⟩
      groups := by
  have hloop := hf.linked.resolve h
  induction n generalizing rep with
  | zero => exact .zero
  | succ n ih =>
    have hoffer' : ∀ k, p + k * bytes.length ≤ subject.size → ∀ b, program.resolve? offer = some b →
        promise.Proceeds program subject ceiling n room b ⟨p + k * bytes.length, k, maxrep⟩
          groups :=
      fun k hk b hb => (hoffer k hk b hb).of_le (Nat.le_succ n)
    obtain ⟨blocked, hguards⟩ := hguard rep (p + rep * bytes.length)
    refine .place h fun h => .guard _ _ h hguards (fun _ _ => hoffer' rep hfits) fun _ b h => ?_
    exact occurrence_proceeds h hloop (hoffer' rep hfits) fun hmore => ih hmore hoffer'

theorem literalGreedy_proceeds (hf : program.Framed)
    (h : program.HasAt a (literalGreedy id bytes min max next)) (hp : p ≤ subject.size)
    (hnext : ∀ k, min.toNat ≤ k → p + k * bytes.length ≤ subject.size →
      promise.Allows program subject ceiling n room next (p + k * bytes.length) groups) :
    promise.Proceeds program subject ceiling n (room + 1) a ⟨p, rep, maxrep⟩ groups := by
  simp only [literalGreedy, List.append_assoc, List.cons_append, List.nil_append] at h
  refine .set h fun hat => ?_
  have hguard : ∀ k pos, Guards subject ⟨pos, k, maxrep⟩ groups .fail (decide (k < min.toNat))
      (if min = 0 then [] else [branchIf .rep .lt (imm min) .fail]) :=
    fun _ _ => .ofMin trivial rfl
  have hoffer := hat.tail.right.tail.tail.tail.tail
  have hloop : promise.Proceeds program subject ceiling n (room + 1) (a + 1)
      ⟨p + 0 * bytes.length, 0, maxrep⟩ groups := by
    refine expand_proceeds hf hat (fun k pos => ?_) (by omega) fun rep hfits =>
      Proceeds.at_label (offerDown_proceeds hf hoffer hguard fun k hk hle => ?_)
        (hf.linked.resolve hoffer)
    · cases max with
      | unbounded => exact ⟨false, .absent rfl⟩
      | finite count => exact ⟨_, .present trivial rfl⟩
    · have := Nat.mul_le_mul_right bytes.length hle
      exact hnext k hk (by omega)
  rw [Nat.zero_mul] at hloop
  exact hloop

/-- The counts from the one in `rep` upwards. -/
theorem offerUp_proceeds (hf : program.Framed)
    (h : program.HasAt a (offerUp id bytes min max next))
    (hfits : p + rep * bytes.length ≤ subject.size) (hvalid : max.covers min.toNat = true)
    (hnext : ∀ k, min.toNat ≤ k → p + k * bytes.length ≤ subject.size →
      promise.Allows program subject ceiling n room next (p + k * bytes.length) groups) :
    promise.Proceeds program subject ceiling n (room + 1) a ⟨p + rep * bytes.length, rep, maxrep⟩
      groups := by
  have hloop := hf.linked.resolve h
  induction n generalizing rep with
  | zero => exact .zero
  | succ n ih =>
    have hoffer : min.toNat ≤ rep →
        promise.Allows program subject ceiling n room next (p + rep * bytes.length) groups :=
      fun hmin => (hnext rep hmin hfits).of_le (Nat.le_succ n)
    -- behind the offer one more occurrence is taken
    have hretry : ∀ {b}, program.HasAt b [Lowering.place (.inner id 2), unlessLiteral bytes .fail,
        .add .rep (.imm 1), .add .pos (.imm bytes.length), .goto (.inner id 1)] →
        promise.Proceeds program subject ceiling n (room + 1) b
          ⟨p + rep * bytes.length, rep, maxrep⟩ groups := by
      intro b h
      refine .block h fun h => occurrence_proceeds h hloop (Allows.fail hf).jump fun hmore => ?_
      exact ih hmore fun k hk hle => (hnext k hk hle).of_le (Nat.le_succ n)
    have hrest : ∀ {b}, program.HasAt b ((if min = 0 then []
        else [branchIf .rep .lt (imm min) (.inner id 2)]) ++ [.call next,
          Lowering.place (.inner id 2), unlessLiteral bytes .fail, .add .rep (.imm 1),
          .add .pos (.imm bytes.length), .goto (.inner id 1)]) →
        promise.Proceeds program subject ceiling n (room + 1) b
          ⟨p + rep * bytes.length, rep, maxrep⟩ groups := by
      intro b h
      refine .guard _ _ h (.ofMin trivial rfl) ?_ fun hfree c h => ?_
      · exact fun _ h => (hretry h.tail).at_label (hf.linked.resolve h.tail)
      · have hmin : ¬ rep < min.toNat := of_decide_eq_false hfree
        exact .call h (hoffer (by omega)) fun h => hretry h
    refine .place h fun h => ?_
    cases max with
    | unbounded => exact hrest h
    | finite count =>
      refine .branch h (fun heq => ?_) fun _ h => hrest h
      have hlast : rep = count.toNat := of_decide_eq_true heq
      have hmin : min.toNat ≤ count.toNat := of_decide_eq_true hvalid
      exact ((hoffer (by omega)).of_room (Nat.le_succ room)).jump

theorem literalLazy_proceeds (hf : program.Framed)
    (h : program.HasAt a (literalLazy id bytes min max next)) (hp : p ≤ subject.size)
    (hvalid : max.covers min.toNat = true)
    (hnext : ∀ k, min.toNat ≤ k → p + k * bytes.length ≤ subject.size →
      promise.Allows program subject ceiling n room next (p + k * bytes.length) groups) :
    promise.Proceeds program subject ceiling n (room + 1) a ⟨p, rep, maxrep⟩ groups := by
  simp only [literalLazy, List.append_assoc, List.cons_append, List.nil_append] at h
  refine .set h fun h => ?_
  have hloop : promise.Proceeds program subject ceiling n (room + 1) (a + 1)
      ⟨p + 0 * bytes.length, 0, maxrep⟩ groups :=
    offerUp_proceeds hf h (by omega) hvalid hnext
  rw [Nat.zero_mul] at hloop
  exact hloop

/-- **A literal keeps a promise** that allows going on behind every count. -/
theorem literalBlock_proceeds {q : Quantifier} (hf : program.Framed)
    (h : program.HasAt a (literalBlock id bytes q next)) (hp : rs.pos = p) (hle : p ≤ subject.size)
    (hvalid : q.max.covers q.min.toNat = true)
    (hnext : ∀ k, q.min.toNat ≤ k → p + k * bytes.length ≤ subject.size →
      promise.Allows program subject ceiling n room next (p + k * bytes.length) groups) :
    promise.Proceeds program subject ceiling n (room + q.unitCalls) a rs groups := by
  obtain ⟨pos, rep, maxrep⟩ := rs
  obtain rfl : pos = p := hp
  unfold literalBlock at h
  unfold Quantifier.unitCalls
  by_cases honce : q.isOnce = true
  · rw [if_pos honce] at h ⊢
    have hmin : q.min.toNat = 1 := by rw [(Quantifier.isOnce_iff.mp honce).1]; rfl
    refine .branch h (fun _ => (Allows.fail hf).jump) fun hoccurs h => ?_
    have hfits : pos + bytes.length ≤ subject.size := fits_of_passed hoccurs
    have := hnext 1 (by omega) (by omega)
    rw [Nat.one_mul] at this
    exact .add h fun h => .goto h this.jump
  · rw [if_neg honce] at h ⊢
    cases hg : q.greedy with
    | true =>
      rw [hg, if_pos rfl] at h
      exact literalGreedy_proceeds hf h hle hnext
    | false =>
      rw [hg, if_neg Bool.false_ne_true] at h
      exact literalLazy_proceeds hf h hle hvalid hnext

/-! ## Anchors -/

/-- **An anchor keeps a promise** that allows going on where it stands. -/
theorem anchorBlock_proceeds {kind : Anchor} (hf : program.Framed)
    (h : program.HasAt a (anchorBlock kind next))
    (hnext : promise.Allows program subject ceiling n room next rs.pos groups) :
    promise.Proceeds program subject ceiling n room a rs groups := by
  cases kind with
  | start | finish =>
    exact .branch h (fun _ => (Allows.fail hf).jump) fun _ h => .goto h hnext.jump
  | lineStart | lineEnd =>
    refine .branch h (fun _ => hnext.jump) fun _ h => .branch h (fun _ => hnext.jump) fun _ h => ?_
    exact .goto h (Allows.fail hf).jump

/-! ## Groups -/

section

variable {body : NodeId} {capturing : Bool} {q : Quantifier}

theorem closeSpan_proceeds (hf : program.Framed)
    (h : program.HasAt a (closeSpan id capturing ++ is))
    (hrest : ∀ b, program.HasAt b is → promise.Proceeds program subject ceiling n room b rs
      (groups.closed id capturing rs.pos)) :
    promise.Proceeds program subject ceiling n room a rs groups := by
  unfold closeSpan at h
  unfold Groups.closed at hrest
  cases capturing with
  | false => exact .block h fun h => hrest _ h
  | true =>
    refine .branch h (fun hnone => ?_) fun hsome h => ?_
    · have hcount : (groups id).current.count < 1 := of_decide_eq_true hnone
      rw [if_neg (fun hc => hc.2 (by omega))] at hrest
      exact Proceeds.at_label (.block h.tail.tail fun h => hrest _ h)
        (hf.linked.resolve h.tail.tail)
    · have hcount : ¬ (groups id).current.count < 1 := of_decide_eq_false hsome
      rw [if_pos ⟨rfl, by omega⟩] at hrest
      exact .pushPos h fun h => .block h fun h => hrest _ h

/-- A repetition is taken back behind its body. -/
theorem repeatBody_proceeds (h : program.HasAt a (repeatBody id body capturing ++ is))
    (hbody : promise.Allows program subject ceiling n room (.node body) rs.pos
      (groups.begun id capturing rs.pos))
    (hrest : ∀ b, program.HasAt b is →
      promise.Proceeds program subject ceiling n (room + 1) b rs groups) :
    promise.Proceeds program subject ceiling n (room + 1) a rs groups := by
  unfold repeatBody at h
  unfold Groups.begun at hbody
  -- taking the repetition back leaves the groups as they were before it
  have hback : (groups id).current.count + 1 < wordSize → ∀ {b}, program.HasAt b
      (.countDown id :: is) → promise.Proceeds program subject ceiling n (room + 1) b rs
        (groups.set id (groups id).countUp) := by
    intro hword b h
    refine .countDown h fun g hg h => ?_
    rw [PerNode.set_self, GroupState.countDown?_countUp hword] at hg
    cases hg
    rw [PerNode.set_set, PerNode.set_eq_self rfl]
    exact hrest _ h
  cases capturing with
  | false => exact .countUp h fun hword h => .call h hbody fun h => hback hword h
  | true =>
    refine .countUp h fun hword h => .pushPos h fun h => ?_
    rw [PerNode.set_self, PerNode.set_set]
    refine .call h hbody fun h => .popPos h fun g hg h => ?_
    rw [PerNode.set_self, GroupState.pop?_push] at hg
    cases hg
    rw [PerNode.set_set]
    exact hback hword h

/-- Whatever a group has recorded, unwinding it only fails. -/
theorem unwind_proceeds (hf : program.Framed)
    (h : program.HasAt a (unwind id capturing ++ is)) :
    promise.Proceeds program subject ceiling n room a rs groups := by
  unfold unwind at h
  refine .block h fun h => ?_
  cases capturing with
  | false => exact .goto h (Allows.fail hf).jump
  | true =>
    refine .branch h (fun _ => (Allows.fail hf).jump) fun _ h => .popPos h fun _ _ h => ?_
    exact .goto h (Allows.fail hf).jump

/-- Going on, if the minimum is reached: the end of a greedy decision. -/
theorem greedyStop_proceeds (hf : program.Framed)
    (h : program.HasAt a (Lowering.place label :: ((if min = 0 then []
      else [branchCount id .lt min.toNat (.againFail id)]) ++
        (.call next :: (unwind id capturing ++ is)))))
    (hactive : (groups id).outer ≠ [])
    (hstop : min.toNat ≤ (groups id).current.count →
      promise.Allows program subject ceiling n room next rs.pos
        (groups.closed id capturing rs.pos)) :
    promise.Proceeds program subject ceiling n (room + 1) a rs
      (groups.closed id capturing rs.pos) := by
  refine .block h fun h => .guard _ _ h (minGuard hactive _ _ _) ?_ fun hfree b h => ?_
  · exact fun _ h => (unwind_proceeds hf h.tail).at_label (hf.linked.resolve h.tail)
  · have hmin := Nat.not_lt.mp (of_decide_eq_false hfree)
    exact .call h (hstop hmin) fun h => unwind_proceeds hf h

/-- One more repetition, if the maximum allows it: the end of a lazy decision. -/
theorem lazyMore_proceeds (hf : program.Framed)
    (h : program.HasAt a (Lowering.place label :: ((match max with
        | .finite max => [branchCount id .ge max.toNat (.againFail id)]
        | .unbounded => []) ++
      (repeatBody id body capturing ++ (unwind id capturing ++ is)))))
    (hactive : (groups id).outer ≠ [])
    (hmore : max.admitsMore (groups id).current.count = true →
      promise.Allows program subject ceiling n room (.node body) rs.pos
        ((groups.closed id capturing rs.pos).begun id capturing rs.pos)) :
    promise.Proceeds program subject ceiling n (room + 1) a rs
      (groups.closed id capturing rs.pos) := by
  refine .block h fun h => .guard _ _ h (maxGuard hactive _ _ _) ?_ fun hfree b h => ?_
  · exact fun _ h => (unwind_proceeds hf h.right).at_label (hf.linked.resolve h.right)
  · have hadmits : max.admitsMore (groups id).current.count = true := by simpa using hfree
    exact repeatBody_proceeds h (hmore hadmits) fun b h => unwind_proceeds hf h

/-- **A group keeps a promise** that allows one more repetition if the maximum does, and going on if
the minimum is reached. -/
theorem repetition_proceeds (hf : program.Framed)
    (h : program.HasAt a (repetition id body capturing q next ++ is))
    (hactive : (groups id).outer ≠ [])
    (hmore : q.max.admitsMore (groups id).current.count = true →
      promise.Allows program subject ceiling n room (.node body) rs.pos
        ((groups.closed id capturing rs.pos).begun id capturing rs.pos))
    (hstop : q.min.toNat ≤ (groups id).current.count →
      promise.Allows program subject ceiling n room next rs.pos
        (groups.closed id capturing rs.pos)) :
    promise.Proceeds program subject ceiling n (room + 1) a rs groups := by
  simp only [repetition, List.append_assoc] at h
  refine closeSpan_proceeds hf h fun b h => ?_
  cases hg : q.greedy with
  | true =>
    rw [hg, if_pos rfl] at h
    simp only [repeatGreedy, List.append_assoc, List.cons_append, List.nil_append] at h
    refine .guard _ _ h (maxGuard hactive _ _ _) ?_ fun hfree b h => ?_
    · exact fun _ h => (greedyStop_proceeds hf h.right hactive hstop).at_label
        (hf.linked.resolve h.right)
    · have hadmits : q.max.admitsMore (groups id).current.count = true := by simpa using hfree
      exact repeatBody_proceeds h (hmore hadmits)
        fun b h => greedyStop_proceeds hf h hactive hstop
  | false =>
    rw [hg, if_neg Bool.false_ne_true] at h
    simp only [repeatLazy, List.append_assoc, List.cons_append, List.nil_append] at h
    refine .guard _ _ h (minGuard hactive _ _ _) ?_ fun hfree b h => ?_
    · exact fun _ h => (lazyMore_proceeds hf h.tail hactive hmore).at_label
        (hf.linked.resolve h.tail)
    · have hmin := Nat.not_lt.mp (of_decide_eq_false hfree)
      exact .call h (hstop hmin) fun h => lazyMore_proceeds hf h hactive hmore

/-- **Entering a group keeps a promise** that allows its repetitions. -/
theorem entry_proceeds (hf : program.Framed) (h : program.HasAt a (entry id capturing ++ is))
    (hagain : promise.Allows program subject ceiling n room (.again id) rs.pos
      (groups.set id (groups id).enter)) :
    promise.Proceeds program subject ceiling n (room + 1) a rs groups :=
  .enter h fun h => .call h hagain fun h => .leave h fun _ h => .goto h (Allows.fail hf).jump

end

end Promise

end PatternMachine
