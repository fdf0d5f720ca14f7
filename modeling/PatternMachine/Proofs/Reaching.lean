import PatternMachine.Proofs.Ways
import PatternMachine.Proofs.WellFormed

/-!
# Where trees hand on

* `Reaches` — a tree hands on inside the subject and not before its start, it consumes a byte unless
  it is said to match the empty text, and it leaves alone what belongs to other nodes.
* `Repeated` — the same of a group that has made some repetitions.

Principal results: `ways_reach` — this holds of every way of a tree.  `WellFormed.ways_group` — so
the number of rounds that is allowed for leaves out no repetition of a group.
-/

set_option autoImplicit false

namespace PatternMachine

/-! ## Handing on -/

/-- What is known when a tree that is tried at offset `p` hands on at `stop`: the offset does not go
back, a byte is consumed unless the tree can match the empty text, and of the values for nodes,
`before` and `after`, only those of the tree have changed. -/
structure Reaches {α : Type} (tree : Pattern) (subject : Subject) (p : Nat) (before : PerNode α)
    (stop : Nat) (after : PerNode α) : Prop where
  le : p ≤ stop
  le_size : stop ≤ subject.size
  lt : tree.matchesEmpty = false → p < stop
  same : ∀ id ∉ tree.ids, after id = before id

variable {α : Type} {subject : Subject} {p stop : Nat} {before after : PerNode α}

/-- A tree that hands on the values as they were. -/
theorem Reaches.of_le {tree : Pattern} (hle : p ≤ stop) (hsize : stop ≤ subject.size)
    (hlt : tree.matchesEmpty = false → p < stop) : Reaches tree subject p before stop before :=
  ⟨hle, hsize, hlt, fun _ _ => rfl⟩

/-- A tree that can match nothing may hand on where it is. -/
theorem Reaches.here {tree : Pattern} (hempty : tree.matchesEmpty = true)
    (hp : p ≤ subject.size) : Reaches tree subject p before p before := by
  refine .of_le (Nat.le_refl _) hp fun h => ?_
  rw [hempty] at h
  cases h

/-- A sequence hands on where its second part does. -/
theorem Reaches.concat {first second : Pattern} {mid : Nat} {between : PerNode α} (id : NodeId)
    (h : Reaches first subject p before mid between)
    (h' : Reaches second subject mid between stop after) :
    Reaches (.concat id first second) subject p before stop after := by
  have hle := h.le
  have hle' := h'.le
  refine ⟨by omega, h'.le_size, ?_, ?_⟩
  · intro hempty
    rcases Bool.and_eq_false_iff.mp hempty with hfirst | hsecond
    · have := h.lt hfirst
      omega
    · have := h'.lt hsecond
      omega
  · intro other ho
    simp only [Pattern.ids, Pattern.nodes, List.map_cons, List.map_append, List.mem_cons,
      List.mem_append, not_or] at ho
    rw [h'.same other ho.2.2, h.same other ho.2.1]

/-- A choice hands on where either part does. -/
theorem Reaches.alternation {part first second : Pattern} (id : NodeId)
    (hpart : part = first ∨ part = second) (h : Reaches part subject p before stop after) :
    Reaches (.alternation id first second) subject p before stop after := by
  refine ⟨h.le, h.le_size, ?_, ?_⟩
  · intro hempty
    obtain ⟨hfirst, hsecond⟩ := Bool.or_eq_false_iff.mp hempty
    rcases hpart with rfl | rfl
    · exact h.lt hfirst
    · exact h.lt hsecond
  · intro other ho
    simp only [Pattern.ids, Pattern.nodes, List.map_cons, List.map_append, List.mem_cons,
      List.mem_append, not_or] at ho
    rcases hpart with rfl | rfl
    · exact h.same other ho.2.1
    · exact h.same other ho.2.2

theorem Quantifier.pos_of_min {q : Quantifier} (h : (q.min == 0) = false) : 1 ≤ q.min.toNat := by
  rcases Nat.eq_zero_or_pos q.min.toNat with hzero | hpos
  · have : q.min = 0 := UInt32.toNat_inj.mp hzero
    simp [this] at h
  · exact hpos

/-- What is known when the group `id`, which was entered at offset `p`, has made `k` repetitions and
is at offset `stop`. -/
structure Repeated (id : NodeId) (body : Pattern) (subject : Subject) (p : Nat)
    (before : PerNode α) (k stop : Nat) (after : PerNode α) : Prop where
  le : p ≤ stop
  le_size : stop ≤ subject.size
  lt : 1 ≤ k → body.matchesEmpty = false → p < stop
  same : ∀ other, other ≠ id → other ∉ body.ids → after other = before other

section

variable {id : NodeId} {body : Pattern} {k : Nat}

theorem Repeated.init (hp : p ≤ subject.size)
    (hafter : ∀ other, other ≠ id → after other = before other) :
    Repeated id body subject p before 0 p after :=
  ⟨Nat.le_refl _, hp, fun h => absurd h (by omega), fun other ho _ => hafter other ho⟩

/-- What the group does with its own value does not matter. -/
theorem Repeated.congr {after' : PerNode α} (h : Repeated id body subject p before k stop after)
    (hafter : ∀ other, other ≠ id → after' other = after other) :
    Repeated id body subject p before k stop after' :=
  ⟨h.le, h.le_size, h.lt, fun other ho hbody => (hafter other ho).trans (h.same other ho hbody)⟩

/-- One more repetition is made where the body hands on. -/
theorem Repeated.next {mid : Nat} {between : PerNode α}
    (h : Repeated id body subject p before k mid between)
    (hbody : Reaches body subject mid between stop after) :
    Repeated id body subject p before (k + 1) stop after := by
  have hle := h.le
  have hle' := hbody.le
  refine ⟨by omega, hbody.le_size, fun _ hempty => ?_, fun other ho hother => ?_⟩
  · have := hbody.lt hempty
    omega
  · rw [hbody.same other hother]
    exact h.same other ho hother

/-- A group hands on when it has made enough repetitions. -/
theorem Repeated.reaches {q : Quantifier} (capture : Option UInt32)
    (h : Repeated id body subject p before k stop after) (hk : q.min.toNat ≤ k) :
    Reaches (.group id body capture q) subject p before stop after := by
  refine ⟨h.le, h.le_size, fun hempty => ?_, fun other ho => ?_⟩
  · obtain ⟨hmin, hbody⟩ := Bool.or_eq_false_iff.mp hempty
    have := Quantifier.pos_of_min hmin
    exact h.lt (by omega) hbody
  · simp only [Pattern.ids, Pattern.nodes, Pattern.id, List.map_cons, List.mem_cons, not_or] at ho
    exact h.same other ho.1 ho.2

end

/-! ## Ways -/

/-- A property that every repetition keeps holds where a group goes on, after enough of them. -/
theorem Quantifier.rounds_invariant {q : Quantifier} {ways : Nat → Records → List Way}
    {note : Nat → Nat → Records → Records} {P : Nat → Nat → Records → Prop}
    (hstep : ∀ k p records, P k p records →
      ∀ w ∈ ways p records, P (k + 1) w.stop (note p w.stop w.records))
    {left k p : Nat} {records : Records} {w : Way} (h : P k p records)
    (hw : w ∈ q.rounds (fun onward p records =>
      (ways p records).flatMap fun w => onward w.stop w.records) note
      (fun stop records => [(⟨stop, records⟩ : Way)]) left k p records) :
    ∃ k', q.min.toNat ≤ k' ∧ P k' w.stop w.records := by
  have hstop : ∀ {k p records}, P k p records →
      w ∈ (if q.min.toNat ≤ k then [(⟨p, records⟩ : Way)] else []) →
        ∃ k', q.min.toNat ≤ k' ∧ P k' w.stop w.records := by
    intro k p records h hw
    split at hw
    · rename_i hmin
      obtain rfl := List.mem_singleton.mp hw
      exact ⟨k, hmin, h⟩
    · cases hw
  induction left generalizing k p records with
  | zero =>
    rw [rounds, mem_inOrder] at hw
    exact hstop h (hw.resolve_left List.not_mem_nil)
  | succ left ih =>
    rw [rounds, mem_inOrder] at hw
    rcases hw with hmore | hw
    · split at hmore
      · obtain ⟨v, hv, hmore⟩ := List.mem_flatMap.mp hmore
        exact ih (hstep k p records h v hv) hmore
      · cases hmore
    · exact hstop h hw

theorem Records.note_of_ne {id other : NodeId} (capture : Option UInt32) (start stop : Nat)
    (records : Records) (h : other ≠ id) :
    Records.note id capture start stop records other = records other := by
  unfold note
  split
  · exact PerNode.set_of_ne _ _ h
  · rfl

/-- **Every way of a tree ends where the tree can hand on.** -/
theorem ways_reach {tree : Pattern} {records : Records} {w : Way}
    (hw : w ∈ tree.ways subject p records) (hp : p ≤ subject.size) :
    Reaches tree subject p records w.stop w.records := by
  induction tree generalizing p records w with
  | empty id =>
    obtain rfl := List.mem_singleton.mp hw
    exact .here rfl hp
  | endMarker id => cases hw
  | wildcard id q =>
    obtain ⟨k, hk, rfl⟩ := List.mem_map.mp hw
    obtain ⟨hmin, _, hoccurs⟩ := Quantifier.of_mem_counts hk
    refine .of_le (Nat.le_add_right _ _) (of_decide_eq_true hoccurs) fun hempty => ?_
    have := Quantifier.pos_of_min hempty
    simp only
    omega
  | literal id bytes q =>
    obtain ⟨k, hk, rfl⟩ := List.mem_map.mp hw
    obtain ⟨hmin, _, hoccurs⟩ := Quantifier.of_mem_counts hk
    refine .of_le (Nat.le_add_right _ _) (le_size_of_occursTimes hp hoccurs) fun hempty => ?_
    obtain ⟨hzero, hbytes⟩ := Bool.or_eq_false_iff.mp hempty
    have := Quantifier.pos_of_min hzero
    have hlength : 0 < bytes.length := List.length_pos_iff.mpr (by simpa using hbytes)
    have : 0 < k * bytes.length := Nat.mul_pos (by omega) hlength
    simp only
    omega
  | concat id first second ihFirst ihSecond =>
    obtain ⟨v, hv, hw⟩ := List.mem_flatMap.mp hw
    have hfirst := ihFirst hv hp
    exact hfirst.concat id (ihSecond hw hfirst.le_size)
  | alternation id first second ihFirst ihSecond =>
    rcases List.mem_append.mp hw with hw | hw
    · exact (ihFirst hw hp).alternation id (Or.inl rfl)
    · exact (ihSecond hw hp).alternation id (Or.inr rfl)
  | group id body capture q ih =>
    have hinit : Repeated id body subject p records 0 p (records.set id []) :=
      .init hp fun other ho => PerNode.set_of_ne _ _ ho
    obtain ⟨k, hk, hrepeated⟩ := Quantifier.rounds_invariant
      (P := Repeated id body subject p records)
      (fun k mid between h v hv =>
        (h.next (ih hv h.le_size)).congr fun other ho => Records.note_of_ne _ _ _ _ ho) hinit hw
    exact hrepeated.reaches capture hk
  | anchor id kind =>
    rw [Pattern.ways] at hw
    split at hw
    · obtain rfl := List.mem_singleton.mp hw
      exact .here rfl hp
    · cases hw

/-- **The number of rounds that is allowed for leaves out no repetition of a group**: any number
that suffices yields the same ways. -/
theorem Pattern.WellFormed.ways_group {limit : Nat} {id : NodeId} {body : Pattern}
    {capture : Option UInt32} {q : Quantifier}
    (h : (Pattern.group id body capture q).WellFormed limit) (hp : p ≤ subject.size)
    (records : Records) {left : Nat} (hleft : q.Enough subject.size left 0 p) :
    (Pattern.group id body capture q).ways subject p records =
      q.rounds (fun onward p records =>
        (body.ways subject p records).flatMap fun w => onward w.stop w.records)
        (Records.note id capture) (fun stop records => [⟨stop, records⟩]) left 0 p
        (records.set id []) := by
  obtain ⟨_, _, _, hempty⟩ := h.group
  refine Quantifier.rounds_enough _ _ ?_ hp (q.enough_ceiling subject.size p) hleft
  intro f g p records hp hfg
  rw [List.flatMap_def, List.flatMap_def]
  refine congrArg List.flatten (List.map_congr_left fun w hw => ?_)
  have hreach := ways_reach hw hp
  exact hfg _ _ hreach.le hreach.le_size fun hmax => hreach.lt (hempty hmax)

end PatternMachine
