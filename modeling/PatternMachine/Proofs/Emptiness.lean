import PatternMachine.Proofs.Acceptance
import PatternMachine.Proofs.Limits
import PatternMachine.Proofs.Refinement

/-!
# Matching the empty text

By its shape a tree is said to match the empty text or not.  Anchors count as able to, although they
hold only at some offsets; in the empty subject all of them hold.

* `Quantifier.exists_mem_rounds` — a body that can stay where it is can be repeated often enough.

Principal results: `exists_way_of_matchesEmpty` — where all anchors hold, a tree that is said to
match the empty text has a way that does.  `Standing.found_mem` — what a search finds under whatever
limits is one of the matches that are to come.  `matchesEmpty_exact` — so what is said is true of
the program, in both directions; and a group that is repeated without a bound is refused exactly if
its body can be found in the empty subject.
-/

set_option autoImplicit false

namespace PatternMachine

/-! ## Ways that stay where they are -/

namespace Quantifier

variable {q : Quantifier} {ways : Nat → Records → List Way}
variable {note : Nat → Nat → Records → Records} {left k p : Nat} {records : Records}

/-- A group that has made enough repetitions can go on where it is. -/
theorem mem_rounds_of_min (h : q.min.toNat ≤ k) :
    (⟨p, records⟩ : Way) ∈ q.rounds (fun onward p records =>
      (ways p records).flatMap fun w => onward w.stop w.records) note
      (fun stop records => [⟨stop, records⟩]) left k p records := by
  cases left <;> simp [rounds, mem_inOrder, h]

/-- **A body that can stay where it is can be repeated often enough**, and the group stays there,
too. -/
theorem exists_mem_rounds (hvalid : q.max.covers q.min.toNat = true)
    (hbody : ∀ records, ∃ w ∈ ways p records, w.stop = p) (hleft : q.min.toNat ≤ left + k) :
    ∃ w ∈ q.rounds (fun onward p records =>
      (ways p records).flatMap fun w => onward w.stop w.records) note
      (fun stop records => [(⟨stop, records⟩ : Way)]) left k p records, w.stop = p := by
  induction left generalizing k records with
  | zero => exact ⟨_, mem_rounds_of_min (by omega), rfl⟩
  | succ left ih =>
    by_cases hmin : q.min.toNat ≤ k
    · exact ⟨_, mem_rounds_of_min hmin, rfl⟩
    -- one more repetition is made, which ends where it began
    have hadmits : q.max.admitsMore k = true := by
      cases hmax : q.max with
      | finite count =>
        have hle : q.min.toNat ≤ count.toNat := by simpa [hmax, Bound.covers] using hvalid
        exact decide_eq_true (by omega)
      | unbounded => rfl
    obtain ⟨v, hv, hstop⟩ := hbody records
    obtain ⟨w, hw, hwstop⟩ := @ih (k + 1) (note p v.stop v.records) (by omega)
    refine ⟨w, ?_, hwstop⟩
    rw [rounds, mem_inOrder, if_pos hadmits]
    refine Or.inl (List.mem_flatMap.mpr ⟨v, hv, ?_⟩)
    rwa [hstop] at hw ⊢

end Quantifier

theorem Bound.covers_zero (bound : Bound) : bound.covers 0 = true := by
  cases bound <;> simp [covers]

/-- In the empty subject all anchors hold. -/
theorem Anchor.holds_empty (kind : Anchor) : kind.holds #[] 0 = true := by
  cases kind <;> rfl

namespace Pattern

variable {tree : Pattern} {subject : Subject} {limit p : Nat}

/-- **Where all anchors hold, a tree that is said to match the empty text has a way that does.** -/
theorem exists_way_of_matchesEmpty (hanchors : ∀ kind : Anchor, kind.holds subject p = true)
    (hp : p ≤ subject.size) (hwf : tree.WellFormed limit) (h : tree.matchesEmpty = true)
    (records : Records) : ∃ w ∈ tree.ways subject p records, w.stop = p := by
  induction tree generalizing records with
  | empty id => exact ⟨_, List.mem_singleton_self _, rfl⟩
  | endMarker id => cases h
  | wildcard id q =>
    have hmin : q.min = 0 := beq_iff_eq.mp h
    refine ⟨_, List.mem_map.mpr ⟨0, ?_, rfl⟩, Nat.add_zero p⟩
    rw [Quantifier.mem_counts fun _ => Nat.zero_le _, hmin]
    exact ⟨Nat.le_refl 0, Bound.covers_zero _, decide_eq_true hp⟩
  | literal id bytes q =>
    obtain ⟨hbytes, _⟩ := hwf.literal
    have hmin : q.min = 0 := by
      rcases Bool.or_eq_true_iff.mp h with hzero | hempty
      · exact beq_iff_eq.mp hzero
      · rw [List.isEmpty_iff.mp hempty] at hbytes
        cases hbytes
    refine ⟨_, List.mem_map.mpr ⟨0, ?_, rfl⟩, by simp⟩
    rw [Quantifier.mem_counts fun _ => Nat.zero_le _, hmin]
    exact ⟨Nat.le_refl 0, Bound.covers_zero _, rfl⟩
  | concat id first second ihFirst ihSecond =>
    obtain ⟨hfirst, hsecond⟩ := Bool.and_eq_true_iff.mp h
    obtain ⟨v, hv, hstop⟩ := ihFirst hwf.concat.first hfirst records
    obtain ⟨w, hw, hwstop⟩ := ihSecond hwf.concat.second hsecond v.records
    exact ⟨w, List.mem_flatMap.mpr ⟨v, hv, by rwa [hstop]⟩, hwstop⟩
  | alternation id first second ihFirst ihSecond =>
    rcases Bool.or_eq_true_iff.mp h with hfirst | hsecond
    · obtain ⟨w, hw, hstop⟩ := ihFirst hwf.alternation.first hfirst records
      exact ⟨w, List.mem_append_left _ hw, hstop⟩
    · obtain ⟨w, hw, hstop⟩ := ihSecond hwf.alternation.second hsecond records
      exact ⟨w, List.mem_append_right _ hw, hstop⟩
  | group id body capture q ih =>
    obtain ⟨hbody, _, hvalid, hempty⟩ := hwf.group
    by_cases hmin : q.min = 0
    · refine ⟨_, Quantifier.mem_rounds_of_min ?_, rfl⟩
      rw [hmin]
      exact Nat.le_refl 0
    -- the body is needed, so it is said to match the empty text, and the group has a maximum
    have hbodyEmpty : body.matchesEmpty = true := by
      rcases Bool.or_eq_true_iff.mp h with hzero | hbodyEmpty
      · exact absurd (beq_iff_eq.mp hzero) hmin
      · exact hbodyEmpty
    have hcovers := Quantifier.covers_min hvalid
    refine Quantifier.exists_mem_rounds hcovers (ih hbody hbodyEmpty) ?_
    unfold Quantifier.ceiling
    cases hmax : q.max with
    | finite count => simpa [hmax, Bound.covers] using hcovers
    | unbounded =>
      rw [hempty hmax] at hbodyEmpty
      cases hbodyEmpty
  | anchor id kind =>
    refine ⟨⟨p, records⟩, ?_, rfl⟩
    rw [ways, if_pos (hanchors kind)]
    exact List.mem_singleton_self _

/-- The matches of a tree are those that its ways make, wherever they begin. -/
theorem way_of_mem_matchesIn {m : Match} (h : m ∈ tree.matchesIn subject) :
    ∃ start w, start ≤ subject.size ∧ w ∈ tree.ways subject start .none ∧
      m.span = ⟨start, w.stop⟩ := by
  have hfrom : ∀ start ≤ subject.size, m ∈ tree.matchesFrom subject start →
      ∃ start w, start ≤ subject.size ∧ w ∈ tree.ways subject start .none ∧
        m.span = ⟨start, w.stop⟩ := by
    intro start hstart hm
    obtain ⟨w, hw, rfl⟩ := List.mem_map.mp hm
    exact ⟨start, w, hstart, hw, rfl⟩
  unfold matchesIn at h
  split at h
  · exact hfrom 0 (Nat.zero_le _) h
  · obtain ⟨start, hstart, hm⟩ := List.mem_flatMap.mp h
    exact hfrom start (Nat.lt_succ_iff.mp (List.mem_range.mp hstart)) hm

/-- **A tree that is said not to match the empty text has no empty match.** -/
theorem start_lt_stop_of_mem_matchesIn {m : Match} (hempty : tree.matchesEmpty = false)
    (h : m ∈ tree.matchesIn subject) : m.span.start < m.span.stop := by
  obtain ⟨start, w, hstart, hw, hspan⟩ := way_of_mem_matchesIn h
  rw [hspan]
  exact (ways_reach hw hstart).lt hempty

/-- **A tree has a match in the empty subject exactly if it is said to match the empty text.** -/
theorem matchesIn_empty_ne_nil_iff (hwf : tree.WellFormed limit) :
    tree.matchesIn #[] ≠ [] ↔ tree.matchesEmpty = true := by
  constructor
  · intro hne
    obtain ⟨m, hm⟩ := List.exists_mem_of_ne_nil _ hne
    obtain ⟨start, w, hstart, hw, _⟩ := way_of_mem_matchesIn hm
    have hreach := ways_reach hw hstart
    have hsize : w.stop ≤ 0 := hreach.le_size
    rw [← Bool.not_eq_false]
    intro hnot
    have hlt := hreach.lt hnot
    omega
  · intro hempty
    obtain ⟨w, hw, _⟩ := exists_way_of_matchesEmpty Anchor.holds_empty (Nat.le_refl 0) hwf hempty
      Records.none
    have hfrom : tree.matchOf 0 w ∈ tree.matchesFrom #[] 0 := List.mem_map.mpr ⟨w, hw, rfl⟩
    apply List.ne_nil_of_mem (a := tree.matchOf 0 w)
    unfold matchesIn
    split
    · exact hfrom
    · exact List.mem_flatMap.mpr ⟨0, by simp, hfrom⟩

end Pattern

/-! ## Matches that a search finds -/

section

variable {program : Program} {subject : Subject} {ceiling : PerNode Nat} {ms : List Match}
variable {c d : Cursor} {limits : Limits} {patience : Nat} {answer : Answer} {m : Match}

/-- **A question leaves a search before the matches that are still to come**, or ends it; if it is
answered with a match, this was the next one. -/
theorem Standing.suffix_of_next? (h : Standing program subject ceiling c ms)
    (hnext : c.next? program subject limits patience = some (answer, d)) :
    ∃ ms', Standing program subject ceiling d ms' ∧ ms' <:+ ms ∧
      ∀ m, answer = .found m → ms = m :: ms' := by
  have hongoing : ∀ b, c.begin program = .running b → Ongoing program subject ceiling b ms := by
    intro b hb
    rcases h.begin with ⟨_, _, hbegin⟩ | ⟨d', hbegin, hongoing⟩
    · cases hbegin.symm.trans hb
    · cases hbegin.symm.trans hb
      exact hongoing
  rcases Cursor.next?_eq_some hnext with hbegin | ⟨b, n, hbegin, hrun, _⟩ |
    ⟨b, e, fuel, hbegin, _, hrun, rfl, rfl⟩
  · rcases h.begin with ⟨_, _, hbegin'⟩ | ⟨d', hbegin', _⟩
    · cases hbegin'.symm.trans hbegin
      exact ⟨ms, h, List.suffix_refl ms, nofun⟩
    · cases hbegin'.symm.trans hbegin
  · have houtcome := Outcome.run (hongoing b hbegin) limits.depth n
    rw [hrun] at houtcome
    cases houtcome with
    | @found _ m ms' hstage hrest =>
      refine ⟨ms', .suspended hstage hrest, List.suffix_cons m ms', fun m' hm' => ?_⟩
      cases hm'
      rfl
    | exhausted hstage hwithin => exact ⟨[], .exhausted hstage hwithin, List.nil_suffix, nofun⟩
    | tooDeep _ hstage hwithin => exact ⟨[], .exhausted hstage hwithin, List.nil_suffix, nofun⟩
  · have houtcome := Outcome.run (hongoing b hbegin) limits.depth fuel.toNat
    rw [hrun] at houtcome
    cases houtcome with
    | running he =>
      obtain ⟨x, hshows, hwithin, _⟩ := he.drains
      exact ⟨[], .exhausted rfl ((hshows.within hwithin).of_groups rfl), List.nil_suffix, nofun⟩

/-- **What a search finds under whatever limits is one of the matches that are to come.** -/
theorem Standing.found_mem {allowed : Limits → Prop} (h : Standing program subject ceiling .new ms)
    (hc : c.Reachable program subject allowed)
    (hnext : c.next? program subject limits patience = some (.found m, d)) : m ∈ ms := by
  have hsuffix : ∃ ms', Standing program subject ceiling c ms' ∧ ms' <:+ ms := by
    clear hnext
    induction hc with
    | new => exact ⟨ms, h, List.suffix_refl ms⟩
    | next _ _ hnext ih =>
      obtain ⟨ms', hc, hms'⟩ := ih
      obtain ⟨ms'', hd, hms'', _⟩ := hc.suffix_of_next? hnext
      exact ⟨ms'', hd, hms''.trans hms'⟩
  obtain ⟨ms', hgoes, hms'⟩ := hsuffix
  obtain ⟨ms'', _, _, hfound⟩ := hgoes.suffix_of_next? hnext
  rw [hfound m rfl] at hms'
  exact hms'.subset List.mem_cons_self

/-- A search finds a match exactly if there is one to come. -/
theorem Standing.finds_iff (h : Standing program subject ceiling c ms) :
    (∃ patience m d, c.next? program subject {} patience = some (.found m, d)) ↔ ms ≠ [] := by
  constructor
  · rintro ⟨patience, m, d, hnext⟩ rfl
    obtain ⟨_, _, _, hfound⟩ := h.suffix_of_next? hnext
    cases hfound m rfl
  · intro hne
    obtain ⟨m, ms', rfl⟩ := List.exists_cons_of_ne_nil hne
    obtain ⟨enough, d, hnext, _⟩ := h.next
    exact ⟨enough, m, d, hnext enough (Nat.le_refl enough)⟩

end

/-! ## The check for endless repetitions -/

section

variable {body : Pattern} {id : NodeId} {capture : Option UInt32} {q : Quantifier} {limit : Nat}
variable {options : CompileOptions}

/-- Nodes that have no fault alone can only have numbers twice. -/
theorem Pattern.duplicateId_of_firstFaultOf? {seen : Std.HashSet NodeId} {ps : List Pattern}
    {fault : Fault} (hps : ∀ p ∈ ps, p.faultAt? limit = none)
    (h : firstFaultOf? limit seen ps = some fault) : ∃ id, fault = .duplicateId id := by
  induction ps generalizing seen with
  | nil => cases h
  | cons p ps ih =>
    rw [firstFaultOf?] at h
    split at h
    · cases h
      exact ⟨p.id, rfl⟩
    · rw [hps p List.mem_cons_self] at h
      exact ih (fun n hn => hps n (List.mem_cons_of_mem _ hn)) h

/-- Alone, a group that is repeated without a bound can only have an endless repetition. -/
theorem Pattern.faultAt?_group_unbounded (hmax : q.max = .unbounded) :
    (Pattern.group id body capture q).faultAt? limit =
      if body.matchesEmpty then some (.emptyRepetition id) else none := by
  have hbounds : q.fault? id = none := by rw [Quantifier.fault?, hmax]
  rw [faultAt?]
  by_cases hempty : body.matchesEmpty = true
  · rw [if_pos ⟨hmax, hempty⟩, if_pos hempty]
  · rw [if_neg (fun h => hempty h.2), if_neg hempty, hbounds]

/-- A group is checked before its body. -/
theorem Pattern.firstFault?_group_unbounded (hmax : q.max = .unbounded) :
    (Pattern.group id body capture q).firstFault? limit =
      if body.matchesEmpty then some (.emptyRepetition id)
      else firstFaultOf? limit (Std.HashSet.insert ∅ id) body.visit := by
  rw [firstFault?, visit, firstFaultOf?, if_neg (by simp), faultAt?_group_unbounded hmax]
  by_cases hempty : body.matchesEmpty = true
  · rw [if_pos hempty, if_pos hempty]
  · rw [if_neg hempty, if_neg hempty]
    rfl

/-- **A group that is repeated without a bound, around a body without faults, is refused as an
endless repetition exactly if its body is said to match the empty text.** -/
theorem compile_eq_emptyRepetition_iff (hbody : body.WellFormed options.maxLiteral)
    (hmax : q.max = .unbounded) :
    compile (.group id body capture q) options = .error (.fault (.emptyRepetition id)) ↔
      body.matchesEmpty = true := by
  have hfirst : (Pattern.group id body capture q).firstFault? options.maxLiteral =
      if body.matchesEmpty then some (.emptyRepetition id)
      else Pattern.firstFaultOf? options.maxLiteral (Std.HashSet.insert ∅ id) body.visit :=
    Pattern.firstFault?_group_unbounded hmax
  by_cases hempty : body.matchesEmpty = true
  · rw [if_pos hempty] at hfirst
    simp [compile, hfirst, hempty]
  · rw [if_neg hempty] at hfirst
    refine ⟨fun hrefused => ?_, fun h => absurd h hempty⟩
    rcases compile_cases (.group id body capture q) options with
      ⟨fault, hfault, hcompile⟩ | ⟨_, _, hcompile⟩ | ⟨_, _, program, hcompile⟩
    · cases hcompile.symm.trans hrefused
      obtain ⟨other, hother⟩ := Pattern.duplicateId_of_firstFaultOf?
        (fun p hp => hbody.faultless p (Pattern.mem_visit.mp hp)) (hfirst.symm.trans hfault)
      cases hother
    · cases hcompile.symm.trans hrefused
    · cases hcompile.symm.trans hrefused

/-- If the group has a number of its own, it has no other fault. -/
theorem Pattern.WellFormed.group_unbounded (hbody : body.WellFormed limit)
    (hmax : q.max = .unbounded) (hid : id ∉ body.ids) (hempty : body.matchesEmpty = false) :
    (Pattern.group id body capture q).WellFormed limit := by
  refine ⟨List.nodup_cons.mpr ⟨hid, hbody.nodup⟩, fun n hn => ?_⟩
  rcases List.mem_cons.mp hn with rfl | hn
  · simp [faultAt?, hempty, Quantifier.fault?, hmax]
  · exact hbody.faultless n hn

end

/-- **Whether a tree is said to match the empty text is exact.**  It is said so exactly if the
search in the empty subject finds a match; and if it is not, no search finds an empty match, in
whatever subject and under whatever limits.  So a group that is repeated without a bound around the
tree is refused as an endless repetition exactly if the tree is found in the empty subject;
otherwise it has no fault, unless its number is one of those of the tree. -/
theorem matchesEmpty_exact {tree : Pattern} {options : CompileOptions} {program : Program}
    (hcompile : compile tree options = .ok program) (hend : tree.endFree = true) :
    (tree.matchesEmpty = true ↔
      ∃ patience m d, Cursor.new.next? program #[] {} patience = some (.found m, d)) ∧
    (tree.matchesEmpty = false → ∀ (subject : Subject) (c d : Cursor) limits patience m,
      subject.size < 2 ^ 63 → c.Reachable program subject (fun _ => True) →
      c.next? program subject limits patience = some (.found m, d) →
        m.span.start < m.span.stop) ∧
    ∀ id capture q, q.max = .unbounded →
      ((Pattern.group id tree capture q).faultAt? options.maxLiteral =
          some (.emptyRepetition id) ↔
        ∃ patience m d, Cursor.new.next? program #[] {} patience = some (.found m, d)) ∧
      (compile (.group id tree capture q) options = .error (.fault (.emptyRepetition id)) ↔
        ∃ patience m d, Cursor.new.next? program #[] {} patience = some (.found m, d)) ∧
      (id ∉ tree.ids →
        (¬ ∃ patience m d, Cursor.new.next? program #[] {} patience = some (.found m, d)) →
          (Pattern.group id tree capture q).firstFault? options.maxLiteral = none) := by
  obtain ⟨hwf, _⟩ := wellFormed_of_compile hcompile
  have hempty : tree.matchesEmpty = true ↔
      ∃ patience m d, Cursor.new.next? program #[] {} patience = some (.found m, d) := by
    have hsize : (#[] : Subject).size < 2 ^ 63 := by decide
    obtain ⟨ceiling, hstanding⟩ := standing_of_compile hcompile hend hsize
    rw [hstanding.finds_iff, Pattern.matchesIn_empty_ne_nil_iff hwf]
  refine ⟨hempty, fun hnot subject c d limits patience m hsize hc hnext => ?_,
    fun id capture q hmax => ⟨?_, ?_, fun hid hnone => ?_⟩⟩
  · obtain ⟨ceiling, hstanding⟩ := standing_of_compile hcompile hend hsize
    exact Pattern.start_lt_stop_of_mem_matchesIn hnot (hstanding.found_mem hc hnext)
  · rw [Pattern.faultAt?_group_unbounded hmax, ← hempty]
    simp
  · rw [compile_eq_emptyRepetition_iff hwf hmax, hempty]
  · rw [← hempty, Bool.not_eq_true] at hnone
    exact Pattern.firstFault?_eq_none_iff.mpr (hwf.group_unbounded hmax hid hnone)

/-- The pattern `(?:^^|a){2,3}`, which is said to match the empty text because of its anchor. -/
def lineStarts : Pattern :=
  .group 1 (.alternation 2 (.anchor 3 .lineStart) (.literal 4 [97] .once)) none
    ⟨2, .finite 3, true⟩

/-- The pattern `lineStarts` is found in the empty subject, so it cannot be repeated without a
bound. -/
theorem matchesEmpty_exact_lineStarts :
    ∃ program, compile lineStarts {} = .ok program ∧
      (∃ patience m d, Cursor.new.next? program #[] {} patience = some (.found m, d)) ∧
      compile (.group 5 lineStarts none ⟨0, .unbounded, true⟩) {} =
        .error (.fault (.emptyRepetition 5)) := by
  obtain ⟨program, hcompile⟩ : ∃ program, compile lineStarts {} = .ok program :=
    compile_isOk_of_isSome ⟨by decide, by decide⟩ (by decide)
  obtain ⟨hempty, _, hrefused⟩ := matchesEmpty_exact hcompile (by decide)
  have hfound := hempty.mp (by decide)
  exact ⟨program, hcompile, hfound, (hrefused 5 none ⟨0, .unbounded, true⟩ rfl).2.1.mpr hfound⟩

end PatternMachine
