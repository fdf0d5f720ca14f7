import PatternMachine.Proofs.Reporting
import PatternMachine.Proofs.Simulation

/-!
# Programs run dry

* `Pattern.ceilings`, `Pattern.capturing` — the ceilings of the groups of a tree, and whether they
  record spans, read off their nodes.
* `Pattern.reports`, `Pattern.answers` — the matches that the program of a wrapped tree reports,
  under given slots and under its own.

Principal results: `Compiled.leads_back_reporting` — whichever groups it reports, the program of a
tree without faults starts with a run of sound steps that reports these matches and leaves
everything as it was at the start.  `Compiled.drains` — then it reports that there is no further
match.
-/

set_option autoImplicit false

namespace PatternMachine

open Lowering

namespace Pattern

/-- How many repetitions every group of a tree can begin in a subject. -/
def ceilings (tree : Pattern) (size : Nat) : PerNode Nat := fun id =>
  match tree.groupAt? id with
  | some (_, q) => q.ceiling size
  | none => 0

/-- Which groups of a tree record their spans. -/
def capturing (tree : Pattern) : PerNode Bool := fun id =>
  match tree.groupAt? id with
  | some (capture, _) => capture.isSome
  | none => false

theorem WellFormed.agrees {limit : Nat} {tree : Pattern} (h : tree.WellFormed limit) (size : Nat) :
    tree.Agrees size (tree.ceilings size) tree.capturing := by
  intro id body capture q hmem
  have hgroup := h.groupAt? hmem
  simp [ceilings, capturing, hgroup]

/-- Ceilings leave room for one more repetition in a word. -/
theorem ceilings_lt (tree : Pattern) {size : Nat} (hsize : size < 2 ^ 63) (id : NodeId) :
    tree.ceilings size id + 1 < wordSize := by
  unfold ceilings wordSize
  split
  · rename_i capture q _
    unfold Quantifier.ceiling
    split
    · rename_i count _
      have := count.toNat_lt
      omega
    · omega
  · omega

/-- The slots of a tree are those of its groups that have a capture index. -/
theorem mem_captureSlots {tree : Pattern} {slot : CaptureSlot} :
    slot ∈ tree.captureSlots ↔
      ∃ body q, .group slot.group body (some slot.index) q ∈ tree.nodes := by
  obtain ⟨index, id⟩ := slot
  induction tree with
  | concat id' a b iha ihb => simp [captureSlots, nodes, iha, ihb, exists_or]
  | alternation id' a b iha ihb => simp [captureSlots, nodes, iha, ihb, exists_or]
  | group id' body capture q ih =>
    cases capture with
    | none => simp [captureSlots, nodes, ih]
    | some index' =>
      simp only [captureSlots, nodes, List.mem_cons, ih, CaptureSlot.mk.injEq, group.injEq,
        Option.some.injEq]
      constructor
      · rintro (⟨rfl, rfl⟩ | ⟨body', q', h⟩)
        · exact ⟨body, q, Or.inl ⟨rfl, rfl, rfl, rfl⟩⟩
        · exact ⟨body', q', Or.inr h⟩
      · rintro ⟨body', q', ⟨rfl, rfl, rfl, rfl⟩ | h⟩
        · exact Or.inl ⟨rfl, rfl⟩
        · exact Or.inr ⟨body', q', h⟩
  | _ => simp [captureSlots, nodes]

/-- The matches that the program of a wrapped tree reports under given slots. -/
def reports (root : Pattern) (slots : List CaptureSlot) (subject : Subject) : List Match :=
  root.found subject (fun p records => records.report slots p) (fun _ _ => []) 0 .none

/-- The matches that the program of a wrapped tree reports. -/
def answers (root : Pattern) (subject : Subject) : List Match :=
  root.found subject
    (fun p records => records.report (Compilation.captureTable root) p) (fun _ _ => []) 0 .none

end Pattern

namespace Compiled

variable {tree root : Pattern} {trace : Bool} {program : Program} {subject : Subject}

theorem hasAt_opening (h : Compiled tree root trace program) :
    program.HasAt 0 (Compilation.opening trace root.id) := by
  have hcode : program.code.toList = [] ++ Compilation.opening trace root.id ++
      (root.code trace .fail ++ [.block .fail none, .ret]) := by
    rw [h.code, List.nil_append, List.append_assoc]
  exact Program.hasAt_of_code hcode

theorem hasAt_root (h : Compiled tree root trace program) :
    program.HasAt (Compilation.opening trace root.id).length
      (root.code trace .fail ++ [.block .fail none, .ret]) := by
  have hcode : program.code.toList = Compilation.opening trace root.id ++
      (root.code trace .fail ++ [.block .fail none, .ret]) ++ [] := by
    rw [h.code, List.append_nil, List.append_assoc]
  exact Program.hasAt_of_code hcode

/-- The groups that a compiled pattern reports record their spans. -/
theorem capturing_of_mem_captures {limit : Nat} (h : Compiled tree root trace program)
    (hwf : root.WellFormed limit) {slot : CaptureSlot} (hslot : slot ∈ program.captures) :
    root.capturing slot.group = true := by
  rw [h.captures, Compilation.captureTable, List.mem_mergeSort, Pattern.mem_captureSlots] at hslot
  obtain ⟨body, q, hmem⟩ := hslot
  rw [((hwf.agrees 0) _ _ _ _ hmem).2]
  rfl

/-- A compiled pattern is what the blocks of its wrapped tree rely on, whichever groups it
reports. -/
theorem grounds (h : Compiled tree root trace program) (hsize : subject.size < 2 ^ 63)
    {slots : List CaptureSlot} (hslots : ∀ slot ∈ slots, root.capturing slot.group = true) :
    Grounds (program.reporting slots) subject (root.ceilings subject.size) root.capturing where
  linked := h.linked
  fails := by
    intro p groups
    have hfail : (program.reporting slots).HasAt _ [.block .fail none, .ret] := h.hasAt_root.right
    exact Serves.of_block h.linked hfail fun hret rs _ => .ret hret
  size := hsize
  slots := hslots

/-- **The program of a tree without faults reports the matches of the wrapped tree and comes back**,
whichever groups it reports: when it is about to report that there is no further match, all is as it
was at the start. -/
theorem leads_back_reporting {limit : Nat} (h : Compiled tree root trace program)
    (hwf : tree.WellFormed limit) (hsize : subject.size < 2 ^ 63)
    {slots : List CaptureSlot} (hslots : ∀ slot ∈ slots, root.capturing slot.group = true) :
    ∃ start stop, program.resolve? .search = some start ∧
      program.code[stop]? = some .exhausted ∧
      Leads (program.reporting slots) subject (root.ceilings subject.size) ⟨start, .zero, [], .new⟩
        (root.reports slots subject) ⟨stop, .zero, [], .new⟩ := by
  have hroot := hwf.wrapped h.wrapped
  have hg := h.grounds hsize hslots
  have hrecords : Groups.new.records root.capturing = Records.none := by
    funext id
    unfold Groups.records
    split <;> rfl
  have hserves : Serves (program.reporting slots) subject (root.ceilings subject.size)
      (.node root.id) 0 .new
      (root.found subject (fun p records => records.report slots p) (fun _ _ => []) 0
        (Groups.new.records root.capturing)) :=
    code_serves hg hroot (hroot.agrees _) h.hasAt_root (Nat.zero_le _)
      fun stop after _ => hg.fails stop after
  rw [hrecords] at hserves
  obtain ⟨b, hb, hreturns⟩ := hserves
  -- the tree is called, and when it has come back the search is over
  have hbody : ∀ a, program.HasAt a [.call (.node root.id), .block .failForever none, .exhausted,
      .goto .failForever] → program.code[a + 1 + 1]? = some .exhausted ∧
        Leads (program.reporting slots) subject (root.ceilings subject.size) ⟨a, .zero, [], .new⟩
          (root.reports slots subject) ⟨a + 1 + 1, .zero, [], .new⟩ := by
    intro a hat
    refine ⟨hat.tail.tail.head, ?_⟩
    rw [← List.append_nil (root.reports slots subject)]
    refine .step (.call hat.head hb) ((hreturns .zero rfl _ _).trans ?_)
    exact .step (.block hat.tail.head) (.refl _)
  have hat := h.hasAt_opening
  unfold Compilation.opening head at hat
  cases trace with
  | false =>
    obtain ⟨hstop, hleads⟩ := hbody _ hat.tail
    exact ⟨0, _, h.linked.resolve hat, hstop, .step (.block hat.head) hleads⟩
  | true =>
    obtain ⟨hstop, hleads⟩ := hbody _ hat.tail.tail
    exact ⟨0, _, h.linked.resolve hat, hstop,
      .step (.block hat.head) (.step (.trace hat.tail.head) hleads)⟩

/-- The program of a tree without faults reports its own matches and comes back. -/
theorem leads_back {limit : Nat} (h : Compiled tree root trace program)
    (hwf : tree.WellFormed limit) (hsize : subject.size < 2 ^ 63) :
    ∃ start stop, program.resolve? .search = some start ∧
      program.code[stop]? = some .exhausted ∧
      Leads program subject (root.ceilings subject.size) ⟨start, .zero, [], .new⟩
        (root.answers subject) ⟨stop, .zero, [], .new⟩ := by
  have hleads := h.leads_back_reporting hwf hsize fun slot hslot =>
    h.capturing_of_mem_captures (hwf.wrapped h.wrapped) hslot
  rwa [Program.reporting_captures, h.captures] at hleads

/-- **The program of a tree without faults reports the matches of the wrapped tree, and then that
there is no further one.** -/
theorem drains {limit : Nat} (h : Compiled tree root trace program) (hwf : tree.WellFormed limit)
    (hsize : subject.size < 2 ^ 63) :
    ∃ start, program.resolve? .search = some start ∧
      Drains program subject (root.ceilings subject.size) ⟨start, .zero, [], .new⟩
        (root.answers subject) := by
  obtain ⟨start, stop, hstart, hstop, hleads⟩ := h.leads_back hwf hsize
  refine ⟨start, hstart, ?_⟩
  rw [← List.append_nil (root.answers subject)]
  exact hleads.drains (.done hstop)

end Compiled

end PatternMachine
