import PatternMachine.Proofs.Lines
import PatternMachine.Proofs.Tracing

/-!
# The listing of a compiled pattern

A program and its listing are written together.  Line markers are put in between, where many lines
have been written since the latest one, and this is all by which the listing differs from the code.

* `Directive.line?` — the line that a directive writes in any case.
* `Written` — the lines that directives can write.
* `Heralds` — every marked element of a list stands right in front of a wanted one.
* `Pattern.lower_induction` — what holds of the pieces of which the listing of a tree is made, holds
  of the listing.

Principal results: `written_writeAll` — a listing holds what its directives write, and markers only
if they are asked for.  `Written.heralds` — markers stand where the directives have a place for
them.  `listing_renders_program` — so the listing of a compiled pattern is its header and its code,
line by line, with markers in front of the blocks of nodes.
-/

set_option autoImplicit false

namespace PatternMachine

open Lowering

/-! ## What directives write -/

/-- The line that a directive writes, unless it is only a place for a marker. -/
def Directive.line? : Directive → Option Line
  | .instruction i => some (.instruction i)
  | .comment text => some (.comment text)
  | .mark => none

/-- Whether a line is a marker. -/
def Line.isMarker : Line → Bool
  | .marker _ => true
  | _ => false

/-- Directives can write lines: what each of them holds, and a marker or nothing at a place for
one. -/
inductive Written : List Directive → List Line → Prop
  | nil : Written [] []
  | line {d : Directive} {l : Line} {ds : List Directive} {ls : List Line}
      (hline : d.line? = some l)
      (h : Written ds ls) : Written (d :: ds) (l :: ls)
  | marker {ds : List Directive} {ls : List Line} (above : Nat) (h : Written ds ls) :
      Written (.mark :: ds) (.marker above :: ls)
  | skip {ds : List Directive} {ls : List Line} (h : Written ds ls) : Written (.mark :: ds) ls

theorem Directive.isMarker_of_line? {d : Directive} {l : Line} (h : d.line? = some l) :
    l.isMarker = false := by
  cases d with
  | mark => cases h
  | _ =>
    cases h
    rfl

/-- **A listing holds what its directives write**, and markers only if they are asked for. -/
theorem written_writeAll (listing : Listing) (ds : List Directive) :
    ∃ ls, (listing.writeAll ds).lines.toList = listing.lines.toList ++ ls ∧ Written ds ls ∧
      (listing.markers = false → ls = ds.filterMap Directive.line?) := by
  induction ds generalizing listing with
  | nil => exact ⟨[], by simp [Listing.writeAll], .nil, fun _ => rfl⟩
  | cons d ds ih =>
    have hline : ∀ l, d.line? = some l → listing.write d = listing.push l →
        ∃ ls, (listing.writeAll (d :: ds)).lines.toList = listing.lines.toList ++ ls ∧
          Written (d :: ds) ls ∧
          (listing.markers = false → ls = (d :: ds).filterMap Directive.line?) := by
      intro l hl hwrite
      obtain ⟨ls, hlines, hwritten, hplain⟩ := ih (listing.push l)
      refine ⟨l :: ls, ?_, .line hl hwritten, fun hnone => ?_⟩
      · rw [Listing.writeAll, List.foldl_cons, hwrite, ← Listing.writeAll, hlines]
        simp [Listing.push]
      · rw [hplain hnone, List.filterMap_cons_some hl]
    cases d with
    | instruction i => exact hline _ rfl rfl
    | comment text => exact hline _ rfl rfl
    | mark =>
      rw [Listing.writeAll, List.foldl_cons, ← Listing.writeAll, Listing.write, Listing.mark]
      split
      · rename_i hmark
        obtain ⟨ls, hlines, hwritten, _⟩ :=
          ih (Listing.push { listing with marked := listing.size } (.marker listing.size))
        refine ⟨.marker listing.size :: ls, ?_, .marker _ hwritten, fun hnone => ?_⟩
        · rw [hlines]
          simp [Listing.push]
        · rw [hmark.1] at hnone
          cases hnone
      · obtain ⟨ls, hlines, hwritten, hplain⟩ := ih listing
        exact ⟨ls, hlines, .skip hwritten, hplain⟩

/-- Without the markers, the lines are those of the directives. -/
theorem Written.filter_isMarker {ds : List Directive} {ls : List Line} (h : Written ds ls) :
    ls.filter (!·.isMarker) = ds.filterMap Directive.line? := by
  induction h with
  | nil => rfl
  | line hline _ ih =>
    rw [List.filter_cons_of_pos (by simp [Directive.isMarker_of_line? hline]),
      List.filterMap_cons_some hline, ih]
  | marker above _ ih =>
    rw [List.filter_cons_of_neg (by simp [Line.isMarker]), List.filterMap_cons_none rfl, ih]
  | skip _ ih => rw [List.filterMap_cons_none rfl, ih]

/-- The text of a listing is that of its lines. -/
theorem Listing.text_eq_unlines (listing : Listing) :
    listing.text = unlines (listing.lines.toList.map Line.text) := by
  have hfold : ∀ (ls : List Line) (text : String),
      ls.foldl (fun text line => text ++ line.text ++ "\n") text =
        text ++ unlines (ls.map Line.text) := by
    intro ls
    induction ls with
    | nil => simp [unlines]
    | cons l ls ih =>
      intro text
      rw [List.foldl_cons, ih]
      simp [unlines, String.append_assoc]
  rw [Listing.text, ← Array.foldl_toList, hfold, String.empty_append]

/-! ## Markers -/

section

variable {α β : Type} {marked wanted : α → Prop} {xs ys : List α} {x : α}

/-- Every marked element of a list stands right in front of a wanted one. -/
def Heralds (marked wanted : α → Prop) : List α → Prop
  | [] => True
  | x :: xs => (marked x → ∃ y ∈ xs.head?, wanted y) ∧ Heralds marked wanted xs

theorem Heralds.of_not (h : ∀ x ∈ xs, ¬ marked x) : Heralds marked wanted xs := by
  induction xs with
  | nil => trivial
  | cons x xs ih =>
    exact ⟨fun hx => absurd hx (h x List.mem_cons_self),
      ih fun y hy => h y (List.mem_cons_of_mem _ hy)⟩

theorem Heralds.append (h : Heralds marked wanted xs) (h' : Heralds marked wanted ys) :
    Heralds marked wanted (xs ++ ys) := by
  induction xs with
  | nil => exact h'
  | cons x xs ih =>
    refine ⟨fun hx => ?_, ih h.2⟩
    obtain ⟨y, hy, hwanted⟩ := h.1 hx
    exact ⟨y, List.mem_head?_append_of_mem_head? hy, hwanted⟩

theorem Heralds.map {marked' wanted' : β → Prop} (f : α → β) (h : Heralds marked wanted xs)
    (hmarked : ∀ x ∈ xs, marked' (f x) → marked x) (hwanted : ∀ x, wanted x → wanted' (f x)) :
    Heralds marked' wanted' (xs.map f) := by
  induction xs with
  | nil => trivial
  | cons x xs ih =>
    refine ⟨fun hx => ?_, ih h.2 fun y hy => hmarked y (List.mem_cons_of_mem _ hy)⟩
    obtain ⟨y, hy, hy'⟩ := h.1 (hmarked x List.mem_cons_self hx)
    exact ⟨f y, by simp [Option.mem_def.mp hy], hwanted y hy'⟩

/-- What stands behind a marked element. -/
theorem Heralds.head? (h : Heralds marked wanted (xs ++ x :: ys)) (hx : marked x) :
    ∃ y ∈ ys.head?, wanted y := by
  induction xs with
  | nil => exact h.1 hx
  | cons z zs ih => exact ih h.2

end

/-- **Markers stand where the directives have a place for them**: in front of the instructions that
these places are in front of. -/
theorem Written.heralds {wanted : Instruction → Prop} {ds : List Directive} {ls : List Line}
    (h : Written ds ls)
    (hplaces : Heralds (· = .mark) (fun d => ∃ i, d = .instruction i ∧ wanted i) ds) :
    Heralds (·.isMarker = true) (fun l => ∃ i, l = .instruction i ∧ wanted i) ls := by
  induction h with
  | nil => trivial
  | line hline _ ih =>
    refine ⟨fun hmarker => ?_, ih hplaces.2⟩
    have hplain := Directive.isMarker_of_line? hline
    cases hmarker.symm.trans hplain
  | marker above hrest ih =>
    refine ⟨fun _ => ?_, ih hplaces.2⟩
    obtain ⟨d, hd, i, rfl, hi⟩ := hplaces.1 rfl
    -- the line behind the marker is that of the instruction behind the place
    cases hrest with
    | line hline _ =>
      cases hd
      cases hline
      exact ⟨_, rfl, i, rfl, hi⟩
    | nil | marker _ _ | skip _ => cases hd
  | skip _ ih => exact ih hplaces.2

/-! ## The listing of a tree -/

/-- The comment at a label. -/
def Instruction.comment? : Instruction → Option String
  | .block _ comment => comment
  | _ => none

/-- The comments in a list of instructions. -/
def commentsOf (is : List Instruction) : List String := is.filterMap Instruction.comment?

section

variable (id : NodeId) (next : Label)

theorem commentsOf_wildcardBlock (q : Quantifier) : commentsOf (wildcardBlock id q next) = [] := by
  obtain ⟨min, max, greedy⟩ := q
  unfold wildcardBlock
  split
  · rfl
  · unfold wildcardGreedy wildcardLazy
    by_cases hmin : min = 0 <;> cases max <;> cases greedy <;> simp only [hmin, reduceIte] <;> rfl

theorem commentsOf_literalBlock (bytes : List UInt8) (q : Quantifier) :
    commentsOf (literalBlock id bytes q next) = [] := by
  obtain ⟨min, max, greedy⟩ := q
  unfold literalBlock
  split
  · rfl
  · unfold literalGreedy literalLazy
    by_cases hmin : min = 0 <;> cases max <;> cases greedy <;> simp only [hmin, reduceIte] <;> rfl

theorem commentsOf_repetition (body : NodeId) (capturing : Bool) (q : Quantifier) :
    commentsOf (repetition id body capturing q next) = [] := by
  obtain ⟨min, max, greedy⟩ := q
  unfold repetition repeatGreedy repeatLazy
  by_cases hmin : min = 0 <;> cases capturing <;> cases max <;> cases greedy <;>
    simp only [hmin, reduceIte] <;> rfl

theorem commentsOf_anchorBlock (kind : Anchor) : commentsOf (anchorBlock kind next) = [] := by
  cases kind <;> rfl

variable {id next}

/-- **What holds of the pieces of which the listing of a tree is made, holds of the listing**: of
heads of blocks of nodes, each behind a place for a marker, of heads of repetitions, and of code
without comments. -/
theorem Pattern.lower_induction {Q : List Directive → Prop} {trace : Bool} {tree : Pattern}
    (happend : ∀ {ds es}, Q ds → Q es → Q (ds ++ es))
    (hplain : ∀ is, commentsOf is = [] → Q (directives is))
    (hagain : ∀ id, Q (directives (head trace (.again id) ("repeat " ++ nodeText id))))
    (hnode : ∀ n ∈ tree.nodes,
      Q (.mark :: directives (head trace (.node n.id) (blockComment n)))) :
    Q (tree.lower trace next) := by
  induction tree generalizing next with
  | empty id => exact happend (hnode _ (self_mem_nodes _)) (hplain _ rfl)
  | endMarker id => exact happend (hnode _ (self_mem_nodes _)) (hplain _ rfl)
  | wildcard id q =>
    exact happend (hnode _ (self_mem_nodes _)) (hplain _ (commentsOf_wildcardBlock id next q))
  | literal id bytes q =>
    exact happend (hnode _ (self_mem_nodes _)) (hplain _ (commentsOf_literalBlock id next bytes q))
  | concat id first second ihFirst ihSecond =>
    refine happend (happend (hnode _ (self_mem_nodes _)) ?_) ?_
    · exact ihFirst fun n hn => hnode n (by simp [nodes, hn])
    · exact ihSecond fun n hn => hnode n (by simp [nodes, hn])
  | alternation id first second ihFirst ihSecond =>
    refine happend (happend (happend (hnode _ (self_mem_nodes _)) (hplain _ rfl)) ?_) ?_
    · exact ihFirst fun n hn => hnode n (by simp [nodes, hn])
    · exact ihSecond fun n hn => hnode n (by simp [nodes, hn])
  | group id body capture q ih =>
    have hbody : ∀ next, Q (body.lower trace next) :=
      fun next => ih fun n hn => hnode n (by simp [nodes, hn])
    have hstart := hnode _ (self_mem_nodes _)
    rw [lower]
    split
    · exact happend hstart (hbody next)
    · refine happend (happend (happend (happend hstart (hplain _ rfl)) (hagain id)) ?_) (hbody _)
      exact hplain _ (commentsOf_repetition id next body.id capture.isSome q)
  | anchor id kind =>
    exact happend (hnode _ (self_mem_nodes _)) (hplain _ (commentsOf_anchorBlock next kind))

end

section

variable {next : Label} {trace : Bool} {tree : Pattern}

theorem heralds_directives (wanted : Directive → Prop) (is : List Instruction) :
    Heralds (· = .mark) wanted (directives is) := by
  apply Heralds.of_not
  rintro d hd rfl
  obtain ⟨i, _, hi⟩ := List.mem_map.mp hd
  cases hi

theorem comment_not_mem_directives (is : List Instruction) (text : String) :
    .comment text ∉ directives is := by
  intro hmem
  obtain ⟨i, _, hi⟩ := List.mem_map.mp hmem
  cases hi

/-- Wherever a place for a marker is in the listing of a tree, the block of a node begins behind
it. -/
theorem Pattern.lower_heralds :
    Heralds (· = .mark) (fun d => ∃ i, d = .instruction i ∧
      ∃ n ∈ tree.nodes, i = .block (.node n.id) (some (blockComment n)))
      (tree.lower trace next) := by
  apply lower_induction
  · exact fun h h' => h.append h'
  · exact fun is _ => heralds_directives _ is
  · exact fun id => heralds_directives _ _
  · intro n hn
    refine ⟨fun _ => ?_, heralds_directives _ _⟩
    unfold head
    split <;> exact ⟨_, rfl, _, rfl, n, hn, rfl⟩

/-- Beside instructions, the listing of a tree has only places for markers. -/
theorem Pattern.comment_not_mem_lower (text : String) : .comment text ∉ tree.lower trace next := by
  apply lower_induction (Q := fun ds => .comment text ∉ ds)
  · intro ds es h h' hmem
    exact (List.mem_append.mp hmem).elim h h'
  · exact fun is _ => comment_not_mem_directives is text
  · exact fun id => comment_not_mem_directives _ text
  · intro n _ hmem
    rcases List.mem_cons.mp hmem with hmark | hmem
    · cases hmark
    · exact comment_not_mem_directives _ text hmem

@[simp]
theorem newline_not_mem_quantifier (q : Quantifier) : '\n' ∉ q.text.toList := by
  obtain ⟨min, max, greedy⟩ := q
  cases max <;> cases greedy <;> simp [Quantifier.text, Bound.text]

/-- The comment of the block of a node is one line, whatever bytes the node holds. -/
theorem newline_not_mem_blockComment (n : Pattern) : '\n' ∉ (blockComment n).toList := by
  cases n with
  | group id body capture q =>
    cases capture <;> simp [blockComment, groupText, nodeText]
  | anchor id kind => cases kind <;> simp [blockComment, anchorText]
  | _ => simp [blockComment, nodeText]

theorem newline_not_mem_of_head {i : Instruction} {label : Label} {comment : String}
    (hcomment : '\n' ∉ comment.toList) (hi : i ∈ head trace label comment) :
    '\n' ∉ i.text.toList := by
  apply newline_not_mem_text
  rintro label' comment' rfl
  unfold head at hi
  split at hi <;> simp at hi <;> simpa [hi] using hcomment

/-- **Every instruction of a tree is one line in the listing.** -/
theorem Pattern.newline_not_mem_code {i : Instruction} (hi : i ∈ tree.code trace next) :
    '\n' ∉ i.text.toList := by
  have hcode : ∀ is, (∀ i ∈ is, '\n' ∉ i.text.toList) →
      ∀ i, .instruction i ∈ directives is → '\n' ∉ i.text.toList := by
    intro is his i hi
    obtain ⟨j, hj, hij⟩ := List.mem_map.mp hi
    cases hij
    exact his i hj
  have hall : ∀ i, .instruction i ∈ tree.lower trace next → '\n' ∉ i.text.toList := by
    apply lower_induction (Q := fun ds => ∀ i, .instruction i ∈ ds → '\n' ∉ i.text.toList)
    · intro ds es h h' i hi
      exact (List.mem_append.mp hi).elim (h i) (h' i)
    · intro is hplain
      refine hcode is fun i hi => newline_not_mem_text ?_
      rintro label comment rfl
      cases List.filterMap_eq_nil_iff.mp hplain _ hi
    · exact fun id => hcode _ fun i => newline_not_mem_of_head (by simp [nodeText])
    · intro n _ i hi
      rcases List.mem_cons.mp hi with hmark | hi
      · cases hmark
      · exact hcode _ (fun i => newline_not_mem_of_head (newline_not_mem_blockComment n)) i hi
  obtain ⟨d, hd, hdi⟩ := List.mem_filterMap.mp hi
  cases d with
  | instruction j =>
    cases hdi
    exact hall i hd
  | _ => cases hdi

end

/-! ## Whole listings -/

theorem newline_not_mem_opening {i : Instruction} {trace : Bool} {root : NodeId}
    (hi : i ∈ Compilation.opening trace root) : '\n' ∉ i.text.toList := by
  rcases List.mem_append.mp hi with hi | hi
  · exact newline_not_mem_of_head (by decide) hi
  · apply newline_not_mem_text
    rintro label comment rfl
    simp at hi

/-- The lines of a listing without markers: header, code and end. -/
def Compilation.plainLines (code : List Instruction) : List Line :=
  header.map .comment ++ code.map .instruction ++ [.comment ".end"]

theorem filterMap_line?_of_not_comment {ds : List Directive} (h : ∀ text, .comment text ∉ ds) :
    ds.filterMap Directive.line? = (ds.filterMap Directive.instruction?).map .instruction := by
  induction ds with
  | nil => rfl
  | cons d ds ih =>
    have hds := ih fun text hmem => h text (List.mem_cons_of_mem _ hmem)
    cases d with
    | instruction i => simp [Directive.line?, Directive.instruction?, hds]
    | comment text => exact absurd List.mem_cons_self (h text)
    | mark => exact hds

section

variable (trace : Bool) (root : Pattern)

/-- The code of a program, as its listing shows it. -/
theorem filterMap_line?_directives :
    (Compilation.directives trace root).filterMap Directive.line? =
      Compilation.plainLines (Compilation.opening trace root.id ++ root.code trace .fail ++
        [.block .fail none, .ret]) := by
  have hcode : ∀ is : List Instruction,
      (directives is).filterMap Directive.line? = is.map .instruction := by
    intro is
    rw [filterMap_line?_of_not_comment (comment_not_mem_directives is),
      Pattern.filterMap_directives]
  have hheader : (Compilation.header.map Directive.comment).filterMap Directive.line? =
      Compilation.header.map .comment := rfl
  have htree : (root.lower trace .fail).filterMap Directive.line? =
      (root.code trace .fail).map .instruction :=
    filterMap_line?_of_not_comment root.comment_not_mem_lower
  simp only [Compilation.directives, List.filterMap_append, hheader, hcode, htree,
    Compilation.plainLines, List.map_append, List.append_assoc]
  rfl

/-- Places for markers are in front of the blocks of nodes only. -/
theorem directives_heralds :
    Heralds (· = .mark) (fun d => ∃ i, d = .instruction i ∧
      ∃ n ∈ root.nodes, i = .block (.node n.id) (some (blockComment n)))
      (Compilation.directives trace root) := by
  refine .append (.append (.append (.append ?_ (heralds_directives _ _)) root.lower_heralds)
    (heralds_directives _ _)) ?_
  · apply Heralds.of_not
    decide
  · apply Heralds.of_not
    decide

end

/-- The listing of a program is that of its wrapped tree, and so is its code. -/
theorem assembly_of_compile {tree : Pattern} {options : CompileOptions} {program : Program}
    (h : compile tree options = .ok program) :
    ∃ root, tree.wrapped? = some root ∧
      program.code.toList = (Compilation.assembly options root).code ∧
      program.text = (Compilation.assembly options root).text := by
  unfold compile at h
  split at h
  · cases h
  · split at h
    · cases h
    · rename_i root hroot
      dsimp only at h
      split at h
      · cases h
      · rename_i hlink
        cases h
        refine ⟨root, hroot, (Program.linked_of_link hlink).1, ?_⟩
        unfold Program.link at hlink
        split at hlink
        · cases hlink
        · split at hlink
          · cases hlink
          · cases hlink
            rfl

/-- **The lines of a listing**: those of the directives, with markers among them if they are asked
for. -/
theorem lines_of_compile {tree : Pattern} {options : CompileOptions} {program : Program}
    (h : compile tree options = .ok program) :
    ∃ root ls, tree.wrapped? = some root ∧ program.text = unlines (ls.map Line.text) ∧
      (∀ i ∈ program.code, '\n' ∉ i.text.toList) ∧
      ls.filter (!·.isMarker) = Compilation.plainLines program.code.toList ∧
      (options.lineMarkers = false → ls = Compilation.plainLines program.code.toList) ∧
      Heralds (·.isMarker = true) (fun l => ∃ i, l = .instruction i ∧
        ∃ n ∈ root.nodes, i = .block (.node n.id) (some (blockComment n))) ls := by
  obtain ⟨root, hroot, hcode, htext⟩ := assembly_of_compile h
  obtain ⟨ls, hlines, hwritten, hplain⟩ := written_writeAll (.new options.lineMarkers)
    (Compilation.directives options.trace root)
  rw [code_assembly] at hcode
  rw [filterMap_line?_directives, ← hcode] at hplain
  have hfilter := hwritten.filter_isMarker
  rw [filterMap_line?_directives, ← hcode] at hfilter
  refine ⟨root, ls, hroot, ?_, fun i hi => ?_, hfilter, hplain, hwritten.heralds
    (directives_heralds options.trace root)⟩
  · rw [htext, Compilation.assembly, Listing.take, Listing.text_eq_unlines, hlines]
    rfl
  · rw [Array.mem_def, hcode, List.mem_append, List.mem_append] at hi
    rcases hi with (hi | hi) | hi
    · exact newline_not_mem_opening hi
    · exact root.newline_not_mem_code hi
    · simp only [List.mem_cons, List.not_mem_nil, or_false] at hi
      rcases hi with rfl | rfl <;> decide

section

variable {code : List Instruction} {ls : List Line}

/-- Header, code and end are lines, and none of them looks like a marker. -/
theorem plain_of_mem_plainLines (hcode : ∀ i ∈ code, '\n' ∉ i.text.toList) {l : Line}
    (hl : l ∈ Compilation.plainLines code) :
    '\n' ∉ l.text.toList ∧ markerLead.isPrefixOf l.text.toList = false := by
  have hheader : ∀ text ∈ Compilation.header ++ [".end"],
      '\n' ∉ text.toList ∧ markerLead.isPrefixOf text.toList = false := by decide
  simp only [Compilation.plainLines, List.mem_append, List.mem_map, List.mem_singleton] at hl
  rcases hl with (⟨text, htext, rfl⟩ | ⟨i, hi, rfl⟩) | rfl
  · exact hheader text (List.mem_append_left _ htext)
  · exact ⟨hcode i hi, markerLead_isPrefixOf (head?_text_ne i)⟩
  · exact hheader ".end" (List.mem_append_right _ List.mem_cons_self)

/-- A line of a listing is a marker exactly if it looks like one, and it is one line. -/
theorem markerLead_isPrefixOf_of_mem (hcode : ∀ i ∈ code, '\n' ∉ i.text.toList)
    (hplain : ls.filter (!·.isMarker) = Compilation.plainLines code) {l : Line} (hl : l ∈ ls) :
    '\n' ∉ l.text.toList ∧ markerLead.isPrefixOf l.text.toList = l.isMarker := by
  cases hmarker : l.isMarker with
  | true =>
    cases l with
    | marker above =>
      rw [Line.text, String.toList_append, List.isPrefixOf_iff_prefix]
      exact ⟨by simp, List.prefix_append _ _⟩
    | _ => cases hmarker
  | false =>
    apply plain_of_mem_plainLines hcode
    rw [← hplain, List.mem_filter, hmarker]
    exact ⟨hl, rfl⟩

theorem map_text_plainLines (code : List Instruction) :
    (Compilation.plainLines code).map Line.text =
      Compilation.header ++ code.map Instruction.text ++ [".end"] := by
  simp only [Compilation.plainLines, List.map_append, List.map_map]
  rfl

/-- A listing without its markers is header, code and end. -/
theorem withoutMarkers_lines (hcode : ∀ i ∈ code, '\n' ∉ i.text.toList)
    (hplain : ls.filter (!·.isMarker) = Compilation.plainLines code) :
    withoutMarkers (unlines (ls.map Line.text)) =
      unlines (Compilation.header ++ code.map Instruction.text ++ [".end"]) := by
  rw [withoutMarkers_unlines, List.filter_map, ← map_text_plainLines, ← hplain]
  · congr 2
    refine List.filter_congr fun l hl => ?_
    rw [Function.comp, (markerLead_isPrefixOf_of_mem hcode hplain hl).2]
  · rintro line hline
    obtain ⟨l, hl, rfl⟩ := List.mem_map.mp hline
    exact (markerLead_isPrefixOf_of_mem hcode hplain hl).1

/-- In the text of a listing, what stands behind each marker is what stands behind it among the
lines. -/
theorem head?_after_marker {wanted : Instruction → Prop}
    (hcode : ∀ i ∈ code, '\n' ∉ i.text.toList)
    (hplain : ls.filter (!·.isMarker) = Compilation.plainLines code)
    (hheralds : Heralds (·.isMarker = true) (fun l => ∃ i, l = .instruction i ∧ wanted i) ls)
    {before after : List (List Char)} {line : List Char}
    (hlines : textLines (unlines (ls.map Line.text)) = before ++ line :: after)
    (hline : markerLead <+: line) :
    ∃ i, wanted i ∧ after.head? = some i.text.toList := by
  rw [textLines_unlines, List.map_map] at hlines
  · have hmap : Heralds (markerLead <+: ·) (fun line => ∃ i, wanted i ∧ line = i.text.toList)
        (ls.map (String.toList ∘ Line.text)) := by
      refine hheralds.map _ (fun l hl hlead => ?_) ?_
      · rw [← (markerLead_isPrefixOf_of_mem hcode hplain hl).2, List.isPrefixOf_iff_prefix]
        exact hlead
      · rintro _ ⟨i, rfl, hi⟩
        exact ⟨i, hi, rfl⟩
    have hend : Heralds (markerLead <+: ·) (fun line => ∃ i, wanted i ∧ line = i.text.toList)
        [[]] := by
      apply Heralds.of_not
      decide
    have hall := hmap.append hend
    rw [hlines] at hall
    obtain ⟨next, hnext, i, hi, rfl⟩ := hall.head? hline
    exact ⟨i, hi, hnext⟩
  · rintro text htext
    obtain ⟨l, hl, rfl⟩ := List.mem_map.mp htext
    exact (markerLead_isPrefixOf_of_mem hcode hplain hl).1

end

/-- Programs of one tree that differ by their listings have the same code. -/
theorem code_eq_of_compile {tree : Pattern} {options options' : CompileOptions}
    {program program' : Program} (hcompile : compile tree options = .ok program)
    (hcompile' : compile tree options' = .ok program') (htrace : options'.trace = options.trace) :
    program'.code = program.code := by
  obtain ⟨root, hroot, hcode, _⟩ := assembly_of_compile hcompile
  obtain ⟨root', hroot', hcode', _⟩ := assembly_of_compile hcompile'
  obtain rfl : root = root' := Option.some.inj (hroot.symm.trans hroot')
  rw [code_assembly, htrace] at hcode'
  rw [code_assembly] at hcode
  exact Array.toList_inj.mp (hcode'.trans hcode.symm)

/-- **The listing of a compiled pattern is its program, line by line.**  Without the lines that look
like markers, it is the header of 16 lines, one line for each instruction, and an end.  No
instruction takes more than a line, or looks like a marker, whatever bytes the pattern holds.  This
is also the whole listing if no markers are asked for; if they are, every one of them stands right
in front of the line at which the block of a node begins. -/
theorem listing_renders_program {tree : Pattern} {options : CompileOptions} {program : Program}
    (hcompile : compile tree options = .ok program) :
    Compilation.header.length = 16 ∧
    withoutMarkers program.text =
      unlines (Compilation.header ++ program.code.toList.map Instruction.text ++ [".end"]) ∧
    (∀ i ∈ program.code, '\n' ∉ i.text.toList ∧ ¬ markerLead <+: i.text.toList) ∧
    (∃ program', compile tree { options with lineMarkers := false } = .ok program' ∧
      program'.code = program.code ∧ program'.text = withoutMarkers program.text) ∧
    ∃ root, tree.wrapped? = some root ∧ ∀ before line after,
      textLines program.text = before ++ line :: after → markerLead <+: line →
        ∃ n ∈ root.nodes, after.head? =
          some (Instruction.block (.node n.id) (some (blockComment n))).text.toList := by
  obtain ⟨root, ls, hroot, htext, hcode, hplain, _, hheralds⟩ := lines_of_compile hcompile
  have hcode' : ∀ i ∈ program.code.toList, '\n' ∉ i.text.toList :=
    fun i hi => hcode i (Array.mem_def.mpr hi)
  have hwithout := withoutMarkers_lines hcode' hplain
  refine ⟨rfl, by rw [htext, hwithout], fun i hi => ⟨hcode i hi, ?_⟩, ?_, root, hroot, ?_⟩
  · rw [← List.isPrefixOf_iff_prefix, markerLead_isPrefixOf (head?_text_ne i)]
    exact Bool.false_ne_true
  · obtain ⟨program', hcompile'⟩ : ∃ program',
        compile tree { options with lineMarkers := false } = .ok program' :=
      compile_isOk_of_maxLiteral hcompile rfl
    have hsame : program'.code = program.code := code_eq_of_compile hcompile hcompile' rfl
    obtain ⟨_, ls', _, htext', _, _, hall, _⟩ := lines_of_compile hcompile'
    refine ⟨program', hcompile', hsame, ?_⟩
    rw [htext', hall rfl, map_text_plainLines, hsame, htext, hwithout]
  · intro before line after hlines hline
    rw [htext] at hlines
    obtain ⟨_, ⟨n, hn, rfl⟩, hhead⟩ := head?_after_marker hcode' hplain hheralds hlines hline
    exact ⟨n, hn, hhead⟩

/-- The pattern of a line break, of which neither byte can be printed. -/
def lineBreak : Pattern := .literal 1 [13, 10] .once

/-- In the listing of `lineBreak` every instruction is one line. -/
theorem listing_renders_program_lineBreak :
    ∃ program, compile lineBreak {} = .ok program ∧
      withoutMarkers program.text =
        unlines (Compilation.header ++ program.code.toList.map Instruction.text ++ [".end"]) ∧
      unlessLiteral [13, 10] .fail ∈ program.code ∧
      '\n' ∉ (unlessLiteral [13, 10] .fail).text.toList := by
  obtain ⟨program, hcompile⟩ : ∃ program, compile lineBreak {} = .ok program :=
    compile_isOk_of_isSome ⟨by decide, by decide⟩ (by decide)
  obtain ⟨_, htext, hcode, _⟩ := listing_renders_program hcompile
  have hmem : unlessLiteral [13, 10] .fail ∈ program.code := by
    obtain ⟨root', hroot', hcode', _⟩ := assembly_of_compile hcompile
    rw [Array.mem_def, hcode', code_assembly]
    cases hroot'
    decide
  exact ⟨program, hcompile, htext, hmem, (hcode _ hmem).1⟩

end PatternMachine
