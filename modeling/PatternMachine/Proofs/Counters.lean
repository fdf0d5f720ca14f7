import PatternMachine.Proofs.Rendering

/-!
# Listings that are counted

A listing can be kept as one text, with counters beside it: for the lines in it, and for those above
the latest marker.  Nothing but the counters then says where the text stands, and that is safe only
as long as every operation keeps them in step with it.

* `Buffer` — a listing as one text with two counters; `Buffer.ofListing` — that of given lines.
* `Operation`, `perform` — what is done to a listing, what it hands out, and what remains of it.
* `latestMark` — the number on the latest marker among some lines.
* `Listing.Sound` — every marker of a listing says how many lines stand above it.

Principal results: `ofListing_write`, `ofListing_take`, `perform_ofListing` — a buffer does what the
listing does.  `Listing.Sound.write`, `Listing.sound_perform` — the operations keep a listing sound.
`perform_segmented` — what is handed out is what new buffers would hand out.
`counters_describe_buffer` — all of it for every sequence of operations.
-/

set_option autoImplicit false

namespace PatternMachine

/-! ## One text with two counters -/

/-- A listing that is kept as one text. -/
structure Buffer where
  /-- Whether line markers are written. -/
  markers : Bool
  code : Array Instruction
  text : String
  /-- The number of lines in the text. -/
  lines : Nat
  /-- The number of lines above the latest marker; 0 if there is none. -/
  marked : Nat
  deriving DecidableEq, Repr

namespace Buffer

/-- A buffer without a line. -/
def new (markers : Bool) : Buffer := ⟨markers, #[], "", 0, 0⟩

/-- Adds a line to the text, and counts it. -/
def line (b : Buffer) (text : String) : Buffer :=
  { b with text := b.text ++ text ++ "\n", lines := b.lines + 1 }

/-- Writes an instruction. -/
def emit (b : Buffer) (i : Instruction) : Buffer :=
  let b := b.line i.text
  { b with code := b.code.push i }

/-- Writes a line of text. -/
def comment (b : Buffer) (text : String) : Buffer := b.line text

/-- Writes a line marker if markers are asked for and more lines than the interval have been
written since the latest one. -/
def mark (b : Buffer) : Buffer :=
  if b.markers = true ∧ b.marked + Listing.markerInterval < b.lines then
    { b with marked := b.lines }.line ("# line " ++ toString b.lines)
  else b

/-- Carries out a directive. -/
def write (b : Buffer) : Directive → Buffer
  | .instruction i => b.emit i
  | .comment text => b.comment text
  | .mark => b.mark

/-- Carries out directives in order. -/
def writeAll (b : Buffer) (ds : List Directive) : Buffer := ds.foldl write b

/-- Hands out all that was written and sets the counters back. -/
def take (b : Buffer) : Assembly × Buffer :=
  (⟨b.code.toList, b.text⟩, { b with code := #[], text := "", lines := 0, marked := 0 })

/-- The buffer of a listing. -/
def ofListing (l : Listing) : Buffer := ⟨l.markers, l.code.toArray, l.text, l.size, l.marked⟩

end Buffer

/-- What is done to a listing: something is written, or all is handed out. -/
inductive Operation where
  | write (directive : Directive)
  | take
  deriving DecidableEq, Repr

/-- Carries out operations in order: what is handed out, one after the other, and what remains. -/
def perform {α : Type} (write : α → Directive → α) (take : α → Assembly × α) :
    α → List Operation → List Assembly × α
  | a, [] => ([], a)
  | a, .write d :: operations => perform write take (write a d) operations
  | a, .take :: operations =>
    let later := perform write take (take a).2 operations
    ((take a).1 :: later.1, later.2)

namespace Operation

/-- What an operation writes is one line. -/
def OneLine : Operation → Prop
  | .write d => ∀ l, d.line? = some l → '\n' ∉ l.text.toList
  | .take => True

/-- Segments of directives with a take behind each of them, and the directives behind the last
take. -/
def segmented (segments : List (List Directive)) (last : List Directive) : List Operation :=
  segments.flatMap (fun ds => ds.map .write ++ [.take]) ++ last.map .write

/-- Operations can be parted at the takes. -/
theorem exists_segmented (operations : List Operation) :
    ∃ segments last, operations = segmented segments last := by
  induction operations with
  | nil => exact ⟨[], [], rfl⟩
  | cons operation operations ih =>
    obtain ⟨segments, last, rfl⟩ := ih
    cases operation with
    | take => exact ⟨[] :: segments, last, rfl⟩
    | write d =>
      cases segments with
      | nil => exact ⟨[], d :: last, rfl⟩
      | cons ds segments => exact ⟨(d :: ds) :: segments, last, rfl⟩

end Operation

/-! ## Buffers and listings -/

namespace Buffer

theorem ofListing_push (l : Listing) (line : Line) :
    ofListing (l.push line) =
      { (ofListing l).line line.text with
        code := (ofListing l).code ++ line.instruction?.toList.toArray } := by
  cases h : line.instruction? <;>
    simp [ofListing, Listing.push, Listing.code, Listing.text, Listing.size, Buffer.line, h]

/-- A buffer writes what the listing writes. -/
theorem ofListing_write (l : Listing) (d : Directive) :
    ofListing (l.write d) = (ofListing l).write d := by
  cases d with
  | instruction i =>
    rw [Listing.write, Listing.emit, ofListing_push]
    simp [write, emit, Buffer.line, Line.instruction?, Line.text]
  | comment text =>
    rw [Listing.write, Listing.comment, ofListing_push]
    simp [write, comment, Buffer.line, Line.instruction?, Line.text]
  | mark =>
    -- Both counters are read before the marker is written and counted.
    by_cases hdue : l.markers = true ∧ l.marked + Listing.markerInterval < l.size
    · have hdue' : (ofListing l).markers = true ∧
          (ofListing l).marked + Listing.markerInterval < (ofListing l).lines := hdue
      rw [Listing.write, Listing.mark, if_pos hdue, write, mark, if_pos hdue', ofListing_push]
      simp [ofListing, Buffer.line, Line.instruction?, Line.text, Listing.code, Listing.text,
        Listing.size]
    · have hdue' : ¬ ((ofListing l).markers = true ∧
          (ofListing l).marked + Listing.markerInterval < (ofListing l).lines) := hdue
      rw [Listing.write, Listing.mark, if_neg hdue, write, mark, if_neg hdue']

/-- A buffer hands out what the listing hands out. -/
theorem ofListing_take (l : Listing) :
    (ofListing l).take = (l.take.1, ofListing l.take.2) := by
  simp [take, ofListing, Listing.take, Listing.new, Listing.code, Listing.text, Listing.size]

/-- **A buffer does what the listing does**, whatever the operations. -/
theorem perform_ofListing (l : Listing) (operations : List Operation) :
    perform write take (ofListing l) operations =
      ((perform Listing.write Listing.take l operations).1,
        ofListing (perform Listing.write Listing.take l operations).2) := by
  induction operations generalizing l with
  | nil => rfl
  | cons operation operations ih =>
    cases operation with
    | write d => rw [perform, perform, ← ofListing_write, ih]
    | take => simp only [perform, ofListing_take, ih]

end Buffer

/-! ## Markers -/

/-- The number on a line, if the line is a marker. -/
def Line.above? : Line → Option Nat
  | .marker above => some above
  | _ => none

/-- The number on the latest marker among lines; 0 if there is none. -/
def latestMark (ls : List Line) : Nat := ((ls.filterMap Line.above?).getLast?).getD 0

theorem latestMark_concat (ls : List Line) (line : Line) :
    latestMark (ls ++ [line]) = line.above?.getD (latestMark ls) := by
  cases h : line.above? <;> simp [latestMark, h]

namespace Listing

/-- Every line of a listing is one line, every marker says how many lines stand above it, and the
listing remembers the latest one. -/
structure Sound (l : Listing) : Prop where
  marked : l.marked = latestMark l.lines.toList
  above : ∀ before n after, l.lines.toList = before ++ .marker n :: after → before.length = n
  unmarked : l.markers = false → ∀ n, .marker n ∉ l.lines.toList
  oneLine : ∀ line ∈ l.lines.toList, '\n' ∉ line.text.toList

theorem sound_new (markers : Bool) : (new markers).Sound :=
  ⟨rfl, by simp [new], by simp [new], by simp [new]⟩

variable {l : Listing} {line : Line}

/-- A listing stays sound if a further line is one, and counts what is above it if it is a
marker. -/
theorem Sound.push (h : l.Sound) (line : Line) (honeLine : '\n' ∉ line.text.toList)
    (habove : ∀ n, line = .marker n → l.size = n ∧ l.markers = true) :
    ({ l with marked := line.above?.getD l.marked }.push line).Sound := by
  have hlines : ({ l with marked := line.above?.getD l.marked }.push line).lines.toList =
      l.lines.toList ++ [line] := Array.toList_push
  constructor
  · rw [hlines, latestMark_concat, ← h.marked]
    rfl
  · intro before n after hsplit
    rw [hlines] at hsplit
    rcases List.eq_nil_or_concat after with rfl | ⟨after, last, rfl⟩
    · obtain ⟨rfl, hlast⟩ := List.append_inj' hsplit rfl
      exact (habove n (List.singleton_inj.mp hlast)).1
    · rw [List.concat_eq_append, ← List.cons_append, ← List.append_assoc] at hsplit
      exact h.above before n after (List.append_inj' hsplit rfl).1
  · intro hnone n hmem
    rw [hlines, List.mem_append, List.mem_singleton] at hmem
    rcases hmem with hmem | rfl
    · exact h.unmarked hnone n hmem
    · exact Bool.false_ne_true (hnone.symm.trans (habove n rfl).2)
  · intro other hmem
    rw [hlines, List.mem_append, List.mem_singleton] at hmem
    rcases hmem with hmem | rfl
    · exact h.oneLine other hmem
    · exact honeLine

/-- A line without a number leaves the latest marker as it is. -/
theorem Sound.push_plain (h : l.Sound) (honeLine : '\n' ∉ line.text.toList)
    (hplain : line.above? = none) : (l.push line).Sound := by
  have hpush := h.push line honeLine (by
    rintro n rfl
    cases hplain)
  rwa [hplain] at hpush

theorem Sound.mark (h : l.Sound) : l.mark.Sound := by
  rw [Listing.mark]
  split
  · rename_i hdue
    refine h.push (.marker l.size) ?_ ?_
    · simp [Line.text]
    · rintro n hn
      exact ⟨Line.marker.inj hn, hdue.1⟩
  · exact h

/-- **What is written keeps a listing sound**, as long as it is one line. -/
theorem Sound.write (h : l.Sound) {d : Directive} (hd : (Operation.write d).OneLine) :
    (l.write d).Sound := by
  cases d with
  | instruction i => exact h.push_plain (hd _ rfl) rfl
  | comment text => exact h.push_plain (hd _ rfl) rfl
  | mark => exact h.mark

/-- **Operations keep a listing sound.** -/
theorem sound_perform {operations : List Operation} (h : l.Sound)
    (honeLine : ∀ operation ∈ operations, operation.OneLine) :
    (perform Listing.write Listing.take l operations).2.Sound := by
  induction operations generalizing l with
  | nil => exact h
  | cons operation operations ih =>
    have hlater := fun other hmem => honeLine other (List.mem_cons_of_mem _ hmem)
    cases operation with
    | write d => exact ih (h.write (honeLine _ List.mem_cons_self)) hlater
    | take => exact ih (sound_new _) hlater

end Listing

/-! ## Counters -/

/-- The text of lines has as many newlines as there are lines. -/
theorem count_unlines {lines : List String} (h : ∀ line ∈ lines, '\n' ∉ line.toList) :
    (unlines lines).toList.count '\n' = lines.length := by
  induction lines with
  | nil => rfl
  | cons line lines ih =>
    have hline : line.toList.count '\n' = 0 := List.count_eq_zero.mpr (h line List.mem_cons_self)
    have hlines := ih fun other hmem => h other (List.mem_cons_of_mem _ hmem)
    rw [unlines, List.map_cons, String.join_cons, ← unlines]
    simp [hline, hlines]

namespace Buffer

/-- The counters, the text and the markers of a buffer are those of lines. -/
structure Describes (b : Buffer) (ls : List Line) : Prop where
  text : b.text = unlines (ls.map Line.text)
  code : b.code.toList = ls.filterMap Line.instruction?
  lines : b.lines = b.text.toList.count '\n'
  marked : b.marked = latestMark ls
  /-- A marker is due when there are eleven lines more than the number on the latest one. -/
  mark : b.mark =
    if b.markers = true ∧ latestMark ls + 11 ≤ b.lines then
      { b.line ("# line " ++ toString b.lines) with marked := b.lines }
    else b
  /-- Every marker says how many lines stand above it in the text. -/
  above : ∀ before n after, ls = before ++ .marker n :: after →
    (unlines (before.map Line.text)).toList.count '\n' = n
  unmarked : b.markers = false → ∀ n, .marker n ∉ ls

theorem describes_ofListing {l : Listing} (h : l.Sound) :
    (ofListing l).Describes l.lines.toList := by
  have htexts : ∀ ls : List Line, (∀ line ∈ ls, line ∈ l.lines.toList) →
      (unlines (ls.map Line.text)).toList.count '\n' = ls.length := by
    intro ls hsub
    rw [count_unlines, List.length_map]
    intro text htext
    obtain ⟨line, hline, rfl⟩ := List.mem_map.mp htext
    exact h.oneLine line (hsub line hline)
  have htext : (ofListing l).text = unlines (l.lines.toList.map Line.text) := l.text_eq_unlines
  refine ⟨htext, rfl, ?_, h.marked, ?_, ?_, h.unmarked⟩
  · rw [htext, htexts _ fun _ hmem => hmem, Array.length_toList]
    rfl
  · rw [Buffer.mark, ← h.marked]
    rfl
  · intro before n after hsplit
    rw [htexts, h.above before n after hsplit]
    intro line hline
    rw [hsplit]
    exact List.mem_append_left _ hline

/-! ## What is handed out -/

theorem markers_write (b : Buffer) (d : Directive) : (b.write d).markers = b.markers := by
  cases d with
  | mark =>
    rw [write, mark]
    split <;> rfl
  | _ => rfl

theorem markers_writeAll (b : Buffer) (ds : List Directive) :
    (b.writeAll ds).markers = b.markers := by
  induction ds generalizing b with
  | nil => rfl
  | cons d ds ih => exact (ih (b.write d)).trans (b.markers_write d)

/-- Writing hands out nothing, and is followed by what comes next. -/
theorem perform_writes (b : Buffer) (ds : List Directive) (operations : List Operation) :
    perform write take b (ds.map .write ++ operations) =
      perform write take (b.writeAll ds) operations := by
  induction ds generalizing b with
  | nil => rfl
  | cons d ds ih => exact ih (b.write d)

/-- **What is handed out is what new buffers would hand out**, one for each segment. -/
theorem perform_segmented (markers : Bool) (segments : List (List Directive))
    (last : List Directive) :
    perform write take (new markers) (Operation.segmented segments last) =
      (segments.map fun ds => ((new markers).writeAll ds).take.1, (new markers).writeAll last) := by
  induction segments with
  | nil =>
    have hlast := perform_writes (new markers) last []
    rwa [List.append_nil] at hlast
  | cons ds segments ih =>
    -- The choice of markers is all that a buffer keeps.
    have hnew : ((new markers).writeAll ds).take.2 = new markers := by
      rw [take, markers_writeAll]
      rfl
    have hoperations : Operation.segmented (ds :: segments) last =
        ds.map .write ++ .take :: Operation.segmented segments last := by
      simp [Operation.segmented]
    rw [hoperations, perform_writes]
    simp only [perform, hnew, ih, List.map_cons]

end Buffer

/-- **The counters of a buffer describe it, after every sequence of operations.**  The buffer hands
out what the listing hands out and remains the buffer of its lines.  The counters are as many as the
newlines of the text and the number on the latest marker since the latest take; so markers are
written when they are due, say how many lines stand above them, and are never written when none are
asked for.  What is handed out is what new buffers would hand out for the directives between two
takes. -/
theorem counters_describe_buffer (markers : Bool) (operations : List Operation)
    (honeLine : ∀ operation ∈ operations, operation.OneLine) :
    ∃ handed b l,
      perform Buffer.write Buffer.take (.new markers) operations = (handed, b) ∧
      perform Listing.write Listing.take (.new markers) operations = (handed, l) ∧
      b = .ofListing l ∧ b.markers = markers ∧ b.Describes l.lines.toList ∧
      ∃ segments last, operations = Operation.segmented segments last ∧
        handed = (segments.map fun ds => ((Buffer.new markers).writeAll ds).take.1) ∧
        b = (Buffer.new markers).writeAll last := by
  have hbuffer := Buffer.perform_ofListing (.new markers) operations
  have hsound := Listing.sound_perform (Listing.sound_new markers) honeLine
  obtain ⟨segments, last, hoperations⟩ := Operation.exists_segmented operations
  have hsegments := Buffer.perform_segmented markers segments last
  rw [← hoperations] at hsegments
  have hpair := hbuffer.symm.trans hsegments
  have hlast := congrArg Prod.snd hpair
  refine ⟨_, _, _, hbuffer, rfl, rfl, ?_, Buffer.describes_ofListing hsound, segments, last,
    hoperations, congrArg Prod.fst hpair, hlast⟩
  exact (congrArg Buffer.markers hlast).trans (Buffer.markers_writeAll _ _)

/-- Eleven instructions, a marker, a take, and a line of the next listing. -/
def elevenReturns : List Operation :=
  List.replicate 11 (.write (.instruction .ret)) ++ [.write .mark, .take, .write (.comment "next")]

theorem counters_describe_buffer_elevenReturns :
    (∀ operation ∈ elevenReturns, operation.OneLine) ∧
      ∃ handed b, perform Buffer.write Buffer.take (.new true) elevenReturns = (handed, b) ∧
        b.lines = 1 ∧ b.marked = 0 ∧ b.text.toList.count '\n' = 1 ∧
        handed.map Assembly.text =
          [String.join (List.replicate 11 "    ret\n") ++ "# line 11\n"] := by
  have honeLine : ∀ operation ∈ elevenReturns, operation.OneLine := by
    simp [elevenReturns, Operation.OneLine, Directive.line?, Line.text, Instruction.text]
  have hrun : perform Buffer.write Buffer.take (.new true) elevenReturns =
      ([⟨List.replicate 11 .ret, String.join (List.replicate 11 "    ret\n") ++ "# line 11\n"⟩],
        ⟨true, #[], "next\n", 1, 0⟩) := by decide
  obtain ⟨handed, b, _, hbuffer, _, _, _, hdescribes, _⟩ :=
    counters_describe_buffer true elevenReturns honeLine
  cases hrun.symm.trans hbuffer
  exact ⟨honeLine, _, _, hrun, rfl, rfl, hdescribes.lines.symm, rfl⟩

end PatternMachine
