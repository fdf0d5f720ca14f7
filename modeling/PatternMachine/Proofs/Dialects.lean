import PatternMachine.Proofs.Outlines
import PatternMachine.Compilation.Text

/-!
# The two dialects agree

* `Piece.Read`, `Row.Read`, `Outline.Read` — a phrase is read into any draft, and what comes of it
  depends neither on the dialect nor on the groups around it.

Principal results: `Outline.read` — every outline is read so.  `dialects_agree` — its two texts are
parsed into one tree, with the same numbers, and compiled to one program.
-/

set_option autoImplicit false

namespace PatternMachine

open Grammar

/-- A piece becomes the last item, in both dialects with the same numbers, and can be repeated. -/
def Piece.Read (piece : Piece) : Prop :=
  ∀ supply, ∃ supply' p,
    (∀ d f level outer rest,
      Draft.Reads d f ⟨supply, level, outer⟩ (piece.text d ++ rest) true
        ⟨supply', level.add p, outer⟩ rest) ∧
    ∀ q, ∃ p', p.withQuantifier? q = some p'

/-- The items of an alternative become the last ones, in both dialects with the same numbers. -/
def Row.Read (row : Row) : Prop :=
  ∀ supply level, ∃ supply' level', ∀ d f outer rest, Signless rest →
    ∃ f', Draft.Reads d f ⟨supply, level, outer⟩ (row.text d ++ rest) f'
      ⟨supply', level', outer⟩ rest

/-- A pattern becomes the last branches, in both dialects with the same numbers. -/
def Outline.Read (outline : Outline) : Prop :=
  ∀ supply level, ∃ supply' level', ∀ d f outer rest, Signless rest →
    ∃ f', Draft.Reads d f ⟨supply, level, outer⟩ (outline.text d ++ rest) f'
      ⟨supply', level', outer⟩ rest

/-! ## Pieces -/

/-- An atom that is spelled alike in both dialects is read, if it can be repeated. -/
theorem Piece.Read.of_atom {piece : Piece} {atom : Atom}
    (hspelled : ∀ d rest, Spelled d (.atom atom) (piece.text d ++ rest) rest)
    (hrepeat : ∀ id q, ∃ p', (atom.toPattern id).withQuantifier? q = some p') : piece.Read := by
  intro supply
  refine ⟨⟨supply.nextId + 1, supply.nextCapture⟩, atom.toPattern (UInt32.ofNat supply.nextId),
    ?_, hrepeat _⟩
  intro d f level outer rest
  exact reads_atom atom (hspelled d rest) f ⟨supply, level, outer⟩

theorem Piece.Read.char (c : Char) : (Piece.char c).Read := by
  apply @Piece.Read.of_atom _ (Atom.ofChar c)
  · exact fun _ _ => literal_charText c
  · exact fun _ _ => ⟨_, rfl⟩

theorem Piece.Read.control (control : Control) : (Piece.control control).Read := by
  apply @Piece.Read.of_atom _ (.literal [control.byte])
  · exact fun _ _ => control.literal
  · exact fun _ _ => ⟨_, rfl⟩

theorem Piece.Read.wildcard : Piece.wildcard.Read := by
  apply @Piece.Read.of_atom _ .wildcard
  · exact fun _ _ => rfl
  · exact fun _ _ => ⟨_, rfl⟩

/-- What is left of a supply when a group is opened. -/
def Supply.opened (capturing : Bool) (supply : Supply) : Supply :=
  if capturing then { supply with nextCapture := supply.nextCapture + 1 } else supply

/-- The index of a group that is opened. -/
def Supply.capture? (capturing : Bool) (supply : Supply) : Option UInt32 :=
  if capturing then some (UInt32.ofNat supply.nextCapture) else none

/-- The beginning of a group is read. -/
theorem reads_open (d : Dialect) (capturing : Bool) {cs : List Char} (hcs : Unrepeated cs)
    (f : Bool) (supply : Supply) (level : Level) (outer : List (Opening × Level)) :
    Draft.Reads d f ⟨supply, level, outer⟩ (d.opener capturing ++ cs) false
      ⟨supply.opened capturing, .new,
        (⟨supply.capture? capturing, d.delimiter capturing⟩, level) :: outer⟩ cs := by
  apply Draft.Reads.token (spelled_open capturing) nofun (fun _ => hcs)
  intro _ _
  cases capturing <;> rfl

theorem Piece.Read.group (capturing : Bool) {body : Outline} (ih : body.Read) :
    (Piece.group capturing body).Read := by
  intro supply
  obtain ⟨supply', inner, hbody⟩ := ih (supply.opened capturing) .new
  refine ⟨⟨(inner.body joinLiterals supply'.nextId).2 + 1, supply'.nextCapture⟩,
    .group (UInt32.ofNat (inner.body joinLiterals supply'.nextId).2)
      (inner.body joinLiterals supply'.nextId).1 (supply.capture? capturing) .once,
    ?_, fun q => ⟨_, rfl⟩⟩
  intro d f level outer rest
  have hclose : Signless ((d.delimiter capturing).closer :: rest) := by
    apply signless_cons
    cases d.delimiter capturing <;> decide
  have hbegin : Unrepeated (body.text d ++ (d.delimiter capturing).closer :: rest) :=
    body.unrepeated hclose
  have hopen := reads_open d capturing hbegin f supply level outer
  obtain ⟨f', hreads⟩ := hbody d false
    ((⟨supply.capture? capturing, d.delimiter capturing⟩, level) :: outer) _ hclose
  have hend : Draft.Reads d f'
      ⟨supply', inner, (⟨supply.capture? capturing, d.delimiter capturing⟩, level) :: outer⟩
      ((d.delimiter capturing).closer :: rest) true _ rest :=
    reads_close (spelled_close capturing) f' supply' inner level outer
  have hgroup := (hopen.trans hreads).trans hend
  simpa [Piece.text] using hgroup

/-! ## Alternatives -/

theorem Row.Read.nil : Row.nil.Read := by
  intro supply level
  refine ⟨supply, level, ?_⟩
  intro d f outer rest _
  exact ⟨f, .trivia .none f _⟩

theorem Row.Read.anchor (edge : Edge) {later : Row} (ih : later.Read) :
    (Row.anchor edge later).Read := by
  intro supply level
  obtain ⟨supply', level', hlater⟩ := ih ⟨supply.nextId + 1, supply.nextCapture⟩
    (level.add (.anchor (UInt32.ofNat supply.nextId) edge.anchor))
  refine ⟨supply', level', ?_⟩
  intro d f outer rest hrest
  have hanchor := reads_atom (.anchor edge.anchor)
    (edge.position (later.head?_gap (d := d) edge hrest)) f ⟨supply, level, outer⟩
  obtain ⟨f', hreads⟩ := hlater d true outer rest hrest
  refine ⟨f', ?_⟩
  have hrow := (hanchor.trans (.trivia (trivia_gap later) true _)).trans hreads
  simpa [Row.text] using hrow

theorem Row.Read.once {piece : Piece} {later : Row} (ihPiece : piece.Read) (ih : later.Read) :
    (Row.piece piece none later).Read := by
  intro supply level
  obtain ⟨supply', p, hpiece, _⟩ := ihPiece supply
  obtain ⟨supply'', level', hlater⟩ := ih supply' (level.add p)
  refine ⟨supply'', level', ?_⟩
  intro d f outer rest hrest
  obtain ⟨f', hreads⟩ := hlater d true outer rest hrest
  refine ⟨f', ?_⟩
  have hrow := (hpiece d f level outer (later.text d ++ rest)).trans hreads
  simpa [Row.text, suffix] using hrow

theorem Row.Read.repeated {piece : Piece} (times : Times) {later : Row} (ihPiece : piece.Read)
    (ih : later.Read) : (Row.piece piece (some times) later).Read := by
  intro supply level
  obtain ⟨supply', p, hpiece, hrepeat⟩ := ihPiece supply
  obtain ⟨p', hp⟩ := hrepeat times.quantifier
  obtain ⟨supply'', level', hlater⟩ := ih supply' (level.add p')
  refine ⟨supply'', level', ?_⟩
  intro d f outer rest hrest
  have htimes : Draft.Reads d true ⟨supply', level.add p, outer⟩
      (times.text d ++ (later.text d ++ rest)) false ⟨supply', level.add p', outer⟩
      (later.text d ++ rest) :=
    reads_repetition times.repetition hp (later.unrepeated hrest) supply' level outer
  obtain ⟨f', hreads⟩ := hlater d false outer rest hrest
  refine ⟨f', ?_⟩
  have hrow := ((hpiece d f level outer _).trans htimes).trans hreads
  simpa [Row.text, suffix] using hrow

theorem Outline.Read.last {row : Row} (ih : row.Read) : (Outline.last row).Read := ih

theorem Outline.Read.either {row : Row} {others : Outline} (ihRow : row.Read) (ih : others.Read) :
    (Outline.either row others).Read := by
  intro supply level
  obtain ⟨supply', level', hrow⟩ := ihRow supply level
  obtain ⟨supply'', level'', hothers⟩ := ih
    ⟨(level'.branch joinLiterals supply'.nextId).2, supply'.nextCapture⟩
    ⟨(level'.branch joinLiterals supply'.nextId).1 :: level'.branches, []⟩
  refine ⟨supply'', level'', ?_⟩
  intro d f outer rest hrest
  obtain ⟨f', hreads⟩ := hrow d f outer ('|' :: (others.text d ++ rest))
    (signless_cons (by decide) _)
  obtain ⟨f'', hreads'⟩ := hothers d false outer rest hrest
  refine ⟨f'', ?_⟩
  have houtline := (hreads.trans (reads_bar f' ⟨supply', level', outer⟩)).trans hreads'
  simpa [Outline.text] using houtline

mutual

/-- **Every outline is read**, in both dialects with the same numbers. -/
theorem Outline.read : (outline : Outline) → outline.Read
  | .last row => .last row.read
  | .either row others => .either row.read others.read

theorem Row.read : (row : Row) → row.Read
  | .nil => .nil
  | .anchor edge later => .anchor edge later.read
  | .piece piece none later => .once piece.read later.read
  | .piece piece (some times) later => .repeated times piece.read later.read

theorem Piece.read : (piece : Piece) → piece.Read
  | .char c => .char c
  | .control control => .control control
  | .wildcard => .wildcard
  | .group capturing body => .group capturing body.read

end

/-! ## Whole texts -/

/-- **The two dialects agree.**  Take any pattern of characters, wildcards, anchors, groups,
alternatives and repetitions, and write it in both dialects.  Both texts are parsed, and into one
tree, with the same numbers of nodes and captures.  So both are compiled to one program, or refused
with one error. -/
theorem dialects_agree (outline : Outline) :
    (∃ tree, parse .perl5 (outline.written .perl5) = .ok tree ∧
      parse .perl6 (outline.written .perl6) = .ok tree) ∧
    ∀ options, compileText .perl5 (outline.written .perl5) options =
      compileText .perl6 (outline.written .perl6) options := by
  obtain ⟨supply, level, hreads⟩ := outline.read .initial .new
  have hparse : ∀ d, parse d (outline.written d) =
      .ok (level.body joinLiterals supply.nextId).1 := by
    intro d
    obtain ⟨f, htext⟩ := hreads d false [] [] nofun
    rw [List.append_nil, ← String.toList_ofList (l := outline.text d)] at htext
    exact parse_of_reads htext
  constructor
  · exact ⟨_, hparse .perl5, hparse .perl6⟩
  · intro options
    simp only [compileText, hparse]

end PatternMachine
