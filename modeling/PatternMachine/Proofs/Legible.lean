import PatternMachine.Proofs.Lines
import PatternMachine.Proofs.Quoting

/-!
# Reading instructions off a listing

A line of a listing determines its instruction: it can be read back.  What belongs together is
always closed by something that cannot be part of it, a number by a character that is no digit, a
name by a space or a bracket, a literal by its quote.

* `Scan` — reads something at the start of a text, and says what follows it.
* `Scan.oneOf` — goes on behind the first of some words that leads to something.
* `Scan.label`, `Scan.condition`, `Scan.instruction` — the readers of the parts of a line, and of a
  whole line.

Principal results: `number_toDigits_append`, `label_text`, `condition_text` — the parts are read
back where what may follow them follows.  `instruction_text` — so every instruction is read back
from its line.  `instruction_texts_unambiguous` — no two instructions and no two labels have the
same text.
-/

set_option autoImplicit false

namespace PatternMachine

/-! ## Readers -/

/-- Reads something at the start of a text, and says what follows it. -/
def Scan (α : Type) : Type := List Char → Option (α × List Char)

namespace Scan

instance : Monad Scan where
  pure a cs := some (a, cs)
  bind read next cs :=
    match read cs with
    | some (a, rest) => next a rest
    | none => none

/-- Goes on behind a word. -/
def after {α : Type} : (word : List Char) → (read : Scan α) → Scan α
  | [], read, cs => read cs
  | _ :: _, _, [] => none
  | w :: word, read, c :: cs => if w = c then after word read cs else none

/-- Passes over a word. -/
def skip (word : String) : Scan Unit := after word.toList (pure ())

/-- Goes on behind the first of some words that leads to something. -/
def oneOf {α : Type} (ways : List (String × Scan α)) : Scan α :=
  fun cs => ways.findSome? fun way => after way.1.toList way.2 cs

def number : Scan Nat := fun cs =>
  match cs.takeWhile Char.isDigit with
  | [] => none
  | digits => some (Nat.ofDigitChars 10 digits 0, cs.dropWhile Char.isDigit)

/-- The number of a node. -/
def node : Scan NodeId := return UInt32.ofNat (← number)

/-- The index of a place inside a block. -/
def index : Scan UInt8 := return UInt8.ofNat (← number)

/-- Bytes between quotes. -/
def quoted : Scan (List UInt8) := Quoted.decode?

/-- The rest of the line. -/
def remaining : Scan String := fun cs => some (String.ofList cs, [])

/-- Passes over spaces. -/
def spaces : Scan Unit := fun cs => some ((), cs.dropWhile (· == ' '))

/-- A label.  The number of a node is followed by the place that is meant. -/
def label : Scan Label := oneOf [
  ("search", pure .search),
  ("fail_forever", pure .failForever),
  ("fail", pure .fail),
  ("R", do
    let id ← node
    oneOf [
      ("_repeat_fail", pure (.againFail id)),
      ("_repeat_", return .againInner id (← index)),
      ("_repeat", pure (.again id)),
      ("_", return .inner id (← index)),
      ("", pure (.node id))])]

def register : Scan Register := oneOf [
  ("pos", pure .pos),
  ("rep", pure .rep),
  ("maxrep", pure .maxrep)]

def operand : Scan Operand := fun cs =>
  match number cs with
  | some (value, rest) => some (.imm value, rest)
  | none => oneOf [
      ("lastpos - pos", pure .remaining),
      ("lastpos", pure .lastPos),
      ("", return .register (← register))] cs

def comparison : Scan Comparison := oneOf [
  ("==", pure .eq),
  ("!=", pure .ne),
  ("<=", pure .le),
  ("<", pure .lt),
  (">=", pure .ge),
  (">", pure .gt)]

/-- Whether equality is tested, or its opposite. -/
def equality : Scan Bool := oneOf [("==", pure true), ("!=", pure false)]

/-- The position at a distance. -/
def offset : Scan Int := oneOf [
  ("pos - ", return -(← number)),
  ("pos + ", return (← number)),
  ("pos", pure 0)]

def condition : Scan Condition := oneOf [
  ("gr_rep[", do
    let group ← node
    skip "] "
    let comparison ← comparison
    skip " "
    return .count group comparison (← number)),
  ("substr(target, pos, ", do
    let _ ← number
    skip ") "
    let expected ← equality
    skip " "
    return .literal (← quoted) expected),
  ("target[", do
    let offset ← offset
    skip "] "
    let expected ← equality
    skip " \"\\n\""
    return .newline offset expected),
  ("", do
    let r ← register
    skip " "
    let comparison ← comparison
    skip " "
    return .register r comparison (← operand))]

/-- Passes over the indentation of the labels inside blocks, if there is one. -/
def indent : Scan Unit := oneOf [("  ", pure ()), ("", pure ())]

/-- The definition of a label.  The spaces in front of a comment only fill the column. -/
def block : Scan Instruction := do
  indent
  let label ← label
  skip ":"
  spaces
  oneOf [
    ("# ", return .block label (some (← remaining))),
    ("", pure (.block label none))]

/-- A message to the journal, behind the first word. -/
def message : Scan Instruction := fun cs =>
  match quoted cs with
  | some (bytes, rest) =>
    (String.fromUTF8? ⟨bytes.toArray⟩).map fun message => (.trace message, rest)
  | none => none

/-- The start of a group, behind its first words.  Its name is repeated if it captures. -/
def entrance : Scan Instruction := do
  let group ← node
  skip "]"
  oneOf [
    (", gr_cap[", do
      let _ ← node
      skip "]"
      return .enter group true),
    ("", pure (.enter group false))]

/-- An instruction that names a group, behind its first words. -/
def named (make : NodeId → Instruction) (trail : String) : Scan Instruction := do
  let group ← node
  skip trail
  return make group

/-- A line that begins with the register that is changed. -/
def assignment : Scan Instruction := do
  let r ← register
  oneOf [
    (" = ", return .set r (← operand)),
    (" += ", return .add r (← operand)),
    (" -= ", return .sub r (← operand))]

/-- The instruction on a line of a listing. -/
def instruction : Scan Instruction := oneOf [
  ("    ", oneOf [
    ("goto ", return .goto (← label)),
    ("bsr ", return .call (← label)),
    ("ret", pure .ret),
    (".yield(pos)", pure .yield),
    (".yield(-1)", pure .exhausted),
    ("if ", do
      let condition ← condition
      skip " goto "
      return .branch condition (← label)),
    ("enter gr_rep[", entrance),
    ("leave ", named .leave ""),
    ("inc gr_rep[", named .countUp "]"),
    ("dec gr_rep[", named .countDown "]"),
    ("push gr_cap[", named .pushPos "], pos"),
    ("pop gr_cap[", named .popPos "]"),
    ("trace ", message),
    ("inc ", return .add (← register) (.imm 1)),
    ("dec ", return .sub (← register) (.imm 1)),
    ("", assignment)]),
  ("", block)]

/-! ## Words and numbers -/

section

variable {α β : Type} {read : Scan α} {c d : Char} {word cs s : List Char} {n : Nat}

@[simp] theorem pure_apply (a : α) : (pure a : Scan α) cs = some (a, cs) := rfl

@[simp]
theorem bind_apply (next : α → Scan β) :
    (read >>= next) cs =
      match read cs with
      | some (a, rest) => next a rest
      | none => none := rfl

@[simp] theorem after_nil : after [] read cs = read cs := by
  cases cs <;> rfl

@[simp] theorem after_cons_nil : after (c :: word) read [] = none := rfl

@[simp]
theorem after_cons_cons :
    after (c :: word) read (d :: cs) = if c = d then after word read cs else none := rfl

@[simp] theorem skip_apply {text : String} : skip text cs = after text.toList (pure ()) cs := rfl

@[simp] theorem oneOf_nil : oneOf ([] : List (String × Scan α)) cs = none := rfl

@[simp]
theorem oneOf_cons {text : String} {ways : List (String × Scan α)} :
    oneOf ((text, read) :: ways) cs = (after text.toList read cs).or (oneOf ways cs) := by
  rw [oneOf, List.findSome?_cons]
  cases after text.toList read cs <;> rfl

/-- A text that does not begin with a digit. -/
def NoDigit (s : List Char) : Prop := ∀ c ∈ s.head?, c.isDigit = false

@[simp] theorem noDigit_nil : NoDigit [] := by
  intro c hc
  cases hc

@[simp] theorem noDigit_cons : NoDigit (c :: s) ↔ c.isDigit = false := by
  simp [NoDigit]

theorem isDigit_of_mem_toDigits (hc : c ∈ Nat.toDigits 10 n) : c.isDigit = true :=
  Nat.isDigit_of_mem_toDigits (by decide) (by decide) hc

/-- **A number is read back** where no digit follows. -/
@[simp]
theorem number_toDigits_append (h : NoDigit s) :
    number (Nat.toDigits 10 n ++ s) = some (n, s) := by
  have hs : s.takeWhile Char.isDigit = [] ∧ s.dropWhile Char.isDigit = s := by
    cases s with
    | nil => exact ⟨rfl, rfl⟩
    | cons c s => simp [noDigit_cons.mp h]
  have hn : Nat.ofDigitChars 10 (Nat.toDigits 10 n) 0 = n :=
    Nat.ofDigitChars_toDigits (by decide) (by decide)
  rw [number, List.takeWhile_append_of_pos fun c => isDigit_of_mem_toDigits,
    List.dropWhile_append_of_pos fun c => isDigit_of_mem_toDigits, hs.1, hs.2, List.append_nil]
  split
  · rename_i hnil
    exact absurd hnil Nat.toDigits_ne_nil
  · rw [hn]

@[simp]
theorem number_toDigits : number (Nat.toDigits 10 n) = some (n, []) := by
  have happend : number (Nat.toDigits 10 n ++ []) = some (n, []) :=
    number_toDigits_append noDigit_nil
  rwa [List.append_nil] at happend

@[simp]
theorem number_cons (h : c.isDigit = false) : number (c :: s) = none := by
  simp [number, h]

/-- A number does not begin as a word does. -/
@[simp]
theorem after_toDigits_append (h : c.isDigit = false) :
    after (c :: word) read (Nat.toDigits 10 n ++ s) = none := by
  cases hn : Nat.toDigits 10 n with
  | nil => exact absurd hn Nat.toDigits_ne_nil
  | cons d ds =>
    have hd : d.isDigit = true := isDigit_of_mem_toDigits (hn ▸ List.mem_cons_self)
    rw [List.cons_append, after_cons_cons, if_neg]
    rintro rfl
    rw [h] at hd
    cases hd

@[simp]
theorem after_toDigits (h : c.isDigit = false) :
    after (c :: word) read (Nat.toDigits 10 n) = none := by
  have happend : after (c :: word) read (Nat.toDigits 10 n ++ []) = none :=
    after_toDigits_append h
  rwa [List.append_nil] at happend

end

/-! ## The parts of a line -/

/-- **A label is read back** at the end of a line, and in front of a colon. -/
theorem label_text (label : Label) {s : List Char} (h : s = [] ∨ ∃ t, s = ':' :: t) :
    Scan.label (label.text.toList ++ s) = some (label, s) := by
  rcases h with rfl | ⟨t, rfl⟩ <;> cases label <;> simp [Scan.label, node, index, Label.text]

/-- An operand is read back at the end of a line, and in front of the target of a branch. -/
theorem operand_text (operand : Operand) {s : List Char}
    (h : s = [] ∨ ∃ t, s = ' ' :: 'g' :: t) :
    Scan.operand (operand.text.toList ++ s) = some (operand, s) := by
  cases operand with
  | register r =>
    rcases h with rfl | ⟨t, rfl⟩ <;> cases r <;>
      simp [Scan.operand, register, Operand.text, Register.text]
  | imm value | lastPos | remaining =>
    rcases h with rfl | ⟨t, rfl⟩ <;> simp [Scan.operand, Operand.text]

@[simp]
theorem comparison_text (comparison : Comparison) (s : List Char) :
    Scan.comparison (comparison.text.toList ++ ' ' :: s) = some (comparison, ' ' :: s) := by
  cases comparison <;> simp [Scan.comparison, Comparison.text]

@[simp]
theorem equality_text (expected : Bool) (s : List Char) :
    equality ((equalityText expected).toList ++ s) = some (expected, s) := by
  cases expected <;> simp [equality, equalityText]

@[simp]
theorem offset_text (offset : Int) (s : List Char) :
    Scan.offset ((offsetText offset).toList ++ ']' :: s) = some (offset, ']' :: s) := by
  unfold offsetText
  split_ifs with hzero hneg
  · simp [Scan.offset, hzero]
  · obtain ⟨n, rfl⟩ : ∃ n : Nat, offset = -n := ⟨offset.natAbs, by omega⟩
    simp [Scan.offset]
  · obtain ⟨n, rfl⟩ : ∃ n : Nat, offset = n := ⟨offset.natAbs, by omega⟩
    simp [Scan.offset]

@[simp]
theorem quoted_text (bytes : List UInt8) (s : List Char) :
    quoted ((Quoted.text bytes).toList ++ s) = some (bytes, s) := by
  rw [Quoted.text, String.toList_ofList]
  exact Quoted.decode?_encode bytes s

/-- **A condition is read back** in front of the target of a branch. -/
@[simp]
theorem condition_text (condition : Condition) (s : List Char) :
    Scan.condition (condition.text.toList ++ ' ' :: 'g' :: s) =
      some (condition, ' ' :: 'g' :: s) := by
  unfold Condition.text
  cases condition with
  | register r comparison operand =>
    have hoperand := operand_text operand (.inr ⟨s, rfl⟩)
    cases r <;> simp [Scan.condition, register, Register.text, hoperand]
  | count group comparison value => simp [Scan.condition, node]
  | literal bytes expected | newline offset expected => simp [Scan.condition]

/-! ## Lines -/

theorem toList_loop (bytes : ByteArray) (i : Nat) (read : List UInt8) :
    ByteArray.toList.loop bytes i read = read.reverse ++ bytes.data.toList.drop i := by
  fun_induction ByteArray.toList.loop bytes i read with
  | case1 i read hi ih =>
    have hlt : i < bytes.data.toList.length := by rwa [Array.length_toList]
    have hget : bytes.get! i = bytes.data.toList[i] := getElem!_pos bytes.data i hi
    rw [ih, List.drop_eq_getElem_cons hlt, hget]
    simp
  | case2 i read hi =>
    have hle : bytes.data.toList.length ≤ i := by
      rw [Array.length_toList]
      exact Nat.le_of_not_lt hi
    rw [List.drop_of_length_le hle, List.append_nil]

/-- The message of bytes that are those of a text. -/
theorem fromUTF8?_toByteArray (message : String) :
    String.fromUTF8? ⟨message.toByteArray.toList.toArray⟩ = some message := by
  have hbytes : message.toByteArray.toList = message.toByteArray.data.toList :=
    toList_loop message.toByteArray 0 []
  simp only [hbytes, String.fromUTF8?, Array.toArray_toList, dif_pos message.isValidUTF8]
  rfl

/-- How the line begins that defines a label. -/
def labelled (label : Label) : String :=
  (if label.isInner then "  " else "") ++ label.text ++ ":"

theorem indent_labelled (label : Label) (s : List Char) :
    indent ((labelled label).toList ++ s) = some ((), label.text.toList ++ ':' :: s) := by
  unfold labelled Label.isInner
  cases label <;> simp [indent, Label.text]

/-- The line that defines a label is indented less than other instructions are, if at all. -/
theorem instruction_labelled (label : Label) (s : List Char) :
    instruction ((labelled label).toList ++ s) = block ((labelled label).toList ++ s) := by
  unfold labelled Label.isInner
  cases label <;> simp [instruction, Label.text]

theorem block_labelled (label : Label) (s : List Char) :
    block ((labelled label).toList ++ s) =
      oneOf [
        ("# ", return .block label (some (← remaining))),
        ("", pure (.block label none))] (s.dropWhile (· == ' ')) := by
  simp [block, indent_labelled, label_text label (.inr ⟨s, rfl⟩), spaces]

/-- The line that defines a label is read back. -/
theorem instruction_blockText (label : Label) (comment : Option String) :
    instruction (Instruction.blockText label comment).toList =
      some (.block label comment, []) := by
  cases comment with
  | none =>
    have hblock := (instruction_labelled label []).trans (block_labelled label [])
    rw [List.append_nil] at hblock
    exact hblock.trans (by simp)
  | some comment =>
    -- the spaces that fill the column are followed by the comment
    obtain ⟨k, hk⟩ : ∃ k, (Instruction.blockText label (some comment)).toList =
        (labelled label).toList ++ (List.replicate k ' ' ++ '#' :: ' ' :: comment.toList) := by
      refine ⟨35 - (labelled label).length, ?_⟩
      rw [show Instruction.blockText label (some comment) =
        Instruction.padded (labelled label) ++ "# " ++ comment from rfl]
      simp [Instruction.padded]
    have hdrop : (List.replicate k ' ' ++ '#' :: ' ' :: comment.toList).dropWhile (· == ' ') =
        '#' :: ' ' :: comment.toList := by
      rw [List.dropWhile_append_of_pos (by simp)]
      rfl
    rw [hk, instruction_labelled, block_labelled, hdrop]
    simp [remaining]

/-- **Every instruction is read back from its line.** -/
theorem instruction_text (i : Instruction) : instruction i.text.toList = some (i, []) := by
  have hlabel : ∀ label : Label, Scan.label label.text.toList = some (label, []) := fun label => by
    simpa using label_text label (.inl rfl)
  have hoperand : ∀ operand : Operand, Scan.operand operand.text.toList = some (operand, []) :=
    fun operand => by simpa using operand_text operand (.inl rfl)
  have hquoted : ∀ bytes, quoted (Quoted.text bytes).toList = some (bytes, []) :=
    fun bytes => by simpa using quoted_text bytes []
  cases i with
  | block label comment => exact instruction_blockText label comment
  | set r operand =>
    cases r <;> simp [Instruction.text, instruction, assignment, register, Register.text, hoperand]
  | add r operand | sub r operand =>
    by_cases hone : operand = .imm 1
    · cases r <;> simp [Instruction.text, instruction, hone, register, Register.text]
    · cases r <;>
        simp [Instruction.text, instruction, assignment, register, Register.text, hone, hoperand]
  | branch condition target => simp [Instruction.text, instruction, hlabel]
  | goto target | call target => simp [Instruction.text, instruction, hlabel]
  | ret | yield | exhausted => simp [Instruction.text, instruction]
  | enter group capturing =>
    cases capturing <;>
      simp [Instruction.text, Instruction.counterText, Instruction.recordText, instruction,
        entrance, node]
  | leave group | countUp group | countDown group | pushPos group | popPos group =>
    simp [Instruction.text, Instruction.counterText, Instruction.recordText, instruction, named,
      node]
  | trace message =>
    simp [Instruction.text, instruction, Scan.message, hquoted, fromUTF8?_toByteArray]

end Scan

/-- **The text of an instruction is unambiguous.**  Two instructions have the same text only if they
are the same, and so have two labels; a line of a listing can be read back. -/
theorem instruction_texts_unambiguous :
    (∀ i j : Instruction, i.text = j.text ↔ i = j) ∧
    (∀ label other : Label, label.text = other.text ↔ label = other) ∧
    ∀ i : Instruction, Scan.instruction i.text.toList = some (i, []) := by
  refine ⟨fun i j => ⟨fun h => ?_, fun h => by rw [h]⟩,
    fun label other => ⟨fun h => ?_, fun h => by rw [h]⟩, Scan.instruction_text⟩
  · have hread := Scan.instruction_text i
    rw [h, Scan.instruction_text j] at hread
    cases hread
    rfl
  · have hread := Scan.label_text label (.inl rfl)
    rw [h, Scan.label_text other (.inl rfl)] at hread
    cases hread
    rfl

/-- A message that holds a quote, a comparison that begins like another one, and a comment. -/
example :
    Scan.instruction "    trace \"a\\\" goto fail\"".toList =
      some (.trace "a\" goto fail", []) ∧
    Scan.instruction "    if gr_rep[3] <= 12 goto R3_repeat_fail".toList =
      some (.branch (.count 3 .le 12) (.againFail 3), []) ∧
    Scan.instruction "  R3_1:   # goto R4".toList =
      some (.block (.inner 3 1) (some "goto R4"), []) := by
  decide

end PatternMachine
