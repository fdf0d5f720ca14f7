import PatternMachine.Journal
import PatternMachine.Search.Step

/-!
# Searching

* `Limits` — the steps that one answer may take, and the calls that may be pending.
* `Cursor.run` — a number of steps.
* `Cursor.next?` — the answer to the question for the next match.
* `Search` — a program and a subject with a cursor; `Search.collect?` — a number of matches.
* `Search.journal` — what the traced program tells on the way to the next answer.

Without a limit on steps a search may go on for ever. So the number of steps that one is ready to
wait for is an argument, called `patience`, and there may be no answer within it.

Main statements: `run_add` splits a run in two, and `run_halted_mono` says that more steps do not
change an answer.
-/

set_option autoImplicit false

namespace PatternMachine

/-- The limits of a search. Each is off when absent. -/
structure Limits where
  /-- The number of steps for one answer. -/
  fuel : Option UInt32 := none
  /-- The number of pending calls. -/
  depth : Option UInt32 := none
  deriving DecidableEq, Repr

namespace Cursor

/-- Carries out a number of instructions, or fewer if the search halts before. -/
def run (p : Program) (subject : Subject) (depth : Option UInt32) : Nat → Cursor → Step
  | 0, c => .running c
  | n + 1, c =>
    match c.step p subject depth with
    | .running c => run p subject depth n c
    | .halted c answer => .halted c answer

/-- Where the search for the next match begins: at the start of the program if the search is fresh,
and where it stopped if it is suspended. An exhausted search has its answer already. -/
def begin (p : Program) (c : Cursor) : Step :=
  match c.stage with
  | .exhausted => .halted c .exhausted
  | .suspended => .running c
  | .fresh =>
    match p.resolve? .search with
    | some ip => .running { c with ip := ip, registers := .zero }
    | none => .halted c (.failed (.invalidJump nowhere))

/-- The answer to the question for the next match and the cursor after it; nothing if no limit ends
a search that takes more steps than `patience`. -/
def next? (p : Program) (subject : Subject) (limits : Limits) (patience : Nat) (c : Cursor) :
    Option (Answer × Cursor) :=
  match c.begin p with
  | .halted c answer => some (answer, c)
  | .running c =>
    match limits.fuel with
    | some fuel =>
      match c.run p subject limits.depth fuel.toNat with
      | .halted c answer => some (answer, c)
      | .running c => some (.failed (.fuelExhausted fuel), { c with stage := .exhausted })
    | none =>
      match c.run p subject limits.depth patience with
      | .halted c answer => some (answer, c)
      | .running _ => none

theorem run_add (p : Program) (subject : Subject) (depth : Option UInt32) (m n : Nat)
    (c : Cursor) :
    c.run p subject depth (m + n) =
      match c.run p subject depth m with
      | .running c => c.run p subject depth n
      | .halted c answer => .halted c answer := by
  induction m generalizing c with
  | zero => simp [run]
  | succ m ih =>
    rw [Nat.succ_add]
    simp only [run]
    cases c.step p subject depth with
    | running c => exact ih c
    | halted c answer => rfl

/-- A search that halts within some steps halts alike within more. -/
theorem run_halted_mono {p : Program} {subject : Subject} {depth : Option UInt32} {m n : Nat}
    {c d : Cursor} {answer : Answer} (hmn : m ≤ n)
    (h : c.run p subject depth m = .halted d answer) :
    c.run p subject depth n = .halted d answer := by
  obtain ⟨k, rfl⟩ := Nat.exists_eq_add_of_le hmn
  rw [run_add, h]

/-- More patience does not change an answer. -/
theorem next?_mono {p : Program} {subject : Subject} {limits : Limits} {m n : Nat} {c : Cursor}
    {r : Answer × Cursor} (hmn : m ≤ n) (h : c.next? p subject limits m = some r) :
    c.next? p subject limits n = some r := by
  unfold next? at h ⊢
  cases hb : c.begin p with
  | halted d answer => simpa only [hb] using h
  | running d =>
    simp only [hb] at h ⊢
    cases hf : limits.fuel with
    | some fuel => simpa only [hf] using h
    | none =>
      simp only [hf] at h ⊢
      cases hr : d.run p subject limits.depth m with
      | running e => simp [hr] at h
      | halted e answer =>
        rw [run_halted_mono hmn hr]
        simpa only [hr] using h

/-- The message of the next instruction. -/
def message? (p : Program) (c : Cursor) : Option Message :=
  match p.code[c.ip]? with
  | some (.trace text) => some ⟨.trace, text ++ " at " ++ toString c.position⟩
  | _ => none

/-- The messages of a number of steps, behind those that there are. -/
def runJournal (p : Program) (subject : Subject) (depth : Option UInt32) :
    Nat → Array Message → Cursor → Array Message
  | 0, messages, _ => messages
  | n + 1, messages, c =>
    let messages := match c.message? p with
      | some message => messages.push message
      | none => messages
    match c.step p subject depth with
    | .running c => runJournal p subject depth n messages c
    | .halted _ _ => messages

end Cursor

/-- A program, the bytes that it searches, and where it stands. -/
structure Search where
  program : Program
  subject : Subject
  limits : Limits
  cursor : Cursor

/-- How the reading of several matches ends. -/
inductive Stop where
  /-- There is no further match. -/
  | exhausted
  /-- As many matches as asked for have been read. -/
  | limit
  | failed (error : RuntimeError)
  deriving DecidableEq, Repr

namespace Search

/-- A search that has not begun. -/
def new (program : Program) (subject : Subject) (limits : Limits) : Search :=
  ⟨program, subject, limits, .new⟩

/-- The next match, if there is one, and the search after it. -/
def next? (patience : Nat) : Search → Option (Answer × Search)
  | ⟨program, subject, limits, cursor⟩ =>
    match cursor.next? program subject limits patience with
    | some (answer, cursor) => some (answer, ⟨program, subject, limits, cursor⟩)
    | none => none

/-- Up to `limit` further matches behind those that there are, how their reading ends, and the
search after them. -/
def collect? (patience : Nat) : (limit : Nat) → Array Match → Search →
    Option (Array Match × Stop × Search)
  | 0, found, s => some (found, .limit, s)
  | limit + 1, found, s =>
    match s.next? patience with
    | some (.found m, s) => collect? patience limit (found.push m) s
    | some (.exhausted, s) => some (found, .exhausted, s)
    | some (.failed e, s) => some (found, .failed e, s)
    | none => none

/-- What the program tells on the way to the next answer. -/
def journal (patience : Nat) (s : Search) : Array Message :=
  match s.cursor.begin s.program with
  | .halted _ _ => #[]
  | .running c =>
    c.runJournal s.program s.subject s.limits.depth
      (match s.limits.fuel with
        | some fuel => fuel.toNat
        | none => patience) #[]

/-- What the program tells on the way to up to `limit` further answers, behind what there is. -/
def collectJournal (patience : Nat) : (limit : Nat) → Array Message → Search → Array Message
  | 0, messages, _ => messages
  | limit + 1, messages, s =>
    let messages := messages ++ s.journal patience
    match s.next? patience with
    | some (.found _, s) => collectJournal patience limit messages s
    | _ => messages

end Search

end PatternMachine
