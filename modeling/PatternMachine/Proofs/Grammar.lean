import PatternMachine.Syntax.Reader
import Mathlib.Algebra.Group.Nat.Defs
import Mathlib.Data.List.Forall2

/-!
# The grammar of pattern texts

Which texts are patterns, and of which trees, is told without tokens and without a stack.  Every
nonterminal is a relation between a text and what is left of it behind a phrase; so a phrase may
depend on the character that follows it.

* `Trivia`, `Number`, `Bounds`, `Literal`, `Position` — what is spelled by characters alone.
* `Merges`, `rightNested` — how the items of a sequence become one tree.
* `Choice`, `Sequence`, `Item`, `Repeatable` — the phrases, with the trees that they stand for and
  the number of the next capture before and behind them.
* `Derives` — a whole text.

Trees are compared without the numbers of their nodes (`Pattern.unnumbered`).
-/

set_option autoImplicit false

namespace PatternMachine

/-- The tree without the numbers of its nodes. -/
def Pattern.unnumbered : Pattern → Pattern
  | .empty _ => .empty 0
  | .endMarker _ => .endMarker 0
  | .wildcard _ q => .wildcard 0 q
  | .literal _ bytes q => .literal 0 bytes q
  | .concat _ first second => .concat 0 first.unnumbered second.unnumbered
  | .alternation _ first second => .alternation 0 first.unnumbered second.unnumbered
  | .group _ body capture q => .group 0 body.unnumbered capture q
  | .anchor _ kind => .anchor 0 kind

namespace Grammar

/-! ## Characters -/

/-- What does not count in Perl 6 rules: blanks, and comments up to the end of a line or of the
text. -/
inductive Trivia : Dialect → List Char → List Char → Prop
  | none {d : Dialect} {cs : List Char} : Trivia d cs cs
  | blank {c : Char} {cs rest : List Char} (hc : isBlank c = true) (h : Trivia .perl6 cs rest) :
      Trivia .perl6 (c :: cs) rest
  | comment {comment cs rest : List Char} (hline : '\n' ∉ comment) (h : Trivia .perl6 cs rest) :
      Trivia .perl6 ('#' :: (comment ++ '\n' :: cs)) rest
  | lastComment {comment : List Char} (hline : '\n' ∉ comment) :
      Trivia .perl6 ('#' :: comment) []

/-- A number: one decimal digit or more, with a value that fits 32 bits. -/
inductive Number : UInt32 → List Char → List Char → Prop
  | mk {digits rest : List Char} (hne : digits ≠ []) (hdigits : ∀ c ∈ digits, c.isDigit = true)
      (hlt : Unread.decimalValue digits < 2 ^ 32) :
      Number (UInt32.ofNat (Unread.decimalValue digits)) (digits ++ rest) rest

/-- What stands between the braces of a repetition: `n`, `n,` and `n,m` in Perl 5 patterns, `n`,
`n..*` and `n..m` in Perl 6 rules. -/
inductive Counts : Dialect → Quantifier → List Char → List Char → Prop
  | exactly {d : Dialect} {n : UInt32} {cs rest : List Char} (h : Number n cs rest) :
      Counts d ⟨n, .finite n, true⟩ cs rest
  | comma {n : UInt32} {cs rest : List Char} (h : Number n cs (',' :: rest)) :
      Counts .perl5 ⟨n, .unbounded, true⟩ cs rest
  | commaUpTo {n m : UInt32} {cs mid rest : List Char} (h : Number n cs (',' :: mid))
      (h' : Number m mid rest) (hle : n ≤ m) : Counts .perl5 ⟨n, .finite m, true⟩ cs rest
  | dots {n : UInt32} {cs rest : List Char} (h : Number n cs ('.' :: '.' :: '*' :: rest)) :
      Counts .perl6 ⟨n, .unbounded, true⟩ cs rest
  | dotsUpTo {n m : UInt32} {cs mid rest : List Char} (h : Number n cs ('.' :: '.' :: mid))
      (h' : Number m mid rest) (hle : n ≤ m) : Counts .perl6 ⟨n, .finite m, true⟩ cs rest

/-- How often a unit is repeated: `*`, `+` and `?`, and braces, which follow two stars in Perl 6
rules. -/
inductive Bounds : Dialect → Quantifier → List Char → List Char → Prop
  | star {d : Dialect} {rest : List Char} : Bounds d ⟨0, .unbounded, true⟩ ('*' :: rest) rest
  | plus {d : Dialect} {rest : List Char} : Bounds d ⟨1, .unbounded, true⟩ ('+' :: rest) rest
  | optional {d : Dialect} {rest : List Char} :
      Bounds d ⟨0, .finite 1, true⟩ ('?' :: rest) rest
  | braces {q : Quantifier} {cs rest : List Char} (h : Counts .perl5 q cs ('\x7d' :: rest)) :
      Bounds .perl5 q ('\x7b' :: cs) rest
  | starredBraces {q : Quantifier} {cs mid rest : List Char}
      (htrivia : Trivia .perl6 cs ('\x7b' :: mid)) (h : Counts .perl6 q mid ('\x7d' :: rest)) :
      Bounds .perl6 q ('*' :: '*' :: cs) rest

/-- A repetition, lazy if a question mark follows its bounds at once. -/
inductive Repetition (d : Dialect) : Quantifier → List Char → List Char → Prop
  | greedy {q : Quantifier} {cs rest : List Char} (h : Bounds d q cs rest) : Repetition d q cs rest
  | lazy {q : Quantifier} {cs rest : List Char} (h : Bounds d q cs ('?' :: rest)) :
      Repetition d q.toLazy cs rest

/-- The characters that do not stand for themselves. -/
def specials : Dialect → List Char
  | .perl5 => ['|', '(', ')', '[', '\x7b', '.', '^', '$', '\\', '*', '+', '?']
  | .perl6 => ['|', '(', ')', '[', ']', '.', '^', '$', '\\', '*', '+', '?', '\'', '#']

/-- A character that stands for itself. -/
structure Ordinary (d : Dialect) (c : Char) : Prop where
  not_special : c ∉ specials d
  not_blank : d = .perl6 → isBlank c = false

/-- The text of a quoted literal behind its opening quote: a backslash takes the next character as
it is. -/
inductive Quoted : List Char → List Char → List Char → Prop
  | close {rest : List Char} : Quoted [] ('\'' :: rest) rest
  | char {c : Char} {text cs rest : List Char} (hquote : c ≠ '\'') (hslash : c ≠ '\\')
      (h : Quoted text cs rest) : Quoted (c :: text) (c :: cs) rest
  | escaped {c : Char} {text cs rest : List Char} (h : Quoted text cs rest) :
      Quoted (c :: text) ('\\' :: c :: cs) rest

/-- A literal: a character, an escaped character, or in Perl 6 rules a quoted text that is not
empty. -/
inductive Literal : Dialect → List UInt8 → List Char → List Char → Prop
  | char {d : Dialect} {c : Char} {rest : List Char} (hc : Ordinary d c) :
      Literal d (String.utf8EncodeChar c) (c :: rest) rest
  | newline {d : Dialect} {rest : List Char} : Literal d [10] ('\\' :: 'n' :: rest) rest
  | tab {d : Dialect} {rest : List Char} : Literal d [9] ('\\' :: 't' :: rest) rest
  | carriageReturn {d : Dialect} {rest : List Char} : Literal d [13] ('\\' :: 'r' :: rest) rest
  | zero {d : Dialect} {rest : List Char} : Literal d [0] ('\\' :: '0' :: rest) rest
  | escaped {d : Dialect} {c : Char} {rest : List Char} (hc : c.isAlphanum = false) :
      Literal d (String.utf8EncodeChar c) ('\\' :: c :: rest) rest
  | quoted {text cs rest : List Char} (hne : text ≠ []) (h : Quoted text cs rest) :
      Literal .perl6 (text.flatMap String.utf8EncodeChar) ('\'' :: cs) rest

/-- An anchor. In Perl 6 rules two equal signs are one anchor. -/
inductive Position : Dialect → Anchor → List Char → List Char → Prop
  | start {d : Dialect} {rest : List Char} (h : d = .perl6 → rest.head? ≠ some '^') :
      Position d .start ('^' :: rest) rest
  | finish {d : Dialect} {rest : List Char} (h : d = .perl6 → rest.head? ≠ some '$') :
      Position d .finish ('$' :: rest) rest
  | startLetter {rest : List Char} : Position .perl5 .start ('\\' :: 'A' :: rest) rest
  | finishLetter {rest : List Char} : Position .perl5 .finish ('\\' :: 'z' :: rest) rest
  | lineStart {rest : List Char} : Position .perl6 .lineStart ('^' :: '^' :: rest) rest
  | lineEnd {rest : List Char} : Position .perl6 .lineEnd ('$' :: '$' :: rest) rest

/-! ## Phrases -/

/-- Every longest run of literals that are matched once becomes one literal. It keeps the quantifier
of the first of them; all other items stay as they are. -/
inductive Merges : List Pattern → List Pattern → Prop
  | nil : Merges [] []
  | item {p : Pattern} {ps merged : List Pattern} (hp : p.onceLiteral? = none)
      (h : Merges ps merged) : Merges (p :: ps) (p :: merged)
  | run {id : NodeId} {bytes : List UInt8} {q : Quantifier} {run ps merged : List Pattern}
      {more : List (List UInt8)} (hq : q.isOnce = true)
      (hrun : List.Forall₂ (fun p bytes => p.onceLiteral? = some bytes) run more)
      (hend : ∀ p ∈ ps.head?, p.onceLiteral? = none) (h : Merges ps merged) :
      Merges (.literal id bytes q :: (run ++ ps)) (.literal id (bytes ++ more.flatten) q :: merged)

/-- A sequence nested to the right; the empty one matches the empty text. -/
def rightNested : List Pattern → Pattern
  | [] => .empty 0
  | [p] => p
  | p :: q :: ps => .concat 0 p (rightNested (q :: ps))

mutual

/-- One sequence or more, with bars between them. -/
inductive Choice (d : Dialect) : Nat → List Char → Pattern → Nat → List Char → Prop
  | last {n m : Nat} {cs rest : List Char} {items merged : List Pattern}
      (h : Sequence d n cs items m rest) (hmerges : Merges items merged) :
      Choice d n cs (rightNested merged) m rest
  | bar {n m k : Nat} {cs mid rest : List Char} {items merged : List Pattern} {tree : Pattern}
      (h : Sequence d n cs items m ('|' :: mid)) (hmerges : Merges items merged)
      (h' : Choice d m mid tree k rest) :
      Choice d n cs (.alternation 0 (rightNested merged) tree) k rest

/-- Any number of items. -/
inductive Sequence (d : Dialect) : Nat → List Char → List Pattern → Nat → List Char → Prop
  | nil {n : Nat} {cs rest : List Char} (h : Trivia d cs rest) : Sequence d n cs [] n rest
  | cons {n m k : Nat} {cs cs' mid rest : List Char} {item : Pattern} {items : List Pattern}
      (htrivia : Trivia d cs cs') (h : Item d n cs' item m mid)
      (h' : Sequence d m mid items k rest) : Sequence d n cs (item :: items) k rest

/-- An anchor, an empty quoted literal, or something that can be repeated. -/
inductive Item (d : Dialect) : Nat → List Char → Pattern → Nat → List Char → Prop
  | anchor {n : Nat} {cs rest : List Char} {kind : Anchor} (h : Position d kind cs rest) :
      Item d n cs (.anchor 0 kind) n rest
  | empty {n : Nat} {rest : List Char} (hd : d = .perl6) :
      Item d n ('\'' :: '\'' :: rest) (.empty 0) n rest
  | once {n m : Nat} {cs rest : List Char} {unit : Pattern} (h : Repeatable d n cs unit m rest) :
      Item d n cs unit m rest
  | repeated {n m : Nat} {cs mid mid' rest : List Char} {unit item : Pattern} {q : Quantifier}
      (h : Repeatable d n cs unit m mid) (htrivia : Trivia d mid mid')
      (hq : Repetition d q mid' rest) (hitem : unit.withQuantifier? q = some item) :
      Item d n cs item m rest

/-- A wildcard, a literal or a group, matched once. -/
inductive Repeatable (d : Dialect) : Nat → List Char → Pattern → Nat → List Char → Prop
  | wildcard {n : Nat} {rest : List Char} :
      Repeatable d n ('.' :: rest) (.wildcard 0 .once) n rest
  | literal {n : Nat} {cs rest : List Char} {bytes : List UInt8} (h : Literal d bytes cs rest) :
      Repeatable d n cs (.literal 0 bytes .once) n rest
  | capturing {n m : Nat} {cs rest : List Char} {body : Pattern}
      (h : Choice d (n + 1) cs body m (')' :: rest)) :
      Repeatable d n ('(' :: cs) (.group 0 body (some (UInt32.ofNat n)) .once) m rest
  | grouping {n m : Nat} {cs rest : List Char} {body : Pattern} (hd : d = .perl5)
      (h : Choice d n cs body m (')' :: rest)) :
      Repeatable d n ('(' :: '?' :: ':' :: cs) (.group 0 body none .once) m rest
  | bracketed {n m : Nat} {cs rest : List Char} {body : Pattern} (hd : d = .perl6)
      (h : Choice d n cs body m (']' :: rest)) :
      Repeatable d n ('[' :: cs) (.group 0 body none .once) m rest

end

/-- A text stands for a tree: it is a choice from its beginning to its end. Captures are numbered
from 1 in the order of their opening parentheses. -/
def Derives (d : Dialect) (cs : List Char) (tree : Pattern) : Prop :=
  ∃ captures, Choice d 1 cs tree captures []

end Grammar

end PatternMachine
