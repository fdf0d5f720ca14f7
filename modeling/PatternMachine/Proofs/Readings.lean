import PatternMachine.Compilation.Text
import PatternMachine.Proofs.Acceptance
import PatternMachine.Proofs.Drafting

/-!
# What is read can be compiled

* `Reader.Readings` — what a reader has read, in any number of readings, between which it may have
  been moved, within its text or to another one.

Principal results: `Reader.Placed.outcome` — what one reading hands out.  `Reader.Readings.issued` —
what all of them have handed out.  `compile_error_of_regular` — regular trees with distinct numbers,
around which there are numbers left, are refused only for a long literal or for repeating the empty
text for ever.  `read_trees_numbered` — so all this holds of what is read.
-/

set_option autoImplicit false

namespace PatternMachine

/-! ## Readings -/

namespace Reader

/-- What readings one after the other have come to: how many there were, how many bytes they have
passed together, and the trees that they have returned. Between them a reader can be moved, to
another place of its text or to another text. -/
inductive Readings : Reader → (count bytes : Nat) → (trees : List Pattern) → Prop
  | new (dialect : Dialect) (text : String) : Readings (Reader.new dialect text) 0 0 []
  | move {r : Reader} {count bytes : Nat} {trees : List Pattern}
      (h : Readings r count bytes trees) (text : String) (offset : Nat)
      (hplaced : Reader.Placed { r with text, offset }) :
      Readings { r with text, offset } count bytes trees
  | read {r : Reader} {count bytes : Nat} {trees : List Pattern}
      (h : Readings r count bytes trees) :
      Readings r.read.2 (count + 1) (bytes + (r.read.2.offset - r.offset))
        (trees ++ r.read.1.toOption.toList)

variable {r : Reader} {count bytes : Nat} {trees : List Pattern} {taken : List NodeId}

/-- **What one reading hands out**: the numbers of the tree that it returns, if it returns one, and
altogether at most two for every byte that it passes, and one more. -/
theorem Placed.outcome (h : r.Placed) (hissued : Issued r.supply.nextId taken) :
    Issued r.read.2.supply.nextId (taken ++ r.read.1.toOption.toList.flatMap Pattern.ids) ∧
      (∀ tree ∈ r.read.1.toOption.toList, tree.AllRegular) ∧
      r.read.2.supply.nextId ≤ r.supply.nextId + (2 * (r.read.2.offset - r.offset) + 1) := by
  have hstart : r.unread.offset = r.offset := h
  have houtcome := (Draft.sound_new hissued rfl).read (d := r.dialect) (f := false) (u := r.unread)
  rw [Draft.cost_new] at houtcome
  have hback := h.read.2.1
  rw [read_eq] at hback ⊢
  cases hread : (Draft.new r.supply).read r.dialect false r.unread with
  | error e =>
    rw [hread] at houtcome hback
    obtain ⟨htaken, hcost⟩ := houtcome
    refine ⟨by simpa [Except.toOption] using htaken, nofun, ?_⟩
    simp only at hback ⊢
    omega
  | ok p =>
    rw [hread] at houtcome hback
    obtain ⟨htaken, hregular, -, hcost⟩ := houtcome
    refine ⟨by simpa [Except.toOption] using htaken, ?_, ?_⟩
    · intro tree htree
      rw [List.mem_singleton.mp htree]
      exact hregular
    · simp only at hback ⊢
      omega

theorem Readings.placed (h : r.Readings count bytes trees) : r.Placed := by
  induction h with
  | new dialect text => exact placed_new dialect text
  | move _ _ _ hplaced _ => exact hplaced
  | read _ ih => exact ih.read.1

/-- **What all readings have handed out.** Number 0 is never handed out, so it counts as taken. -/
theorem Readings.issued (h : r.Readings count bytes trees) :
    Issued r.supply.nextId (0 :: trees.flatMap Pattern.ids) ∧
      (∀ tree ∈ trees, tree.AllRegular) ∧ r.supply.nextId ≤ 2 * bytes + count + 1 := by
  induction h with
  | new dialect text => exact ⟨.refl _, nofun, Nat.le_refl _⟩
  | move _ _ _ _ ih => exact ih
  | read h ih =>
    obtain ⟨hissued, hregular, hcost⟩ := ih
    obtain ⟨hissued', hregular', hcost'⟩ := h.placed.outcome hissued
    refine ⟨by simpa using hissued', ?_, by omega⟩
    intro tree htree
    rcases List.mem_append.mp htree with htree | htree
    · exact hregular tree htree
    · exact hregular' tree htree

end Reader

/-! ## Captures -/

/-- There are no more captures than nodes. -/
theorem Pattern.length_captures_le (tree : Pattern) : tree.captures.length ≤ tree.ids.length := by
  rw [captures, ids, List.length_map]
  exact List.length_filterMap_le _ _

/-- The captures of a whole text are numbered from 1 on in the order of their openings. -/
theorem captures_of_parse {d : Dialect} {text : String} {tree : Pattern}
    (hparse : parse d text = .ok tree) :
    ∃ k, tree.captures = (List.range' 1 k).map UInt32.ofNat := by
  have hsound : (Draft.new (Reader.new d text).supply).Sound [] [0] :=
    Draft.sound_new (List.nil_subperm) rfl
  have houtcome := hsound.read (d := (Reader.new d text).dialect) (f := false)
    (u := (Reader.new d text).unread)
  rw [parse, Reader.read_eq] at hparse
  cases hread : (Draft.new (Reader.new d text).supply).read (Reader.new d text).dialect false
    (Reader.new d text).unread with
  | error e =>
    rw [hread] at hparse
    cases hparse
  | ok p =>
    rw [hread] at hparse houtcome
    cases hparse
    obtain ⟨-, -, hcaptures, -⟩ := houtcome
    cases hnext : p.2.nextCapture with
    | zero => simp [hnext] at hcaptures
    | succ k =>
      rw [hnext, List.range_eq_range', List.range'_succ] at hcaptures
      exact ⟨k, (List.cons.inj hcaptures).2⟩

/-! ## Compiling what was read -/

theorem Pattern.Regular.isValid {n : Pattern} {q : Quantifier} (h : n.Regular)
    (hq : n.quantifier? = some q) : q.isValid = true := by
  cases n with
  | wildcard id r =>
    cases hq
    exact h
  | literal id bytes r =>
    cases hq
    exact h.2
  | group id body capture r =>
    cases hq
    exact h
  | _ => cases hq

/-- **What can be wrong with a regular tree**: a literal is longer than allowed, or a group that can
match the empty text is repeated without a maximum. -/
theorem compile_error_of_regular {tree : Pattern} {options : CompileOptions} {error : CompileError}
    (hnodup : tree.ids.Nodup) (hregular : tree.AllRegular)
    (hroom : tree.maxId.toNat + 5 < 2 ^ 32) (h : compile tree options = .error error) :
    (∃ id length, error = .fault (.literalTooLong id length options.maxLiteral)) ∨
      ∃ id, error = .fault (.emptyRepetition id) := by
  rcases compile_cases tree options with
    ⟨fault, hfault, hcompile⟩ | ⟨-, hroot, -⟩ | ⟨-, -, program, hcompile⟩
  · rw [hcompile] at h
    cases h
    have hfirst : FirstViolation options.maxLiteral [] tree.visit fault :=
      (firstFaultOf?_eq_some_iff (by simp)).mp hfault
    obtain ⟨before, n, after, hvisit, -, hviolates, -⟩ := hfirst
    have hn : n.Regular :=
      hregular n (Pattern.mem_visit.mp (by rw [hvisit]; exact List.mem_append_right _ (.head _)))
    rw [List.nil_append] at hviolates
    cases hviolates with
    | duplicateId hmet =>
      have hvisited := (tree.visit_perm_nodes.map Pattern.id).nodup_iff.mpr hnodup
      rw [hvisit, List.map_append, List.nodup_append] at hvisited
      exact absurd rfl (hvisited.2.2 _ hmet _ List.mem_cons_self)
    | emptyLiteral => exact absurd rfl hn.1
    | literalTooLong hlength => exact .inl ⟨_, _, rfl⟩
    | emptyRepetition hmax hempty => exact .inr ⟨_, rfl⟩
    | @invertedBounds _ q max hq hmax hlt =>
      have hvalid := hn.isValid hq
      simp only [Quantifier.isValid, hmax, decide_eq_true_eq] at hvalid
      exact absurd hlt (UInt32.not_lt.mpr hvalid)
  · rw [wrapped?_eq_none_iff] at hroot
    have hsize : tree.wrapperSize ≤ 5 := by
      unfold Pattern.wrapperSize
      split <;> omega
    exact absurd (Nat.lt_of_le_of_lt (Nat.add_le_add_left hsize _) hroom) hroot
  · rw [hcompile] at h
    cases h

/-- What is to be expected of a tree that was read: it holds no end marker and no literal without a
byte, no minimum exceeds a maximum, and there is a program for it unless a literal is longer than
allowed or the empty text is repeated without a maximum. -/
structure Pattern.Sensible (tree : Pattern) : Prop where
  unmarked : ∀ id, .endMarker id ∉ tree.nodes
  literals : ∀ id q, .literal id [] q ∉ tree.nodes
  bounds : ∀ n ∈ tree.nodes, ∀ q, n.quantifier? = some q →
    q.max = .unbounded ∨ ∃ max, q.max = .finite max ∧ q.min ≤ max
  compiles : ∀ options error, compile tree options = .error error →
    (∃ id length, error = .fault (.literalTooLong id length options.maxLiteral)) ∨
      ∃ id, error = .fault (.emptyRepetition id)

theorem sensible_of_regular {tree : Pattern} (hnodup : tree.ids.Nodup)
    (hregular : tree.AllRegular) (hroom : tree.maxId.toNat + 5 < 2 ^ 32) : tree.Sensible where
  unmarked id hmem := hregular _ hmem
  literals id q hmem := (hregular _ hmem).1 rfl
  bounds n hn q hq := by
    have hvalid := (hregular n hn).isValid hq
    cases hmax : q.max with
    | unbounded => exact .inl rfl
    | finite max =>
      simp only [Quantifier.isValid, hmax, decide_eq_true_eq] at hvalid
      exact .inr ⟨max, rfl, hvalid⟩
  compiles _ _ := compile_error_of_regular hnodup hregular hroom

/-- What all readings have returned is sensible, if the numbers fit into 32 bits. -/
theorem Reader.Readings.sensible {r : Reader} {count bytes : Nat} {trees : List Pattern}
    (h : r.Readings count bytes trees) (hroom : r.supply.nextId + 5 < 2 ^ 32) :
    ∀ tree ∈ trees, tree.Sensible := by
  obtain ⟨hissued, hregular, -⟩ := h.issued
  intro tree htree
  have hsub : tree.ids.Sublist (0 :: trees.flatMap Pattern.ids) := by
    rw [List.flatMap_def]
    exact (List.sublist_flatten_of_mem (List.mem_map_of_mem htree)).trans
      (List.sublist_cons_self _ _)
  have hnodup := (hissued.nodup (by change _ ≤ 2 ^ 32; omega)).sublist hsub
  obtain ⟨n, hn, hmax⟩ := tree.maxId_mem
  have hlt := hissued.toNat_lt (hsub.subset (List.mem_map_of_mem hn))
  rw [hmax] at hlt
  exact sensible_of_regular hnodup (hregular tree htree) (by omega)

/-- A text that is parsed is what one reading returns. -/
theorem readings_of_parse {d : Dialect} {text : String} {tree : Pattern}
    (hparse : parse d text = .ok tree) :
    ∃ r bytes, Reader.Readings r 1 bytes [tree] ∧ bytes ≤ utf8Length text.toList := by
  have hplaced := Reader.placed_new d text
  obtain ⟨-, -, hfinish⟩ := hplaced.read
  have hread := Reader.Readings.read (.new d text)
  have htree : (Reader.new d text).read.1 = .ok tree := hparse
  rw [htree] at hread
  refine ⟨_, _, hread, ?_⟩
  rw [Reader.unread_new] at hfinish
  simp only [Unread.finish, Nat.zero_add] at hfinish
  omega

/-- **What is read can be compiled.**  Take up to `2 ^ 30` readings of one reader that pass at most
`2 ^ 30` bytes together, wherever they begin and whether they fail or not.  A reading hands out at
most two numbers for each byte that it passes, and one more, and the numbers fit into 32 bits.  All
nodes of all trees that were returned have distinct numbers, from 1 on, and the trees are sensible.
The captures of a whole text are numbered from 1 on in preorder; and a text that is no longer than
`2 ^ 30` bytes is compiled, unless it cannot be parsed, has a literal that is longer than allowed,
or repeats the empty text without a maximum. -/
theorem read_trees_numbered {r : Reader} {count bytes : Nat} {trees : List Pattern}
    (h : r.Readings count bytes trees) (hcount : count ≤ 2 ^ 30) (hbytes : bytes ≤ 2 ^ 30) :
    (∃ n, r.read.2.offset = r.offset + n ∧
      r.read.2.supply.nextId ≤ r.supply.nextId + (2 * n + 1)) ∧
    r.supply.nextId < 2 ^ 32 ∧
    (trees.flatMap Pattern.ids).Nodup ∧ (∀ id ∈ trees.flatMap Pattern.ids, 1 ≤ id) ∧
    (∀ tree ∈ trees, tree.Sensible) ∧
    ∀ dialect text, utf8Length text.toList ≤ 2 ^ 30 →
      (∀ tree, parse dialect text = .ok tree →
        ∃ k, k < 2 ^ 32 ∧ tree.captures = (List.range' 1 k).map UInt32.ofNat) ∧
      ∀ options error, compileText dialect text options = .error error →
        (∃ e, error = .syntaxError e) ∨
        (∃ id length,
          error = .compilation (.fault (.literalTooLong id length options.maxLiteral))) ∨
        ∃ id, error = .compilation (.fault (.emptyRepetition id)) := by
  obtain ⟨hissued, -, hnext⟩ := h.issued
  have hroom : r.supply.nextId + 5 < 2 ^ 32 := by omega
  have hnodup := List.nodup_cons.mp (hissued.nodup (by change _ ≤ 2 ^ 32; omega))
  refine ⟨?_, by omega, hnodup.2, ?_, h.sensible hroom, fun dialect text hlength => ?_⟩
  · have hnone : Issued r.supply.nextId [] := List.nil_subperm
    obtain ⟨-, -, hcost⟩ := h.placed.outcome hnone
    have hback := h.placed.read.2.1
    exact ⟨r.read.2.offset - r.offset, by omega, hcost⟩
  · intro id hid
    rw [UInt32.le_iff_toNat_le]
    have hne : id.toNat ≠ 0 := by
      intro hzero
      rw [show (0 : UInt32) = id from (UInt32.toNat_inj.mp hzero).symm] at hnodup
      exact hnodup.1 hid
    exact Nat.one_le_iff_ne_zero.mpr hne
  have htext : ∀ tree, parse dialect text = .ok tree →
      tree.Sensible ∧ ∃ k, k < 2 ^ 32 ∧ tree.captures = (List.range' 1 k).map UInt32.ofNat := by
    intro tree hparse
    obtain ⟨r', bytes', hreadings, hle⟩ := readings_of_parse hparse
    obtain ⟨hissued', -, hnext'⟩ := hreadings.issued
    refine ⟨hreadings.sensible (by omega) tree (List.mem_singleton_self _), ?_⟩
    obtain ⟨k, hcaptures⟩ := captures_of_parse hparse
    refine ⟨k, ?_, hcaptures⟩
    have hnodes := tree.length_captures_le
    have hids := hissued'.length_le
    simp only [List.flatMap_singleton, List.length_cons, List.length_map, List.length_range] at hids
    rw [hcaptures, List.length_map, List.length_range'] at hnodes
    omega
  refine ⟨fun tree hparse => (htext tree hparse).2, fun options error herror => ?_⟩
  unfold compileText at herror
  split at herror
  · rename_i e _
    cases herror
    exact .inl ⟨e, rfl⟩
  · rename_i tree hparse
    split at herror
    · rename_i e hcompile
      cases herror
      rcases (htext tree hparse).1.compiles options e hcompile with
        ⟨id, length, rfl⟩ | ⟨id, rfl⟩
      · exact .inr (.inl ⟨id, length, rfl⟩)
      · exact .inr (.inr ⟨id, rfl⟩)
    · cases herror

/-- Three bars stand between four empty branches: the bound for the numbers is reached. -/
theorem read_trees_numbered_bars :
    ∃ r trees, Reader.Readings r 1 3 trees ∧ trees.map Pattern.ids = [[7, 1, 6, 2, 5, 3, 4]] ∧
      r.supply.nextId = 1 + (2 * 3 + 1) ∧ r.supply.nextId < 2 ^ 32 ∧
      (trees.flatMap Pattern.ids).Nodup ∧ ∀ tree ∈ trees, tree.Sensible := by
  have hreadings := Reader.Readings.read (.new .perl5 "|||")
  have hoffset : (Reader.new .perl5 "|||").read.2.offset = 3 := by decide +kernel
  rw [hoffset] at hreadings
  obtain ⟨-, hlt, hnodup, -, hsensible, -⟩ :=
    read_trees_numbered hreadings (by decide) (by decide)
  exact ⟨_, _, hreadings, by decide +kernel, by decide +kernel, hlt, hnodup, hsensible⟩

end PatternMachine
