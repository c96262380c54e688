import Mathlib.Data.List.Basic
import BoundedLR.ParseTable
import BoundedLR.Table.Scan
import BoundedLR.Table.Write

/-!
# What a stored table says

A stored table is an array of words, and all its references are places in that
array.  To reason about it one has to know what the words say.  This module
describes the contents of a table as data: a level is a list of symbols with their
actions, a reduction is its property with its tuples, and a node is a list of
levels and a list of reductions.  References stay what they are in the words,
namely places.

For each kind of record there is the list of words that says it, and `Stores` says
that words are found from a place on.  Since the records of a table differ in
size, where they begin is told by `Layout.offsetsFrom`; `Stores.getElem?_flatMap`
is the lemma that finds one of them.
-/

namespace BoundedLR

/-! ## Stretches of words -/

/-- From a place on, the words are the given ones. -/
def Stores (words : Array Nat) (n : Nat) (xs : List Nat) : Prop :=
  ∀ i x, xs[i]? = some x → words[n + i]? = some x

section Stores

variable {words : Array Nat} {n : Nat} {xs ys : List Nat}

theorem stores_nil : Stores words n [] := by
  intro i x h
  simp at h

theorem stores_cons {x : Nat} :
    Stores words n (x :: xs) ↔ words[n]? = some x ∧ Stores words (n + 1) xs := by
  constructor
  · intro h
    refine ⟨h 0 x rfl, fun i y hy => ?_⟩
    have hword := h (i + 1) y hy
    rwa [Nat.add_right_comm]
  · rintro ⟨hx, h⟩ i y hy
    cases i with
    | zero =>
        cases hy
        exact hx
    | succ i =>
        have hword := h i y hy
        rwa [Nat.add_right_comm] at hword

theorem stores_append :
    Stores words n (xs ++ ys) ↔ Stores words n xs ∧ Stores words (n + xs.length) ys := by
  induction xs generalizing n with
  | nil => simp [stores_nil]
  | cons x xs ih =>
      rw [List.cons_append, stores_cons, stores_cons, ih, List.length_cons, and_assoc]
      have hn : n + 1 + xs.length = n + (xs.length + 1) := by omega
      rw [hn]

theorem stores_toArray (xs : List Nat) : Stores xs.toArray 0 xs := by
  intro i x hx
  rw [Nat.zero_add, List.getElem?_toArray]
  exact hx

/-- Where a word is there are words in front of it. -/
theorem exists_word_of_le {m w : Nat} (h : words[m]? = some w) (hn : n ≤ m) :
    ∃ v, words[n]? = some v := by
  have hm : m < words.size := (Array.getElem?_eq_some_iff.1 h).1
  exact ⟨words[n], Array.getElem?_eq_getElem (Nat.lt_of_le_of_lt hn hm)⟩

variable {α : Type} {f : α → List Nat} {size : α → Nat}

/-- Of records that stand one behind the other each is where its offset says. -/
theorem Stores.getElem?_flatMap {rs : List α} (hf : ∀ r ∈ rs, (f r).length = size r)
    (h : Stores words n (rs.flatMap f)) {i offset : Nat} {r : α} (hr : rs[i]? = some r)
    (ho : (Layout.offsetsFrom n (rs.map size))[i]? = some offset) : Stores words offset (f r) := by
  induction rs generalizing n i with
  | nil => simp at hr
  | cons first rest ih =>
      rw [List.flatMap_cons, stores_append, hf first List.mem_cons_self] at h
      cases i with
      | zero =>
          cases hr
          cases ho
          exact h.1
      | succ i => exact ih (fun r hr => hf r (List.mem_cons_of_mem _ hr)) h.2 hr ho

/-- Records of one size are found by counting. -/
theorem Stores.getElem?_flatMap_of_length {rs : List α} {k : Nat} (hf : ∀ r, (f r).length = k)
    (h : Stores words n (rs.flatMap f)) {i : Nat} {r : α} (hr : rs[i]? = some r) :
    Stores words (n + i * k) (f r) := by
  induction rs generalizing n i with
  | nil => simp at hr
  | cons first rest ih =>
      rw [List.flatMap_cons, stores_append, hf] at h
      cases i with
      | zero =>
          cases hr
          rw [Nat.zero_mul]
          exact h.1
      | succ i =>
          have hrest := ih h.2 hr
          have hn : n + k + i * k = n + (i + 1) * k := by
            rw [Nat.succ_mul]
            omega
          rwa [hn] at hrest

end Stores

/-! ## Offsets -/

namespace Layout

@[simp] theorem length_offsetsFrom (n : Nat) (sizes : List Nat) :
    (offsetsFrom n sizes).length = sizes.length := by
  induction sizes generalizing n with
  | nil => rfl
  | cons size rest ih => simp [offsetsFrom, ih]

theorem length_flatMap {α : Type} {f : α → List Nat} {size : α → Nat} {rs : List α}
    (hf : ∀ r ∈ rs, (f r).length = size r) : (rs.flatMap f).length = total (rs.map size) := by
  induction rs with
  | nil => rfl
  | cons first rest ih =>
      rw [List.flatMap_cons, List.length_append, hf first List.mem_cons_self,
        ih fun r hr => hf r (List.mem_cons_of_mem _ hr), List.map_cons, total]

theorem length_flatMap_of_length {α β : Type} {f : α → List β} {k : Nat}
    (hf : ∀ r, (f r).length = k) (rs : List α) : (rs.flatMap f).length = rs.length * k := by
  induction rs with
  | nil => rw [List.flatMap_nil, List.length_nil, List.length_nil, Nat.zero_mul]
  | cons first rest ih =>
      rw [List.flatMap_cons, List.length_append, hf, ih, List.length_cons, Nat.succ_mul]
      omega

theorem le_of_mem_offsetsFrom {n m : Nat} {sizes : List Nat} (h : m ∈ offsetsFrom n sizes) :
    n ≤ m := by
  induction sizes generalizing n with
  | nil => simp [offsetsFrom] at h
  | cons size rest ih =>
      rcases List.mem_cons.1 h with rfl | h
      · exact Nat.le_refl _
      · have := ih h
        omega

/-- Records that are not empty begin at different places. -/
theorem nodup_offsetsFrom {sizes : List Nat} (hpos : ∀ size ∈ sizes, 0 < size) (n : Nat) :
    (offsetsFrom n sizes).Nodup := by
  induction sizes generalizing n with
  | nil => exact List.nodup_nil
  | cons size rest ih =>
      have hrest := ih fun s hs => hpos s (List.mem_cons_of_mem _ hs)
      refine List.nodup_cons.2 ⟨fun hmem => ?_, hrest _⟩
      have hle := le_of_mem_offsetsFrom hmem
      have hsize := hpos size List.mem_cons_self
      omega

end Layout

/-! ## Levels -/

namespace Action

/-- The kind of entry that stands for an action. -/
def kind : Action Nat Nat → Nat
  | descend _ => EntryKind.descend
  | shift _ false => EntryKind.shift
  | shift _ true => EntryKind.predictedShift
  | reduce _ => EntryKind.reduce

/-- The value of an entry that stands for an action. -/
def value : Action Nat Nat → Nat
  | descend level => level
  | shift target _ => target
  | reduce index => index

/-- The references of an action are of the given sorts. -/
def Names (node level : Nat → Prop) : Action Nat Nat → Prop
  | descend l => level l
  | shift target _ => node target
  | reduce _ => True

theorem Names.imp {node level node' level' : Nat → Prop} {a : Action Nat Nat}
    (hnode : ∀ n, node n → node' n) (hlevel : ∀ l, level l → level' l) (h : a.Names node level) :
    a.Names node' level' := by
  cases a with
  | descend l => exact hlevel l h
  | shift target predict => exact hnode target h
  | reduce index => trivial

/-- A reduction that is one of a given number. -/
def InRange (reductions : Nat) : Action Nat Nat → Prop
  | reduce index => index < reductions
  | _ => True

end Action

/-- The contents of a level, in the order in which the entries are stored. -/
abbrev StoredLevel : Type := List (Symbol × Action Nat Nat)

/-- The words of an entry. -/
def entryWords (e : Symbol × Action Nat Nat) : List Nat := [e.1.code, e.2.kind, e.2.value]

theorem length_entryWords (e : Symbol × Action Nat Nat) : (entryWords e).length = Layout.entry :=
  rfl

/-- The words of a level. -/
def levelWords (l : StoredLevel) : List Nat := l.length :: l.flatMap entryWords

/-- The size of a level. -/
def levelSize (l : StoredLevel) : Nat := Layout.levelSize l.length

theorem length_levelWords (l : StoredLevel) : (levelWords l).length = levelSize l := by
  rw [levelWords, List.length_cons, Layout.length_flatMap_of_length length_entryWords, levelSize,
    Layout.levelSize, Layout.levelHead]
  omega

/-! ## Reductions -/

/-- The words of a tuple. -/
def Tuple.words (t : Tuple) : List Nat := [t.last, t.target, t.predict.toNat]

theorem Tuple.length_words (t : Tuple) : t.words.length = Layout.tuple := rfl

/-- The contents of a reduction. -/
structure StoredReduction where
  head : Symbol
  rule : Nat
  count : Nat
  mask : Nat
  predict : Bool
  tuples : List Tuple

namespace StoredReduction

/-- What the reduction does. -/
def property (r : StoredReduction) : ReductionProperty :=
  ⟨r.head, r.rule, r.count, .ofNat r.mask, r.predict⟩

/-- The words of a reduction. -/
def words (r : StoredReduction) : List Nat :=
  [r.head.code, r.rule, r.count, r.mask, r.predict.toNat, r.tuples.length] ++
    r.tuples.flatMap Tuple.words

/-- The size of a reduction. -/
def size (r : StoredReduction) : Nat := Layout.reductionSize r.tuples.length

theorem length_words (r : StoredReduction) : r.words.length = r.size := by
  rw [words, List.length_append, Layout.length_flatMap_of_length Tuple.length_words, size,
    Layout.reductionSize]
  rfl

theorem stores_words {words : Array Nat} {n : Nat} {r : StoredReduction} :
    Stores words n r.words ↔ words[n]? = some r.head.code ∧ words[n + 1]? = some r.rule ∧
      words[n + 2]? = some r.count ∧ words[n + 3]? = some r.mask ∧
      words[n + 4]? = some r.predict.toNat ∧ words[n + 5]? = some r.tuples.length ∧
      Stores words (n + Layout.reductionHead) (r.tuples.flatMap Tuple.words) := by
  simp only [StoredReduction.words, List.cons_append, List.nil_append, stores_cons]
  rfl

end StoredReduction

/-! ## Nodes -/

/-- The contents of a node. -/
structure StoredNode where
  levels : List StoredLevel
  always : Option Nat
  lookahead : Nat
  reductions : List StoredReduction

namespace StoredNode

/-- Where the root level of a node begins. -/
def root (n : StoredNode) (offset : Nat) : Nat :=
  offset + Layout.nodeHead + n.reductions.length

/-- Where the levels of a node begin. -/
def levelOffsets (n : StoredNode) (offset : Nat) : List Nat :=
  Layout.offsetsFrom (n.root offset) (n.levels.map levelSize)

/-- Where the first reduction of a node begins. -/
def reductionStart (n : StoredNode) (offset : Nat) : Nat :=
  n.root offset + Layout.total (n.levels.map levelSize)

/-- Where the reductions of a node begin. -/
def reductionOffsets (n : StoredNode) (offset : Nat) : List Nat :=
  Layout.offsetsFrom (n.reductionStart offset) (n.reductions.map StoredReduction.size)

/-- The size of a node. -/
def size (n : StoredNode) : Nat :=
  Layout.nodeHead + n.reductions.length + Layout.total (n.levels.map levelSize) +
    Layout.total (n.reductions.map StoredReduction.size)

/-- The words of a node. -/
def words (n : StoredNode) (offset : Nat) : List Nat :=
  [n.levels.length, n.reductions.length, alwaysNumber n.always, n.lookahead] ++
    (n.reductionOffsets offset ++ (n.levels.flatMap levelWords ++
      n.reductions.flatMap StoredReduction.words))

theorem length_words (n : StoredNode) (offset : Nat) : (n.words offset).length = n.size := by
  simp only [words, List.length_append, reductionOffsets, Layout.length_offsetsFrom,
    List.length_map, Layout.length_flatMap fun l _ => length_levelWords l,
    Layout.length_flatMap fun r _ => StoredReduction.length_words r, size, Layout.nodeHead,
    List.length_cons, List.length_nil]
  omega

theorem stores_words {words : Array Nat} {offset : Nat} {n : StoredNode} :
    Stores words offset (n.words offset) ↔ words[offset]? = some n.levels.length ∧
      words[offset + 1]? = some n.reductions.length ∧
      words[offset + 2]? = some (alwaysNumber n.always) ∧ words[offset + 3]? = some n.lookahead ∧
      Stores words (offset + Layout.nodeHead) (n.reductionOffsets offset) ∧
      Stores words (n.root offset) (n.levels.flatMap levelWords) ∧
      Stores words (n.reductionStart offset) (n.reductions.flatMap StoredReduction.words) := by
  simp only [StoredNode.words, List.cons_append, List.nil_append, stores_cons, stores_append,
    reductionOffsets, Layout.length_offsetsFrom, List.length_map,
    Layout.length_flatMap fun l _ => length_levelWords l]
  rfl

theorem size_pos (n : StoredNode) : 0 < n.size := by
  simp only [size, Layout.nodeHead]
  omega

/-- What the scan demands of the contents of a node, apart from its references. -/
structure WellFormed (n : StoredNode) : Prop where
  levels_ne_nil : n.levels ≠ []
  always_lt : ∀ index, n.always = some index → index < n.reductions.length
  inRange : ∀ l ∈ n.levels, ∀ e ∈ l, e.2.InRange n.reductions.length
  head_isNonTerminal : ∀ r ∈ n.reductions, r.head.isNonTerminal = true

/-- The references of a node are of the given sorts. -/
structure Names (node level : Nat → Prop) (n : StoredNode) : Prop where
  action : ∀ l ∈ n.levels, ∀ e ∈ l, e.2.Names node level
  tuple : ∀ r ∈ n.reductions, ∀ t ∈ r.tuples, node t.last ∧ node t.target

end StoredNode

/-! ## Tables -/

/-- The words of nodes that stand one behind the other. -/
def nodesWords (offset : Nat) : List StoredNode → List Nat
  | [] => []
  | n :: rest => n.words offset ++ nodesWords (offset + n.size) rest

/-- Where the nodes of a table begin. -/
def nodeOffsets (nodes : List StoredNode) : List Nat :=
  Layout.offsetsFrom Layout.header (nodes.map StoredNode.size)

/-- Where the levels of nodes begin that stand one behind the other. -/
def levelOffsetsFrom (offset : Nat) : List StoredNode → List Nat
  | [] => []
  | n :: rest => n.levelOffsets offset ++ levelOffsetsFrom (offset + n.size) rest

/-- The levels of a table are those of its nodes. -/
theorem mem_levelOffsetsFrom {start l : Nat} {nodes : List StoredNode} :
    l ∈ levelOffsetsFrom start nodes ↔ ∃ (index : Nat) (n : StoredNode) (offset : Nat),
      nodes[index]? = some n ∧
      (Layout.offsetsFrom start (nodes.map StoredNode.size))[index]? = some offset ∧
      l ∈ n.levelOffsets offset := by
  induction nodes generalizing start with
  | nil => simp [levelOffsetsFrom]
  | cons first rest ih =>
      rw [levelOffsetsFrom, List.mem_append, ih]
      constructor
      · rintro (hl | ⟨index, n, offset, hn, ho, hl⟩)
        · exact ⟨0, first, start, rfl, rfl, hl⟩
        · exact ⟨index + 1, n, offset, hn, ho, hl⟩
      · rintro ⟨index, n, offset, hn, ho, hl⟩
        cases index with
        | zero =>
            cases hn
            cases ho
            exact .inl hl
        | succ index => exact .inr ⟨index, n, offset, hn, ho, hl⟩

/-- The words are a table with the given contents. -/
structure Contains (words : Array Nat) (header : Header) (nodes : List StoredNode) : Prop where
  count : nodes.length = header.nodeCount
  head : Stores words 0 [header.nodeCount, header.startup]
  stored : Stores words Layout.header (nodesWords Layout.header nodes)
  wellFormed : ∀ n ∈ nodes, n.WellFormed
  startup : header.startup ∈ nodeOffsets nodes
  names : ∀ n ∈ nodes,
    n.Names (· ∈ nodeOffsets nodes) (· ∈ levelOffsetsFrom Layout.header nodes)

end BoundedLR
