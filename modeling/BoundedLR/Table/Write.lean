import BoundedLR.Symbol.Code
import BoundedLR.Table.Layout
import BoundedLR.Table.Word

/-!
# Writing a table

A parser is written in two steps.  `Parser.cells` gives the numbers of the table
in the order in which they are stored, each together with what it stands for,
and does not care how large they are.  `Parser.toTable` then makes a word of each
of them, and fails at the first that does not fit.  So the width of the words
decides whether a table can be written, and never what is written.

Within a level the entries are sorted by the code of their symbol, which is what
a look-up in the stored table relies on.
-/

namespace BoundedLR

/-- A number of a table and what it stands for. -/
structure Cell where
  field : Field
  value : Nat
  deriving DecidableEq, Repr

/-! ## Levels -/

/-- An entry of a level as it is stored. -/
structure StoredEntry where
  symbol : Nat
  kind : Nat
  value : Nat
  deriving DecidableEq, Repr

namespace StoredEntry

/-- Puts an entry in front of the first whose symbol has a code that is not
smaller. -/
def insertByCode (e : StoredEntry) : List StoredEntry → List StoredEntry
  | [] => [e]
  | f :: rest => if e.symbol ≤ f.symbol then e :: f :: rest else f :: insertByCode e rest

/-- Sorts entries by the codes of their symbols. -/
def sortByCode (entries : List StoredEntry) : List StoredEntry :=
  entries.foldr insertByCode []

/-- The numbers of an entry. -/
def cells (e : StoredEntry) : List Cell :=
  [⟨.symbol, e.symbol⟩, ⟨.entryKind, e.kind⟩, ⟨.offset, e.value⟩]

end StoredEntry

/-- Where the numbered records of a table are: nodes, and the levels of the node
that is being written. -/
structure Placement where
  node : Nat → Nat
  level : Nat → Nat

/-- An entry of a row as it is stored. -/
def storedEntry (places : Placement) (s : Symbol) : Trie.RowEntry Decision → StoredEntry
  | .level number => ⟨s.code, EntryKind.descend, places.level number⟩
  | .settled (.shift target false) => ⟨s.code, EntryKind.shift, places.node target⟩
  | .settled (.shift target true) => ⟨s.code, EntryKind.predictedShift, places.node target⟩
  | .settled (.reduce index) => ⟨s.code, EntryKind.reduce, index⟩

/-- The numbers of a level. -/
def rowCells (places : Placement) (row : List (Symbol × Trie.RowEntry Decision)) : List Cell :=
  ⟨.levelCount, row.length⟩ ::
    (StoredEntry.sortByCode (row.map fun (s, e) => storedEntry places s e)).flatMap
      StoredEntry.cells

/-! ## Reductions -/

/-- The number of a flag. -/
def flagCell (flag : Bool) : Cell := ⟨.flag, flag.toNat⟩

/-- The numbers of a tuple. -/
def Tuple.cells (places : Placement) (t : Tuple) : List Cell :=
  [⟨.offset, places.node t.last⟩, ⟨.offset, places.node t.target⟩, flagCell t.predict]

/-- The numbers of a reduction. -/
def NodeReduction.cells (places : Placement) (r : NodeReduction) : List Cell :=
  [⟨.symbol, r.property.head.code⟩, ⟨.rule, r.property.rule⟩,
    ⟨.elementCount, r.property.count⟩, ⟨.mask, r.property.mask.toNat⟩,
    flagCell r.property.predict, ⟨.tupleCount, r.tuples.length⟩] ++
    r.tuples.flatMap (Tuple.cells places)

/-! ## Nodes and tables -/

/-- The number that stands for the reduction without input. -/
def alwaysNumber : Option Nat → Nat
  | none => 0
  | some index => index + 1

/-- The numbers of a node with a given layout, `nodeAt` telling where the nodes
are. -/
def Node.cells (nodeAt : Nat → Nat) (layout : NodeLayout) (n : Node) : List Cell :=
  let places : Placement := ⟨nodeAt, fun number => layout.levels.getD number 0⟩
  [⟨.levelCount, n.trie.rows.length⟩, ⟨.reductionCount, n.reductions.length⟩,
    ⟨.reductionIndex, alwaysNumber n.always⟩, ⟨.lookahead, n.lookahead⟩] ++
    layout.reductions.map (Cell.mk .offset) ++
    n.trie.rows.flatMap (rowCells places) ++
    n.reductions.flatMap (NodeReduction.cells places)

namespace Parser

/-- The numbers of the table of a parser, in the order in which they are
stored. -/
def cells (p : Parser) : List Cell :=
  let layouts := p.layouts
  let offsets := (layouts.map (·.offset)).toArray
  let nodeAt := fun n => offsets.getD n 0
  [⟨.nodeCount, p.nodes.size⟩, ⟨.offset, Layout.header⟩] ++
    (p.nodes.toList.zip layouts).flatMap fun (n, layout) => n.cells nodeAt layout

end Parser

/-- Makes words of numbers, up to the first that does not fit. -/
def narrowAll (w : Width) : List Cell → Except OutOfRange (List Nat)
  | [] => .ok []
  | c :: rest => do
    let word ← narrow w c.field c.value
    let words ← narrowAll w rest
    return word :: words

theorem lt_of_mem_narrowAll {w : Width} {cells : List Cell} {words : List Nat}
    (h : narrowAll w cells = .ok words) : ∀ x ∈ words, x < w.bound := by
  induction cells generalizing words with
  | nil =>
      cases h
      simp
  | cons c rest ih =>
      unfold narrowAll narrow at h
      by_cases hc : c.value < w.bound
      · rw [if_pos hc] at h
        cases hr : narrowAll w rest with
        | error e => simp [hr, bind, Except.bind] at h
        | ok tail =>
            simp only [hr, bind, Except.bind, pure, Except.pure, Except.ok.injEq] at h
            subst h
            intro x hx
            rcases List.mem_cons.1 hx with rfl | hx
            · exact hc
            · exact ih hr x hx
      · rw [if_neg hc] at h
        cases h

/-- The table of a parser in words of a given width. -/
def Parser.toTable (p : Parser) (w : Width) : Except OutOfRange Buffer :=
  match h : narrowAll w p.cells with
  | .ok words => .ok ⟨w, words.toArray, fun x hx =>
      lt_of_mem_narrowAll h x (List.mem_toArray.1 hx)⟩
  | .error e => .error e

end BoundedLR
