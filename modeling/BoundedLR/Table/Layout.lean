import BoundedLR.Parser
import BoundedLR.Table.Format

/-!
# The layout of a stored parser

The references of a table name words, so it has to be known where every record
goes before the first is written.  This module computes that: each node begins
where the one before it ends, and within a node the levels come first and the
reductions after them.
-/

namespace BoundedLR

/-- Where records of given sizes begin if the first begins at `offset` and each
follows the one before. -/
def Layout.offsetsFrom (offset : Nat) : List Nat → List Nat
  | [] => []
  | size :: rest => offset :: offsetsFrom (offset + size) rest

/-- The number of words in records of given sizes. -/
def Layout.total : List Nat → Nat
  | [] => 0
  | size :: rest => size + total rest

/-- Where the records of one node begin, and where the node ends. -/
structure NodeLayout where
  offset : Nat
  levels : List Nat
  reductions : List Nat
  stop : Nat
  deriving DecidableEq, Repr

namespace Node

/-- The sizes of the levels of a node. -/
def levelSizes (n : Node) : List Nat :=
  n.trie.rows.map fun row => Layout.levelSize row.length

/-- The sizes of the reductions of a node. -/
def reductionSizes (n : Node) : List Nat :=
  n.reductions.map fun r => Layout.reductionSize r.tuples.length

/-- The layout of a node that begins at a given offset. -/
def layout (n : Node) (offset : Nat) : NodeLayout :=
  let levels := offset + Layout.nodeHead + n.reductions.length
  let reductions := levels + Layout.total n.levelSizes
  ⟨offset, Layout.offsetsFrom levels n.levelSizes,
    Layout.offsetsFrom reductions n.reductionSizes, reductions + Layout.total n.reductionSizes⟩

end Node

/-- The layouts of nodes that stand one behind the other. -/
def layoutsFrom (offset : Nat) : List Node → List NodeLayout
  | [] => []
  | n :: rest =>
    let layout := n.layout offset
    layout :: layoutsFrom layout.stop rest

/-- The layouts of all nodes of a parser. -/
def Parser.layouts (p : Parser) : List NodeLayout :=
  layoutsFrom Layout.header p.nodes.toList

/-- The number of words in the table of a parser. -/
def Parser.tableSize (p : Parser) : Nat :=
  (p.layouts.getLast?.map (·.stop)).getD Layout.header

end BoundedLR
