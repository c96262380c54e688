/-!
# The format of a stored table

A table is an array of words in which every reference is the number of a word.

```
table     : header node*
header    : number of nodes, offset of the startup node
node      : node head, offset of each reduction, level*, reduction*
node head : number of levels, number of reductions, reduction without input, lookahead
level     : number of entries, entry*
entry     : symbol, kind, value
reduction : head, rule, number of elements, mask, flag, number of tuples, tuple*
tuple     : uncovered node, entered node, flag
```

Nodes stand one behind the other, and so do the levels and the reductions of a
node.  The word for the reduction without input is zero if there is none, and
otherwise one more than its place among the reductions.  The value of an entry is
the offset of a level, the offset of a node or the place of a reduction, as its
kind says.

This module fixes the sizes of the records and the kinds of entry.
-/

namespace BoundedLR
namespace Layout

/-- The number of words in the header of a table. -/
def header : Nat := 2

/-- The number of words in the head of a node. -/
def nodeHead : Nat := 4

/-- The number of words in front of the entries of a level. -/
def levelHead : Nat := 1

/-- The number of words in an entry of a level. -/
def entry : Nat := 3

/-- The number of words in front of the tuples of a reduction. -/
def reductionHead : Nat := 6

/-- The number of words in a tuple. -/
def tuple : Nat := 3

/-- The number of words in a level with a given number of entries. -/
def levelSize (entries : Nat) : Nat := levelHead + entries * entry

/-- The number of words in a reduction with a given number of tuples. -/
def reductionSize (tuples : Nat) : Nat := reductionHead + tuples * tuple

end Layout

namespace EntryKind

/-- The kind of an entry that leads one level down. -/
def descend : Nat := 0

/-- The kind of an entry that shifts. -/
def shift : Nat := 1

/-- The kind of an entry that shifts while an announcement may be due. -/
def predictedShift : Nat := 2

/-- The kind of an entry that reduces. -/
def reduce : Nat := 3

end EntryKind

end BoundedLR
