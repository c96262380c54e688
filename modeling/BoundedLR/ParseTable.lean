import BoundedLR.Production

/-!
# Parse tables

A parse table tells a parser what to do.  There are two kinds of table in this
library, the compiled grammar in memory and the flat array of words that it is
stored as; the parser runs on either.  What it needs to know of a table is
collected in `ParseTable`: a table has nodes, one for each state, and levels,
which are places in the decision trie of a node.

Looking something up is a *read*.  A read may fall outside of the table, for
instance if a node does not have the reduction that is asked for; then it fails
with `Fault.outOfBounds` instead of returning something arbitrary.
-/

namespace BoundedLR

/-- Why a computation on a table broke off without an answer. -/
inductive Fault where
  /-- Something was read that the table does not hold. -/
  | outOfBounds
  /-- The number of steps that the computation was given is used up. -/
  | outOfFuel
  deriving DecidableEq, Repr

/-- A computation that reads a table. -/
abbrev Read (α : Type) : Type := Except Fault α

/-- The value of a look-up that has to succeed. -/
def Read.ofOption {α : Type} : Option α → Read α
  | some a => .ok a
  | none => .error .outOfBounds

/-- What a node's trie says about the symbol under the cursor. -/
inductive Action (Node Level : Type) where
  /-- Read the next symbol as well, and look it up at the given level. -/
  | descend (level : Level)
  /-- Shift the oldest symbol that has been read. -/
  | shift (target : Node) (predict : Bool)
  /-- Perform the reduction with this place among those of the node. -/
  | reduce (index : Nat)
  deriving DecidableEq, Repr

/-- Where a reduction leads, given the node that it uncovers. -/
structure Landing (Node : Type) where
  target : Node
  /-- Whether an announcement may still be due in front of the element. -/
  predict : Bool
  deriving DecidableEq, Repr

/-- One way for a reduction to lead on. -/
structure Tuple where
  /-- The node that is uncovered. -/
  last : Nat
  /-- The node that is entered. -/
  target : Nat
  predict : Bool
  deriving DecidableEq, Repr

/-- A compiled grammar, as a parser sees it. -/
structure ParseTable (Node Level : Type) where
  /-- The node that every parse starts from. -/
  startup : Node
  /-- The root level of a node's trie. -/
  root : Node → Read Level
  /-- How many symbols a node may have to look at. -/
  lookahead : Node → Read Nat
  /-- The reduction that a node performs without looking at the input. -/
  always : Node → Read (Option Nat)
  /-- What a level says about a symbol. -/
  find : Node → Level → Symbol → Read (Option (Action Node Level))
  /-- The symbols that have an entry at a level. -/
  symbols : Node → Level → Read (List Symbol)
  /-- What a reduction of a node does. -/
  property : Node → Nat → Read ReductionProperty
  /-- Where a reduction of a node leads from the node that it uncovers. -/
  landing : Node → Nat → Node → Read (Option (Landing Node))

end BoundedLR
