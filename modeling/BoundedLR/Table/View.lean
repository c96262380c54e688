import BoundedLR.ParseTable
import BoundedLR.Table.Scan

/-!
# Reading a table in place

A `Table` is an array of words that the scan has accepted.  It is read in place:
a node, a level or a reduction is named by the word at which it begins, and the
functions here compute from that where its parts are and read them.

A read outside of the words fails, and so does asking for an entry, a tuple or a
reduction that a record does not have.  The scan has checked every record, but
it cannot promise that a level is only used with the node it belongs to.
-/

namespace BoundedLR

/-- Words that have been found to be a table. -/
structure Table where
  words : Array Nat
  header : Header
  accepted : Scan.header words = .ok header

namespace Table

/-- Takes words as a table, or says why they are none. -/
def ofWords (words : Array Nat) : Except TableError Table :=
  match h : Scan.header words with
  | .ok header => .ok ⟨words, header, h⟩
  | .error e => .error e

/-- The word at a place. -/
def word (t : Table) (n : Nat) : Read Nat := .ofOption t.words[n]?

/-! ## Levels -/

/-- The number of entries of a level. -/
def entryCount (t : Table) (level : Nat) : Read Nat := t.word level

/-- Where an entry of a level begins. -/
def entryOffset (level index : Nat) : Nat := level + Layout.levelHead + index * Layout.entry

/-- Where a level ends. -/
def levelStop (t : Table) (level : Nat) : Read Nat := do
  let entries ← t.entryCount level
  return level + Layout.levelSize entries

/-- The code of the symbol of an entry. -/
def entryCode (t : Table) (level index : Nat) : Read Nat := do
  if index < (← t.entryCount level) then t.word (entryOffset level index)
  else throw .outOfBounds

/-- The symbol of an entry. -/
def entrySymbol (t : Table) (level index : Nat) : Read Symbol := do
  let code ← t.entryCode level index
  return (Symbol.ofCode? code).getD .endOfInput

/-- The action that an entry of a given kind stands for. -/
def actionOf (kind value : Nat) : Action Nat Nat :=
  if kind = EntryKind.descend then .descend value
  else if kind = EntryKind.shift then .shift value false
  else if kind = EntryKind.predictedShift then .shift value true
  else .reduce value

/-- The action of an entry. -/
def entryAction (t : Table) (level index : Nat) : Read (Action Nat Nat) := do
  let value ← t.word (entryOffset level index + 2)
  let kind ← t.word (entryOffset level index + 1)
  return actionOf kind value

/-- Looks for an entry with a given code by halving, between the entries `low`
and `high`.  The first argument bounds the number of halvings. -/
def searchCode (t : Table) (level code : Nat) : Nat → Nat → Nat → Read (Option Nat)
  | 0, _, _ => .ok none
  | halvings + 1, low, high =>
    if low < high then do
      let middle := (low + high) / 2
      let here ← t.entryCode level middle
      if here = code then return some middle
      else if here < code then searchCode t level code halvings (middle + 1) high
      else searchCode t level code halvings low middle
    else .ok none

/-- The place of a symbol in a level.  The entries are taken to be sorted by
code; in a level that is not, a symbol may be missed. -/
def search (t : Table) (level : Nat) (s : Symbol) : Read (Option Nat) := do
  let entries ← t.entryCount level
  t.searchCode level s.code (entries + 1) 0 entries

/-- What a level says about a symbol. -/
def find (t : Table) (level : Nat) (s : Symbol) : Read (Option (Action Nat Nat)) := do
  match ← t.search level s with
  | none => return none
  | some index => return some (← t.entryAction level index)

/-- The symbols of the entries of a level, in the order in which they are
stored. -/
def symbols (t : Table) (level : Nat) : Read (List Symbol) := do
  let entries ← t.entryCount level
  (List.range entries).mapM (t.entrySymbol level)

/-! ## Reductions -/

/-- The number of tuples of a reduction. -/
def tupleCount (t : Table) (reduction : Nat) : Read Nat := t.word (reduction + 5)

/-- What a reduction does. -/
def propertyAt (t : Table) (reduction : Nat) : Read ReductionProperty := do
  let head ← t.word reduction
  let rule ← t.word (reduction + 1)
  let count ← t.word (reduction + 2)
  let mask ← t.word (reduction + 3)
  let flag ← t.word (reduction + 4)
  return ⟨(Symbol.ofCode? head).getD .start, rule, count, .ofNat mask, flag != 0⟩

/-- A tuple of a reduction. -/
def tuple (t : Table) (reduction index : Nat) : Read Tuple := do
  if index < (← t.tupleCount reduction) then
    let n := reduction + Layout.reductionHead + index * Layout.tuple
    let last ← t.word n
    let target ← t.word (n + 1)
    let flag ← t.word (n + 2)
    return ⟨last, target, flag != 0⟩
  else throw .outOfBounds

/-- Looks through the given tuples of a reduction for one that uncovers a node. -/
def searchTuple (t : Table) (reduction last : Nat) : List Nat → Read (Option (Landing Nat))
  | [] => .ok none
  | index :: rest => do
    let tuple ← t.tuple reduction index
    if tuple.last = last then return some ⟨tuple.target, tuple.predict⟩
    else searchTuple t reduction last rest

/-- Where a reduction leads from the node that it uncovers. -/
def landingAt (t : Table) (reduction last : Nat) : Read (Option (Landing Nat)) := do
  let tuples ← t.tupleCount reduction
  t.searchTuple reduction last (List.range tuples)

/-- Where a reduction ends. -/
def reductionStop (t : Table) (reduction : Nat) : Read Nat := do
  let tuples ← t.tupleCount reduction
  return reduction + Layout.reductionSize tuples

/-! ## Nodes -/

/-- The number of levels of a node. -/
def levelCount (t : Table) (node : Nat) : Read Nat := t.word node

/-- The number of reductions of a node. -/
def reductionCount (t : Table) (node : Nat) : Read Nat := t.word (node + 1)

/-- The reduction that a node performs without looking at the input. -/
def always (t : Table) (node : Nat) : Read (Option Nat) := do
  match ← t.word (node + 2) with
  | 0 => return none
  | index + 1 => return some index

/-- How many symbols a node may have to look at. -/
def lookahead (t : Table) (node : Nat) : Read Nat := t.word (node + 3)

/-- The root level of a node. -/
def rootLevel (t : Table) (node : Nat) : Read Nat := do
  let reductions ← t.reductionCount node
  return node + Layout.nodeHead + reductions

/-- A number of levels that stand one behind the other, and where they end. -/
def levelsFrom (t : Table) : Nat → Nat → Read (List Nat × Nat)
  | 0, level => .ok ([], level)
  | count + 1, level => do
    let stop ← t.levelStop level
    let (rest, stop) ← t.levelsFrom count stop
    return (level :: rest, stop)

/-- The levels of a node, the root level first, and where they end. -/
def levels (t : Table) (node : Nat) : Read (List Nat × Nat) := do
  let root ← t.rootLevel node
  let count ← t.levelCount node
  t.levelsFrom count root

/-- A reduction of a node. -/
def reduction (t : Table) (node index : Nat) : Read Nat := do
  if index < (← t.reductionCount node) then t.word (node + Layout.nodeHead + index)
  else throw .outOfBounds

/-- The reductions of a node. -/
def reductions (t : Table) (node : Nat) : Read (List Nat) := do
  let count ← t.reductionCount node
  (List.range count).mapM (t.reduction node)

/-- Where a node ends: behind its last reduction, or behind its last level if it
has no reduction. -/
def nodeStop (t : Table) (node : Nat) : Read Nat := do
  match ← t.reductionCount node with
  | 0 =>
    let (_, stop) ← t.levels node
    return stop
  | count + 1 =>
    let last ← t.reduction node count
    t.reductionStop last

/-- A number of nodes that stand one behind the other. -/
def nodesFrom (t : Table) : Nat → Nat → Read (List Nat)
  | 0, _ => .ok []
  | count + 1, node => do
    let stop ← t.nodeStop node
    let rest ← t.nodesFrom count stop
    return node :: rest

/-- All nodes in the order in which they are stored. -/
def nodes (t : Table) : Read (List Nat) := t.nodesFrom t.header.nodeCount Layout.header

/-! ## The stored table as a parse table -/

/-- A stored table as a parse table.  Nodes and levels are the words at which
they begin. -/
def table (t : Table) : ParseTable Nat Nat where
  startup := t.header.startup
  root := t.rootLevel
  lookahead := t.lookahead
  always := t.always
  find _ level s := t.find level s
  symbols _ level := t.symbols level
  property node index := do
    let reduction ← t.reduction node index
    t.propertyAt reduction
  landing node index last := do
    let reduction ← t.reduction node index
    t.landingAt reduction last

end Table

end BoundedLR
