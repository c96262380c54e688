import BoundedLR.Symbol.Code
import BoundedLR.Table.Error
import BoundedLR.Table.Format

/-!
# Checking the words of a table

Words that come from outside may be anything.  Before they are used as a table
they are scanned once, from the first node to the last, and every record and
every reference is checked.

The scan walks the records in the order in which they are stored and stops at
the first word that is missing or wrong.  On the way it makes a `Catalog` of the
nodes and levels it meets and of all references to nodes and levels.  Only when
all records have been found well formed are the references looked up in the
catalog: that of the header first, then those to nodes and then those to levels,
each in the order of their places.

Words behind the last node are not looked at.
-/

namespace BoundedLR
namespace Scan

/-- The records that a scan has met, by the words at which they begin, and the
references it has met: the word that holds the reference, and the word it
names. -/
structure Catalog where
  nodes : List Nat
  levels : List Nat
  nodeReferences : List (Nat × Nat)
  levelReferences : List (Nat × Nat)
  deriving DecidableEq, Repr

namespace Catalog

/-- The catalog of nothing. -/
def empty : Catalog := ⟨[], [], [], []⟩

/-- What two stretches of a table hold together. -/
def append (c d : Catalog) : Catalog :=
  ⟨c.nodes ++ d.nodes, c.levels ++ d.levels, c.nodeReferences ++ d.nodeReferences,
    c.levelReferences ++ d.levelReferences⟩

instance : Append Catalog := ⟨append⟩

/-- The catalog of a node that begins at a word. -/
def node (n : Nat) : Catalog := { empty with nodes := [n] }

/-- The catalog of a level that begins at a word. -/
def level (n : Nat) : Catalog := { empty with levels := [n] }

/-- The catalog of a reference to a node. -/
def nodeReference (n target : Nat) : Catalog := { empty with nodeReferences := [(n, target)] }

/-- The catalog of a reference to a level. -/
def levelReference (n target : Nat) : Catalog := { empty with levelReferences := [(n, target)] }

end Catalog

/-- The number of words that can be addressed. -/
def addressLimit : Nat := UInt64.size

/-- The word at a place.  A place that cannot even be addressed is reported as the
last one that can. -/
def word (words : Array Nat) (n : Nat) : Except TableError Nat :=
  match words[n]? with
  | some w => .ok w
  | none => .error (.truncated (min n (addressLimit - 1)))

/-- Complains unless a condition holds. -/
def require (condition : Bool) (defect : Defect) (n : Nat) : Except TableError Unit :=
  if condition then .ok () else .error (.badRecord defect n)

/-- The references of an entry, by its kind. -/
def entryReferences (reductions kind n value : Nat) : Except TableError Catalog :=
  if kind = EntryKind.descend then .ok (.levelReference (n + 2) value)
  else if kind = EntryKind.shift ∨ kind = EntryKind.predictedShift then
    .ok (.nodeReference (n + 2) value)
  else if kind = EntryKind.reduce then do
    require (value < reductions) .reductionIndex (n + 2)
    return .empty
  else .error (.badRecord .entryKind (n + 1))

/-- Checks an entry of a level in a node with a given number of reductions. -/
def scanEntry (words : Array Nat) (reductions n : Nat) : Except TableError Catalog := do
  let symbol ← word words n
  require (Symbol.ofCode? symbol).isSome .symbol n
  let kind ← word words (n + 1)
  let value ← word words (n + 2)
  entryReferences reductions kind n value

/-- Checks a number of entries that stand one behind the other. -/
def scanEntries (words : Array Nat) (reductions : Nat) :
    Nat → Nat → Except TableError Catalog
  | 0, _ => .ok .empty
  | count + 1, n => do
    let first ← scanEntry words reductions n
    let rest ← scanEntries words reductions count (n + Layout.entry)
    return first ++ rest

/-- Checks a number of levels that stand one behind the other, and tells where
they end. -/
def scanLevels (words : Array Nat) (reductions : Nat) :
    Nat → Nat → Except TableError (Catalog × Nat)
  | 0, n => .ok (.empty, n)
  | count + 1, n => do
    let entries ← word words n
    let first ← scanEntries words reductions entries (n + Layout.levelHead)
    let (rest, stop) ← scanLevels words reductions count (n + Layout.levelSize entries)
    return (.level n ++ first ++ rest, stop)

/-- Checks a tuple of a reduction. -/
def scanTuple (words : Array Nat) (n : Nat) : Except TableError Catalog := do
  let last ← word words n
  let target ← word words (n + 1)
  let flag ← word words (n + 2)
  require (flag ≤ 1) .flag (n + 2)
  return .nodeReference n last ++ .nodeReference (n + 1) target

/-- Checks a number of tuples that stand one behind the other. -/
def scanTuples (words : Array Nat) : Nat → Nat → Except TableError Catalog
  | 0, _ => .ok .empty
  | count + 1, n => do
    let first ← scanTuple words n
    let rest ← scanTuples words count (n + Layout.tuple)
    return first ++ rest

/-- Checks a number of reductions that stand one behind the other, and tells
where they end.  Their offsets are stored from word `slot` on. -/
def scanReductions (words : Array Nat) : Nat → Nat → Nat → Except TableError (Catalog × Nat)
  | 0, _, n => .ok (.empty, n)
  | count + 1, slot, n => do
    let offset ← word words slot
    require (offset == n) .reductionOffset slot
    let head ← word words n
    require ((Symbol.ofCode? head).any Symbol.isNonTerminal) .reductionHead n
    let flag ← word words (n + 4)
    require (flag ≤ 1) .flag (n + 4)
    let tuples ← word words (n + 5)
    let first ← scanTuples words tuples (n + Layout.reductionHead)
    let (rest, stop) ← scanReductions words count (slot + 1) (n + Layout.reductionSize tuples)
    return (first ++ rest, stop)

/-- Checks a node, and tells where it ends. -/
def scanNode (words : Array Nat) (n : Nat) : Except TableError (Catalog × Nat) := do
  let levels ← word words n
  let reductions ← word words (n + 1)
  let always ← word words (n + 2)
  let _ ← word words (n + 3)
  require (levels != 0) .noRootLevel n
  require (always ≤ reductions) .alwaysIndex (n + 2)
  let slots := n + Layout.nodeHead
  let (levelCatalog, stop) ← scanLevels words reductions levels (slots + reductions)
  let (reductionCatalog, stop) ← scanReductions words reductions slots stop
  return (.node n ++ levelCatalog ++ reductionCatalog, stop)

/-- Checks a number of nodes that stand one behind the other. -/
def scanNodes (words : Array Nat) : Nat → Nat → Except TableError Catalog
  | 0, _ => .ok .empty
  | count + 1, n => do
    let (first, stop) ← scanNode words n
    let rest ← scanNodes words count stop
    return first ++ rest

/-- Complains about the first reference that does not name one of the records. -/
def scanReferences (records : List Nat) (defect : Defect) :
    List (Nat × Nat) → Except TableError Unit
  | [] => .ok ()
  | (n, target) :: rest => do
    require (records.contains target) defect n
    scanReferences records defect rest

end Scan

/-- The header of a table. -/
structure Header where
  nodeCount : Nat
  startup : Nat
  deriving DecidableEq, Repr

/-- Checks words, and returns their header if they are a table. -/
def Scan.header (words : Array Nat) : Except TableError Header := do
  let nodeCount ← word words 0
  let startup ← word words 1
  let catalog ← scanNodes words nodeCount Layout.header
  require (catalog.nodes.contains startup) .startupOffset 1
  scanReferences catalog.nodes .nodeReference catalog.nodeReferences
  scanReferences catalog.levels .levelReference catalog.levelReferences
  return ⟨nodeCount, startup⟩

end BoundedLR
