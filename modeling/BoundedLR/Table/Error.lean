/-!
# What can be wrong with a stored table

Writing a table fails if some number does not fit into a word; then a wider word
has to be chosen.  Reading one fails if the words are not a well-formed table;
then the complaint names the word at which this shows.
-/

namespace BoundedLR

/-- What a word of a table holds. -/
inductive Field where
  | nodeCount
  | offset
  | symbol
  | levelCount
  | reductionCount
  | reductionIndex
  | tupleCount
  | rule
  | mask
  | elementCount
  | lookahead
  | entryKind
  | flag
  deriving DecidableEq, Repr

/-- The name of a field in messages. -/
def Field.name : Field → String
  | nodeCount => "NodeCount"
  | offset => "Offset"
  | symbol => "SymbolValue"
  | levelCount => "RequireNodeCount"
  | reductionCount => "ReduceCount"
  | reductionIndex => "ReduceIndex"
  | tupleCount => "TupleCount"
  | rule => "ProductionIndex"
  | mask => "ProductionMask"
  | elementCount => "ElementCount"
  | lookahead => "ForwardDetect"
  | entryKind => "RequireKind"
  | flag => "Flag"

/-- A number that does not fit into a word. -/
structure OutOfRange where
  field : Field
  value : Nat
  deriving DecidableEq, Repr

/-- The wording of the complaint about a number that does not fit. -/
def OutOfRange.message (e : OutOfRange) : String :=
  e.field.name ++ " value " ++ toString e.value ++ " does not fit in the table word"

/-- What may be wrong with a record of a table. -/
inductive Defect where
  | noRootLevel
  | alwaysIndex
  | symbol
  | entryKind
  | reductionIndex
  | reductionOffset
  | reductionHead
  | flag
  | startupOffset
  | nodeReference
  | levelReference
  deriving DecidableEq, Repr

/-- The name of a defect in messages. -/
def Defect.name : Defect → String
  | noRootLevel => "node without a root level"
  | alwaysIndex => "reduce-always index"
  | symbol => "symbol"
  | entryKind => "require node kind"
  | reductionIndex => "reduce index"
  | reductionOffset => "reduce offset"
  | reductionHead => "reduce head"
  | flag => "predict flag"
  | startupOffset => "startup node offset"
  | nodeReference => "node reference"
  | levelReference => "level reference"

/-- Why words or bytes are not a table. -/
inductive TableError where
  /-- A word is needed that lies behind the end. -/
  | truncated (word : Nat)
  /-- A record is malformed; the word shows it. -/
  | badRecord (defect : Defect) (word : Nat)
  /-- The bytes do not make up whole words. -/
  | misaligned (length : Nat)
  deriving DecidableEq, Repr

/-- The wording of a complaint about a table. -/
def TableError.message : TableError → String
  | truncated word => "table is truncated: needed word " ++ toString word
  | badRecord defect word => "bad " ++ defect.name ++ " at word " ++ toString word
  | misaligned length =>
    "byte length " ++ toString length ++ " is not a multiple of the word size"

end BoundedLR
