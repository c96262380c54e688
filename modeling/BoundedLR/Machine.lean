import BoundedLR.ParseTable
import BoundedLR.Step

/-!
# The machine that runs a parse table

The machine has a stack of nodes, a buffer of tokens that have been read but not
yet shifted, and a cursor.  The cursor is a place in the trie of the topmost
node, together with the number of buffered tokens that have been used to get
there.

`step` makes one move.  A node that reduces without looking at the input does so
as long as none has been looked at.  Otherwise the token under the cursor is
looked up, and the trie says whether to go one level down, to shift the oldest
token or to reduce.  After a shift or a reduction the cursor is back at the root
of the node that has been entered, and the tokens that were looked at are looked
at again.  The machine waits if there is no token under the cursor.

What the machine does with its stack is left open: `StateStack` lists the few
operations it needs.  One kind of stack records the steps of the parse, another
only serves to find out whether a token would be taken; `step` is the same for
both.

Nothing bounds the number of moves in advance, since a table need not come from a
grammar.  `run` is therefore given the number of moves it may make.
-/

namespace BoundedLR

/-- The stack of nodes that the machine works on. -/
class StateStack (σ : Type) (Node : outParam Type) where
  /-- The node that lies under a given number of others. -/
  peek : σ → Nat → Option Node
  /-- Shifts a token. -/
  shift : σ → Token → Landing Node → σ
  /-- Pops the elements of a reduction and pushes the node that it leads to. -/
  reduce : σ → ReductionProperty → Landing Node → σ
  /-- Accepts the input. -/
  accept : σ → σ
  /-- Whether the input has been accepted. -/
  isAccepted : σ → Bool

/-- A place in the trie of the topmost node. -/
structure Cursor (Level : Type) where
  level : Level
  /-- How many buffered tokens have been looked at to get there. -/
  depth : Nat
  deriving DecidableEq, Repr

/-- What the machine is made of. -/
structure Configuration (σ Level : Type) where
  stack : σ
  /-- The tokens that have been read but not shifted, the oldest first. -/
  buffer : List Token
  cursor : Cursor Level
  deriving DecidableEq, Repr

/-- Why the machine cannot go on. -/
inductive Stall where
  /-- The token with this place in the buffer fits nowhere. -/
  | rejected (depth : Nat)
  /-- A reduction leads nowhere. -/
  | missingLanding (index : Nat)
  /-- A token comes although the input has been accepted. -/
  | afterAcceptance
  deriving DecidableEq, Repr

/-- What comes of trying to make a move. -/
inductive Progress (σ Level : Type) where
  | moved (next : Configuration σ Level)
  /-- The next token is needed, or the input has been accepted. -/
  | waiting
  | stalled (why : Stall)

namespace Machine

variable {σ Node Level : Type} [StateStack σ Node]

/-- Carries out an action of the topmost node. -/
def perform (t : ParseTable Node Level) (c : Configuration σ Level) (top : Node) :
    Action Node Level → Read (Progress σ Level)
  | .descend level => .ok (.moved { c with cursor := ⟨level, c.cursor.depth + 1⟩ })
  | .shift target predict =>
    match c.buffer with
    | [] => .ok (.stalled (.rejected 0))
    | token :: rest => do
      let root ← t.root target
      return .moved ⟨StateStack.shift c.stack token ⟨target, predict⟩, rest, ⟨root, 0⟩⟩
  | .reduce index => do
    let property ← t.property top index
    if property.accepts then
      return .moved { c with stack := StateStack.accept c.stack }
    else
      match StateStack.peek c.stack property.count with
      | none => return .stalled (.missingLanding index)
      | some last =>
        match ← t.landing top index last with
        | none => return .stalled (.missingLanding index)
        | some landing =>
          let root ← t.root landing.target
          return .moved ⟨StateStack.reduce c.stack property landing, c.buffer, ⟨root, 0⟩⟩

/-- Makes one move. -/
def step (t : ParseTable Node Level) (c : Configuration σ Level) : Read (Progress σ Level) :=
  if StateStack.isAccepted c.stack then
    .ok (if c.buffer.isEmpty then .waiting else .stalled .afterAcceptance)
  else do
    let top ← Read.ofOption (StateStack.peek c.stack 0)
    let always ← if c.cursor.depth = 0 then t.always top else .ok none
    match always with
    | some index => perform t c top (.reduce index)
    | none =>
      match c.buffer[c.cursor.depth]? with
      | none => return .waiting
      | some token =>
        match ← t.find top c.cursor.level token.symbol with
        | none => return .stalled (.rejected c.cursor.depth)
        | some action => perform t c top action

/-- Makes moves until the machine waits or stalls, and returns where it has come
to and why it stalled, if it did.  Fails if the given number of moves is not
enough. -/
def run (t : ParseTable Node Level) :
    Nat → Configuration σ Level → Read (Configuration σ Level × Option Stall)
  | 0, _ => .error .outOfFuel
  | moves + 1, c => do
    match ← step t c with
    | .moved next => run t moves next
    | .waiting => return (c, none)
    | .stalled why => return (c, some why)

end Machine

end BoundedLR
