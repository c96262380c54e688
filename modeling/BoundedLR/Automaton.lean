import BoundedLR.Item.Closure

/-!
# The automaton of item sets

A state of the automaton is the set of items that a parser may be in the middle
of.  It is determined by its *kernel*, the items with the symbol that led here
before the dot; its items are the closure of the kernel.

An edge leads on when a symbol has been recognised.  On a terminal there is one
edge.  On a non-terminal there may be several, because slots may accept only
some of the productions of their symbol: then the production that has just been
completed chooses among the edges.  An edge therefore carries a filter on the
completed production.

A state in which an item is complete may reduce its production.  Doing so
uncovers the state in which the production began, and from there the edge on the
head of the production leads on.  The pairs of these two states are the *tuples*
of the reduction.

States are numbered from zero, and state `0` is where every parse starts.
-/

namespace BoundedLR

/-- Which completed productions take an edge. -/
structure ProductionFilter where
  /-- Empty if every production takes the edge; ascending. -/
  listed : List Nat
  /-- Whether the listed productions are those that do not take the edge. -/
  excluding : Bool
  deriving DecidableEq, Repr

namespace ProductionFilter

/-- The filter that lets every production pass. -/
def all : ProductionFilter := ⟨[], false⟩

/-- Whether a completed production passes. -/
def accepts (f : ProductionFilter) (p : Nat) : Bool :=
  f.listed.isEmpty || (f.listed.contains p != f.excluding)

/-- The filter for a group among the candidates, stored as whichever is shorter:
the group or the candidates outside it.  The group wins a tie. -/
def ofGroup (candidates group : List Nat) : ProductionFilter :=
  if group.length = candidates.length then all
  else
    let excluded := candidates.filter fun c => !group.contains c
    if excluded.length < group.length then ⟨excluded, true⟩ else ⟨group, false⟩

end ProductionFilter

/-- An edge from one state to another. -/
structure Edge where
  symbol : Symbol
  target : Nat
  filter : ProductionFilter
  deriving DecidableEq, Repr

/-- A reduction that a state may perform. -/
structure Reduction where
  production : Nat
  /-- The state that is uncovered and the state that is entered, ascending. -/
  tuples : List (Nat × Nat)
  deriving DecidableEq, Repr

/-- A state of the automaton. -/
structure State where
  /-- The symbol on every edge into the state. -/
  via : Symbol
  kernel : List Item
  items : List Item
  /-- The edges in the order of their symbols. -/
  edges : List Edge
  reductions : List Reduction
  deriving DecidableEq, Repr

namespace State

/-- The edges on terminals. -/
def terminalEdges (s : State) : List Edge := s.edges.filter (·.symbol.isTerminal)

/-- Whether the state may shift a terminal. -/
def hasTerminalEdge (s : State) : Bool := s.edges.any (·.symbol.isTerminal)

/-- The edges on one symbol. -/
def edgesOn (s : State) (symbol : Symbol) : List Edge := s.edges.filter (·.symbol == symbol)

end State

/-- The states of a grammar, by number. -/
structure Automaton where
  states : Array State
  deriving DecidableEq, Repr

namespace Automaton

/-- How many states there are. -/
def count (a : Automaton) : Nat := a.states.size

/-- The edges of a state on a symbol. -/
def edgesOn (a : Automaton) (state : Nat) (symbol : Symbol) : List Edge :=
  match a.states[state]? with
  | some s => s.edgesOn symbol
  | none => []

/-- The kernel of a state. -/
def kernel (a : Automaton) (state : Nat) : List Item :=
  match a.states[state]? with
  | some s => s.kernel
  | none => []

/-- The reductions of a state. -/
def reductions (a : Automaton) (state : Nat) : List Reduction :=
  match a.states[state]? with
  | some s => s.reductions
  | none => []

/-- The edges of a state on terminals. -/
def terminalEdges (a : Automaton) (state : Nat) : List Edge :=
  match a.states[state]? with
  | some s => s.terminalEdges
  | none => []

/-- Where the first edge on a symbol leads. -/
def shift (a : Automaton) (state : Nat) (symbol : Symbol) : Option Nat :=
  (a.edgesOn state symbol).head?.map (·.target)

/-- Where the edge leads that a completed production takes. -/
def goto (a : Automaton) (state : Nat) (symbol : Symbol) (p : Nat) : Option Nat :=
  ((a.edgesOn state symbol).find? (·.filter.accepts p)).map (·.target)

/-- The states that the first `k` slots of a production lead to.  Only edges
count that carry the production along: the item with the dot moved must be in
the kernel that the edge leads to. -/
def statesAfter (a : Automaton) (g : Productions) (first p : Nat) : Nat → List Nat
  | 0 => [first]
  | k + 1 =>
    match g.slot? p k with
    | none => []
    | some slot =>
      ascending <| (a.statesAfter g first p k).flatMap fun state =>
        (a.edgesOn state slot.symbol).filterMap fun edge =>
          if (a.kernel edge.target).contains ⟨p, k + 1⟩ then some edge.target else none

end Automaton

end BoundedLR
