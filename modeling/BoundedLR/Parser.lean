import BoundedLR.Automaton.Build
import BoundedLR.Grammar.Normalize
import BoundedLR.Lookahead.Contest
import BoundedLR.ParseTable

/-!
# Compiled grammars

Compiling a grammar gives a parser: for each state of the automaton a node, which
holds the decision trie of the state and its reductions.

There are three kinds of state.  One that can do nothing but reduce a single
production does so without looking at the input, and its trie is empty.  One that
can only shift needs one symbol, and its trie has a single level.  Every other
state is conflicted, and `Contest.settle` builds its trie, or explains why there
is none within the bound.  States are compiled in the order of their numbers, so
the complaint is about the first state that cannot be settled.

A parser is a parse table.  Its nodes are numbers, and its levels are the tries
themselves: a place in a trie is what is left of it from there on.
-/

namespace BoundedLR

/-- A reduction of a compiled state. -/
structure NodeReduction where
  production : Nat
  property : ReductionProperty
  tuples : List Tuple
  deriving DecidableEq, Repr

/-- A compiled state. -/
structure Node where
  trie : Trie Decision
  /-- The reduction that is performed without looking at the input. -/
  always : Option Nat
  reductions : List NodeReduction
  deriving DecidableEq, Repr

/-- How many symbols a node may have to look at.  It is the depth that is noted while
the trie of the node is filled (`Trie.recorded_eq_lookahead`). -/
def Node.lookahead (n : Node) : Nat := n.trie.lookahead

/-- A compiled grammar. -/
structure Parser where
  productions : Productions
  automaton : Automaton
  nodes : Array Node
  /-- How many symbols any node may look at. -/
  bound : Nat
  deriving DecidableEq, Repr

/-! ## Compilation -/

/-- The trie of a state that can only shift. -/
def shiftTrie (announcing : Array Bool) : List Edge → Trie Decision
  | [] => .done
  | e :: rest =>
    .leaf e.symbol (.shift e.target (announcing.getD e.target false))
      (shiftTrie announcing rest)

namespace Contest

/-- The reductions of the state with their properties and flags. -/
def nodeReductions (k : Contest) (s : State) : List NodeReduction :=
  s.reductions.map fun r =>
    ⟨r.production, k.productions.property r.production,
      r.tuples.map fun (last, target) => ⟨last, target, k.announcing.getD target false⟩⟩

/-- The node for the state. -/
def node (k : Contest) (s : State) : Except Conflict Node :=
  let reductions := k.nodeReductions s
  match reductions, s.hasTerminalEdge with
  | [_], false => .ok ⟨.done, some 0, reductions⟩
  | [], _ => .ok ⟨shiftTrie k.announcing s.terminalEdges, none, reductions⟩
  | _, _ => do
    let trie ← k.settle
    return ⟨trie, none, reductions⟩

end Contest

/-- The nodes for all states of an automaton, or the complaint about the first
state that cannot be settled. -/
def compileNodes (g : Productions) (a : Automaton) (bound : Nat) :
    Except Conflict (List Node) :=
  let announcing := a.announcing g
  a.states.toList.zipIdx.mapM fun (s, n) =>
    Contest.node ⟨g, a, announcing, n, bound⟩ s

/-- Compiles a grammar.  The bound limits how many symbols a state may look at to
settle on an action; with zero only grammars without any conflict compile. -/
def Grammar.compile (grammar : Grammar) (bound : Nat) : Except GrammarError Parser := do
  let g ← grammar.normalize
  let a := g.automaton
  match compileNodes g a bound with
  | .ok nodes => return ⟨g, a, nodes.toArray, bound⟩
  | .error conflict => throw (.conflict conflict)

/-! ## The parser as a table -/

namespace Parser

/-- The node of a state. -/
def node (p : Parser) (n : Nat) : Read Node := .ofOption p.nodes[n]?

/-- A reduction of a node. -/
def reduction (p : Parser) (n index : Nat) : Read NodeReduction := do
  let node ← p.node n
  .ofOption node.reductions[index]?

/-- What an entry of a trie means to a parser. -/
def actionOf : TrieEntry Decision → Action Nat (Trie Decision)
  | .settled (.shift target predict) => .shift target predict
  | .settled (.reduce index) => .reduce index
  | .deeper below => .descend below

/-- A parser as a parse table. -/
def table (p : Parser) : ParseTable Nat (Trie Decision) where
  startup := 0
  root n := (p.node n).map (·.trie)
  lookahead n := (p.node n).map (·.lookahead)
  always n := (p.node n).map (·.always)
  find _ level s := .ok ((level.find? s).map actionOf)
  symbols _ level := .ok level.symbols
  property n index := (p.reduction n index).map (·.property)
  landing n index last := (p.reduction n index).map fun r =>
    (r.tuples.find? (·.last == last)).map fun t => ⟨t.target, t.predict⟩

end Parser

end BoundedLR
