import BoundedLR.Automaton

/-!
# Building the automaton

The construction starts from the kernel that holds the synthetic production with
the dot in front, and works through the states in the order of their numbers.
The moves of a state depend on its items alone: `Productions.moves` lists, for
each symbol behind a dot, the kernels that recognising the symbol leads to.  A
kernel that has been met before keeps its number, a new one gets the next, and
is worked through in its turn.  There are no more kernels than sets of items, so
that many rounds suffice.

On a non-terminal the productions that begin in the state are grouped by the
kernel they lead to.  A production leads to the advances of exactly those items
whose slot accepts it, and the groups come in the order of their kernels.

Once all edges are known, `reductionTuples` finds for every complete item the
states in which its production may have begun.
-/

namespace BoundedLR

/-- Where recognising a symbol leads: the kernel reached, and which completed
productions go there. -/
structure Move where
  symbol : Symbol
  kernel : List Item
  filter : ProductionFilter
  deriving DecidableEq, Repr

namespace Productions

/-! ## Moves -/

/-- The advances of the items before `symbol` whose slot a production may
complete. -/
def kernelOver (g : Productions) (before : List Item) (candidate : Nat) : List Item :=
  (before.filter fun i => g.admits i candidate).map .advance

/-- The productions of a symbol that begin in a set of items. -/
def candidates (g : Productions) (items : List Item) (symbol : Symbol) : List Nat :=
  (items.filter fun i => i.dot == 0 && g.head? i.production == some symbol).map (·.production)

/-- The moves of a set of items over one symbol. -/
def movesOn (g : Productions) (items : List Item) (symbol : Symbol) : List Move :=
  let before := items.filter fun i => g.nextSymbol i == some symbol
  if symbol.isTerminal then [⟨symbol, before.map .advance, .all⟩]
  else
    let candidates := g.candidates items symbol
    let outcomes := candidates.map fun c => (c, g.kernelOver before c)
    let kernels := ascending ((outcomes.map (·.2)).filter fun kernel => !kernel.isEmpty)
    kernels.map fun kernel =>
      let group := (outcomes.filter fun (_, k) => k == kernel).map (·.1)
      ⟨symbol, kernel, .ofGroup candidates group⟩

/-- The moves of a set of items, in the order of their symbols. -/
def moves (g : Productions) (items : List Item) : List Move :=
  (ascending (items.filterMap g.nextSymbol)).flatMap (g.movesOn items)

end Productions

/-! ## Numbering -/

/-- A kernel that has been given a number, with the symbol that led to it. -/
structure Core where
  via : Symbol
  kernel : List Item
  deriving DecidableEq, Repr

/-- The number of a kernel, which is entered at the end of the list if it is
new. -/
def numberCore (cores : Array Core) (core : Core) : Nat × Array Core :=
  match cores.findIdx? fun c => c.kernel == core.kernel with
  | some n => (n, cores)
  | none => (cores.size, cores.push core)

/-- Turns moves into edges, numbering their kernels from left to right. -/
def numberMoves (cores : Array Core) : List Move → List Edge × Array Core
  | [] => ([], cores)
  | m :: rest =>
    let (target, cores) := numberCore cores ⟨m.symbol, m.kernel⟩
    let (edges, cores) := numberMoves cores rest
    (⟨m.symbol, target, m.filter⟩ :: edges, cores)

namespace Productions

/-- The reductions of a set of items, their tuples not yet known. -/
def completions (g : Productions) (items : List Item) : List Reduction :=
  (items.filter g.isComplete).map fun i => ⟨i.production, []⟩

/-- Works through the kernels that have a number but no state yet, for a given
number of rounds at most. -/
def explore (g : Productions) : Nat → Array Core → Array State → Array State
  | 0, _, done => done
  | rounds + 1, cores, done =>
    match cores[done.size]? with
    | none => done
    | some core =>
      let items := g.closure core.kernel
      let (edges, cores) := numberMoves cores (g.moves items)
      g.explore rounds cores (done.push ⟨core.via, core.kernel, items, edges, g.completions items⟩)

/-- How many items the productions have. -/
def itemCount (g : Productions) : Nat :=
  ((List.range g.count).map fun p => g.length p + 1).foldr (· + ·) 0

/-- The kernel that every parse starts from. -/
def startCore : Core := ⟨.start, [.initial 0]⟩

/-- The states of the automaton without the tuples of their reductions. -/
def skeleton (g : Productions) : Automaton :=
  ⟨g.explore (Nat.pow 2 g.itemCount) #[startCore] #[]⟩

end Productions

/-! ## Tuples -/

namespace Automaton

/-- The states in which a production may begin so that it ends in a given state,
each with the state that is entered once the production is reduced. -/
def reductionTuples (a : Automaton) (g : Productions) (last p : Nat) : List (Nat × Nat) :=
  match g.head? p with
  | none => []
  | some head =>
    (List.range a.count).filterMap fun first =>
      match a.states[first]? with
      | none => none
      | some s =>
        if p ≠ 0 ∧ s.items.contains (.initial p) then
          match a.goto first head p with
          | none => none
          | some target =>
            if (a.statesAfter g first p (g.length p)).contains last then some (first, target)
            else none
        else none

/-- Fills in the tuples of all reductions. -/
def withTuples (a : Automaton) (g : Productions) : Automaton :=
  ⟨a.states.mapIdx fun last s =>
    { s with reductions := s.reductions.map fun r =>
        { r with tuples := a.reductionTuples g last r.production } }⟩

end Automaton

/-- The automaton of a grammar in normal form. -/
def Productions.automaton (g : Productions) : Automaton :=
  g.skeleton.withTuples g

end BoundedLR
