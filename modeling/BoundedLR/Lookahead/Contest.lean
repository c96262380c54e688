import BoundedLR.Automaton.Prediction
import BoundedLR.Grammar.Error
import BoundedLR.Lookahead.PartialStack
import BoundedLR.Lookahead.Trie

/-!
# Settling contests between actions

A state with two reductions, or with a reduction and a shift, has several
*choices*, and only the input to come can tell which of them is right.  This
module follows every choice on partial stacks and builds the trie that tells the
choices apart.

## Following a choice

`Contest.visit` performs every reduction that can come next without input, and
every reduction after that, and records each terminal that can be shifted on the
way as a `Continuation`: the choice it belongs to, the terminal, and the stack
after the shift.  A chain of reductions that comes back to one of its stacks, or
stacks a state on top of itself, could go on forever and is refused.  A stack
that has been expanded before is not expanded again.  On one chain the states
that have been pushed and not popped differ from each other, so stacks stay
short, and they all differ; this bounds the depth of the search.

## Splitting

The continuations are grouped by their terminal.  A terminal that only one
choice can come to settles it.  A terminal that several choices share needs the
symbol after it: the stacks of the group are followed in turn and the level below
is built from what they find.  There is no hope if the shared terminal is the end
of input, or if two choices have arrived at the same stack; and none within the
bound if as many symbols have been read as it allows.
-/

namespace BoundedLR

/-- One of the actions that a state has to choose from.  A reduction is given by
its place among the reductions of the state. -/
inductive Choice where
  | shift
  | reduce (index : Nat)
  deriving DecidableEq, Repr

namespace Choice

/-- The position of a choice among all choices: the shift comes first. -/
def rank : Choice → Nat
  | shift => 0
  | reduce index => index + 1

instance : Ord Choice where
  compare := compareOn rank

instance : Std.TransOrd Choice := inferInstanceAs (Std.TransCmp (compareOn rank))

instance : Std.LawfulEqOrd Choice where
  eq_of_compare {a b} h := by
    have h : a.rank = b.rank := Std.LawfulEqOrd.eq_of_compare h
    cases a <;> cases b <;> simp_all [rank]

end Choice

/-- What a compiled state does once its trie has settled. -/
inductive Decision where
  /-- Shift the oldest symbol that has been read. -/
  | shift (target : Nat) (predict : Bool)
  /-- Perform the reduction with this place among those of the state. -/
  | reduce (index : Nat)
  deriving DecidableEq, Repr

/-- A terminal that can come next when a choice is made. -/
structure Continuation where
  choice : Choice
  symbol : Symbol
  /-- The known states after the terminal has been shifted, from the lowest to
  the topmost. -/
  stack : List Nat
  deriving DecidableEq, Repr

namespace Continuation

/-- Continuations are sorted by choice, then by terminal, then by stack. -/
instance : Ord Continuation where
  compare := compareLex (compareOn (·.choice))
    (compareLex (compareOn (·.symbol)) (compareOn (·.stack)))

instance : Std.TransOrd Continuation :=
  inferInstanceAs (Std.TransCmp
    (compareLex (compareOn fun c : Continuation => c.choice)
      (compareLex (compareOn fun c : Continuation => c.symbol)
        (compareOn fun c : Continuation => c.stack))))

instance : Std.LawfulEqOrd Continuation where
  eq_of_compare {a b} h := by
    obtain ⟨c, s, w⟩ := a
    obtain ⟨d, t, v⟩ := b
    have h := compareLex_eq_eq.1 h
    have h₂ := compareLex_eq_eq.1 h.2
    have hc : c = d := Std.LawfulEqOrd.eq_of_compare h.1
    have hs : s = t := Std.LawfulEqOrd.eq_of_compare h₂.1
    have hw : w = v := Std.LawfulEqOrd.eq_of_compare h₂.2
    rw [hc, hs, hw]

end Continuation

/-- A state whose choices have to be told apart, and what is known about it. -/
structure Contest where
  productions : Productions
  automaton : Automaton
  /-- For each state whether it announces. -/
  announcing : Array Bool
  state : Nat
  /-- How many symbols may be read to settle on an action. -/
  bound : Nat

namespace Contest

/-! ## Complaints -/

/-- The author's rules with an item in the kernel of the state. -/
def rules (k : Contest) : List Nat :=
  ((k.automaton.kernel k.state).filterMap fun i => ruleOfProduction? i.production).eraseReps

/-- How a choice of the state is named in a complaint. -/
def competitor (k : Contest) : Choice → Competitor
  | .shift => .shift
  | .reduce index =>
    match (k.automaton.reductions k.state)[index]? with
    | some r => .reduce ((ruleOfProduction? r.production).getD 0)
    | none => .reduce 0

/-- A complaint about the state. -/
def complaint (k : Contest) (kind : ConflictKind) (lookahead : List Symbol)
    (choices : List Choice) (reductions : List Nat) : Conflict :=
  ⟨kind, k.bound, k.state, k.rules, lookahead, choices.map k.competitor, reductions⟩

/-! ## Following a choice -/

/-- What following a choice has brought up so far. -/
structure Survey where
  /-- The stacks that have been expanded. -/
  explored : List (List Nat)
  found : List Continuation

/-- The terminals that can be shifted on a stack. -/
def shifts (k : Contest) (choice : Choice) (c : PartialStack) : List Continuation :=
  match c.states.head? with
  | none => []
  | some top =>
    (k.automaton.terminalEdges top).map fun e =>
      ⟨choice, e.symbol, (c.push e.target).states.reverse⟩

/-- The productions that may be reduced on a stack without accepting the
input. -/
def reducible (k : Contest) (c : PartialStack) : List Nat :=
  match c.states.head? with
  | none => []
  | some top =>
    ((k.automaton.reductions top).map (·.production)).filter fun p => p ≠ 0

/-- Expands a stack at the end of a chain of reductions, and everything that
further reductions lead to.  The chain is given by its earlier stacks and by the
productions it has reduced, the latest first; `settled` tells how many of the
lowest states were there before it.  Fails with the productions of a chain that
could go on forever. -/
def visit (k : Contest) (choice : Choice) : Nat → List PartialStack → List Nat → Nat →
    PartialStack → Survey → Except (List Nat) Survey
  | 0, _, _, _, _, survey => .ok survey
  | depth + 1, trail, reduced, settled, c, survey =>
    if PartialStack.repeats trail c || c.stacksItself settled then .error reduced.reverse
    else if survey.explored.contains c.states then .ok survey
    else
      let survey : Survey := ⟨c.states :: survey.explored, k.shifts choice c ++ survey.found⟩
      (k.reducible c).foldlM (fun survey p =>
        (c.reduce k.automaton k.productions p).foldlM (fun survey next =>
          visit k choice depth (c :: trail) (p :: reduced)
            (c.settledAfter settled (k.productions.length p)) next survey) survey) survey

/-- A depth that no chain of reductions reaches which starts from a stack of the
given length: on the way stacks differ, and none is longer than the first by
more than the number of states and one. -/
def depthBound (k : Contest) (length : Nat) : Nat :=
  Nat.pow (k.automaton.count + 1) (length + k.automaton.count + 2)

/-- The terminals that can come next on a stack, when reductions may come first.
The stack has been reached by the reductions `via`, with the given lookahead. -/
def follow (k : Contest) (lookahead : List Symbol) (choice : Choice) (via : List Nat)
    (c : PartialStack) : Except Conflict (List Continuation) :=
  match k.visit choice (k.depthBound c.states.length) [] via c.states.length c ⟨[], []⟩ with
  | .ok survey => .ok survey.found
  | .error reduced =>
    .error (k.complaint .endlessReduction lookahead [choice]
      (reduced.filterMap ruleOfProduction?))

/-! ## Splitting -/

/-- What the trie says once a single choice is left. -/
def decision? (k : Contest) (path : List Symbol) : Choice → Option Decision
  | .reduce index => some (.reduce index)
  | .shift =>
    match path.head? with
    | none => none
    | some first =>
      (k.automaton.shift k.state first).map fun target =>
        .shift target (k.announcing.getD target false)

/-- Whether two choices have arrived at the same stack. -/
def collides (group : List Continuation) : Bool :=
  group.any fun c => group.any fun d => c.choice ≠ d.choice && c.stack == d.stack

/-- Fills one level of the trie from the continuations behind `path`, one
terminal after the other.  A terminal that leaves more than one choice is handed
to `below`, with the way down to it. -/
def level (k : Contest) (below : List Symbol → List Choice → List Continuation →
      Except Conflict (Trie Decision))
    (path : List Symbol) (continuations : List Continuation) :
    List Symbol → Except Conflict (Trie Decision)
  | [] => .ok .done
  | s :: rest => do
    let group := ascending (continuations.filter fun c => c.symbol == s)
    let choices := ascending (group.map (·.choice))
    let here := path ++ [s]
    match choices with
    | [choice] =>
      match k.decision? here choice with
      | some decision => return .leaf s decision (← k.level below path continuations rest)
      | none => k.level below path continuations rest
    | _ =>
      if s = .endOfInput || collides group then
        throw (k.complaint .ambiguity here choices [])
      let deeper ← below here choices group
      return .branch s deeper (← k.level below path continuations rest)

/-- The terminals that continuations begin with, ascending. -/
def terminals (continuations : List Continuation) : List Symbol :=
  ascending (continuations.map (·.symbol))

/-- Builds the trie for the continuations behind `path`.  The first argument says
how many levels may lie below the one that is being filled. -/
def split (k : Contest) : Nat → List Symbol → List Continuation →
    Except Conflict (Trie Decision)
  | 0, path, continuations =>
    k.level (fun here choices _ =>
        .error (k.complaint .lookaheadExhausted here choices []))
      path continuations (terminals continuations)
  | levels + 1, path, continuations =>
    k.level (fun here _ group => do
        let next ← group.mapM fun c =>
          k.follow here c.choice [] ⟨0, c.stack.reverse⟩
        split k levels here next.flatten)
      path continuations (terminals continuations)

/-- The choices of the state. -/
def choices (k : Contest) : List Choice :=
  let shift := if (k.automaton.terminalEdges k.state).isEmpty then [] else [Choice.shift]
  shift ++ (List.range (k.automaton.reductions k.state).length).map .reduce

/-- The continuations of a reduction of the state.  Accepting the input has
none. -/
def followReduction (k : Contest) (index p : Nat) :
    Except Conflict (List Continuation) := do
  if p = 0 then return []
  let outcomes := (PartialStack.single k.state).reduce k.automaton k.productions p
  let found ← outcomes.mapM (k.follow [] (.reduce index) [p])
  return found.flatten

/-- The trie that tells the choices of the state apart. -/
def settle (k : Contest) : Except Conflict (Trie Decision) :=
  match k.bound with
  | 0 => .error (k.complaint .lookaheadExhausted [] k.choices [])
  | levels + 1 => do
    let shifts := k.shifts .shift (.single k.state)
    let reductions ← (k.automaton.reductions k.state).zipIdx.mapM fun (r, index) =>
      k.followReduction index r.production
    k.split levels [] (shifts ++ reductions.flatten)

end Contest

end BoundedLR
