import BoundedLR.Production
import BoundedLR.Step

/-!
# Derivation trees

A derivation tree says how a sentence comes about: its leaves are the tokens of
the sentence, and every inner node is a reduction with the trees of its elements.
This module knows nothing of automata or tables.  It says what a parse *is*, so
that what a parser does can be measured against it.

* `Tree.leaves` are the tokens of the sentence, from left to right.
* `Tree.trace` are the steps of the parse: the tokens and reductions in the order
  in which a parser that reads from the left completes them, and in front of the
  first step of a node its announcement if it has one.
* `Productions.Fits` says that a tree may stand in a slot: a token whose symbol is
  that of the slot, or a node whose production the slot accepts and whose children
  fit the slots of that production in turn.  A whole sentence fits the first slot
  of the synthetic production.
-/

namespace BoundedLR

/-- A derivation tree.  Its inner nodes carry labels, which say what is reduced
there. -/
inductive Tree (β : Type) where
  | leaf (token : Token)
  | node (label : β) (children : List (Tree β))

namespace Tree

variable {β : Type}

/-! ## Leaves -/

mutual

/-- The tokens of a tree, from left to right. -/
def leaves : Tree β → List Token
  | leaf token => [token]
  | node _ children => leavesOfAll children

/-- The tokens of neighbouring trees, from left to right. -/
def leavesOfAll : List (Tree β) → List Token
  | [] => []
  | t :: rest => t.leaves ++ leavesOfAll rest

end

/-! ## Steps -/

/-- The step that shifts a token.  The end of input makes none. -/
def shiftStep (token : Token) : List Step :=
  if token.symbol = .endOfInput then [] else [.shift token.symbol token.index false]

/-- The announcement of a reduction, if it has one. -/
def announcement (p : ReductionProperty) : List Step :=
  if p.predict then [.predict p.head p.mask p.rule] else []

mutual

/-- The steps of a tree whose labels stand for given reductions.  The flags of
the shifts are left out, since they belong to the table that is used. -/
def trace (property : β → ReductionProperty) : Tree β → List Step
  | leaf token => shiftStep token
  | node label children =>
    let p := property label
    announcement p ++ traceOfAll property children ++
      [.reduce p.head p.mask p.rule children.length p.predict]

/-- The steps of neighbouring trees, one after the other. -/
def traceOfAll (property : β → ReductionProperty) : List (Tree β) → List Step
  | [] => []
  | t :: rest => t.trace property ++ traceOfAll property rest

end

theorem leavesOfAll_eq_flatMap (ts : List (Tree β)) :
    leavesOfAll ts = ts.flatMap leaves := by
  induction ts with
  | nil => rfl
  | cons t rest ih => rw [leavesOfAll, List.flatMap_cons, ih]

theorem traceOfAll_eq_flatMap (property : β → ReductionProperty) (ts : List (Tree β)) :
    traceOfAll property ts = ts.flatMap (trace property) := by
  induction ts with
  | nil => rfl
  | cons t rest ih => rw [traceOfAll, List.flatMap_cons, ih]

end Tree

/-- A step without the flag that a shift takes from the table. -/
def Step.unflagged : Step → Step
  | .shift s token _ => .shift s token false
  | other => other

namespace Productions

/-- A tree that may stand in slot `e` of production `p`. -/
inductive Fits (g : Productions) : Nat → Nat → Tree Nat → Prop where
  | token {p e : Nat} {slot : Slot} {token : Token} :
      g.slot? p e = some slot → token.symbol = slot.symbol → slot.symbol.isTerminal = true →
      Fits g p e (.leaf token)
  | production {p e c : Nat} {slot : Slot} {children : List (Tree Nat)} :
      g.slot? p e = some slot → g.head? c = some slot.symbol → slot.accepts c = true →
      children.length = g.length c →
      (∀ i (t : Tree Nat), children[i]? = some t → Fits g c i t) →
      Fits g p e (.node c children)

/-- A derivation tree of a whole sentence. -/
def Sentence (g : Productions) (t : Tree Nat) : Prop := g.Fits 0 0 t

end Productions

end BoundedLR
