import BoundedLR.Automaton

/-!
# Stacks of which only the top is known

While a state is being compiled, nobody knows which states a parser will have
below it.  What can be followed is the known top part of the stack.  A reduction
that stays inside the known part is exact.  One that pops deeper uncovers a state
that is not known; it must be among the states in which the reduced production
may have begun, and it must be one from which the popped part leads to the known
bottom.  Every such state is tried, so one reduction may have several outcomes.

The set of outcomes may be larger than what a real parser can meet, never
smaller.

The `base` of a partial stack is the depth at which its lowest known state sits,
up to a common offset: it only serves to compare the stacks of one chain of
reductions with each other.
-/

namespace BoundedLR

/-- The known top part of a stack, with the topmost state first. -/
structure PartialStack where
  base : Int
  states : List Nat
  deriving DecidableEq, Repr

namespace PartialStack

/-- The stack of which nothing but one state is known. -/
def single (state : Nat) : PartialStack := ⟨0, [state]⟩

/-- The stack after one more state has been pushed. -/
def push (c : PartialStack) (state : Nat) : PartialStack := ⟨c.base, state :: c.states⟩

/-- The outcomes of reducing a production in the topmost state. -/
def reduce (a : Automaton) (g : Productions) (c : PartialStack) (p : Nat) :
    List PartialStack :=
  match c.states.head?, c.states.getLast? with
  | some top, some bottom =>
    match (a.reductions top).find? (·.production == p) with
    | none => []
    | some r =>
      let length := g.length p
      match c.states[length]? with
      | some uncovered =>
        (r.tuples.filter fun (last, _) => last == uncovered).map fun (_, target) =>
          ⟨c.base, target :: c.states.drop length⟩
      | none =>
        let hidden := length + 1 - c.states.length
        (r.tuples.filter fun (last, _) => (a.statesAfter g last p hidden).contains bottom).map
          fun (last, target) => ⟨c.base - hidden, [target, last]⟩
  | _, _ => []

/-- How many of the lowest states have been there since the chain of reductions
began, after a production of the given length has been reduced.  If the
reduction pops below the known part, that is the one state it uncovers. -/
def settledAfter (c : PartialStack) (settled length : Nat) : Nat :=
  if length < c.states.length then min settled (c.states.length - length) else 1

/-- Whether the topmost state equals another state that the chain itself has
pushed, `settled` being the number of lower states that it has not. -/
def stacksItself (c : PartialStack) (settled : Nat) : Bool :=
  match c.states with
  | [] => false
  | top :: below => (below.take (below.length - settled)).contains top

/-- Whether the stack comes back to an earlier one without lying deeper. -/
def repeats (trail : List PartialStack) (c : PartialStack) : Bool :=
  trail.any fun earlier => earlier.states == c.states && decide (earlier.base ≤ c.base)

end PartialStack

end BoundedLR
