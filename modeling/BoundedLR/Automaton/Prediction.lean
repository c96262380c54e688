import BoundedLR.Automaton

/-!
# Where an announcement may still be due

A production that asks for an announcement has it placed in front of everything
it derives, and that is known only when the production is reduced.  Until then
nothing behind the place may be handed out.  So every state has to know whether
such a reduction may still lie ahead.

From a state the parser moves on over a terminal edge, or by a reduction to the
state that one of its tuples enters.  A state *announces* if some sequence of
such moves, possibly empty, leads to a state that reduces a production which
asks for an announcement.  The marks are spread backwards, one move at a time,
until nothing changes; a mark travels at most as many moves as there are states.
-/

namespace BoundedLR
namespace Automaton

/-- The states that one move leads to: a shift, or the entry of a reduction. -/
def successors (a : Automaton) (state : Nat) : List Nat :=
  (a.terminalEdges state).map (·.target) ++
    (a.reductions state).flatMap fun r => r.tuples.map (·.2)

/-- Whether a state itself reduces a production that asks for an announcement. -/
def reducesPredicted (a : Automaton) (g : Productions) (state : Nat) : Bool :=
  (a.reductions state).any fun r => (g.all[r.production]?).any (·.predict)

/-- Spreads marks backwards over the moves, for a given number of rounds at
most. -/
def spreadMarks (next : Array (List Nat)) : Nat → Array Bool → Array Bool
  | 0, marks => marks
  | rounds + 1, marks =>
    let spread := marks.mapIdx fun state mark =>
      mark || (next.getD state []).any fun target => marks.getD target false
    if spread = marks then marks else spreadMarks next rounds spread

/-- For each state whether it announces. -/
def announcing (a : Automaton) (g : Productions) : Array Bool :=
  let states := Array.range a.count
  spreadMarks (states.map a.successors) a.count (states.map (a.reducesPredicted g))

/-- A state from which some moves lead to the reduction of a production that
asks for an announcement. -/
inductive Announces (a : Automaton) (g : Productions) : Nat → Prop where
  | here {state : Nat} : a.reducesPredicted g state = true → Announces a g state
  | later {state next : Nat} :
      next ∈ a.successors state → Announces a g next → Announces a g state

end Automaton
end BoundedLR
