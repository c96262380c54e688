import BoundedLR.Automaton.Build
import BoundedLR.Text.Listing

/-!
# Describing the automaton

A description shows a state to the author of a grammar: the symbol that leads to
it, its items, its edges and its reductions, one to a line.  Besides that, the
author is warned of productions that no state can ever reduce.
-/

namespace BoundedLR

/-- A state in descriptions of tuples. -/
def stateText (n : Nat) : String := "State(" ++ toString n ++ ")"

/-- A line of a description. -/
def descriptionLine (text : String) : String := "    " ++ text ++ "\n"

namespace Edge

/-- An edge as text.  The filter is shown unless every production passes. -/
def text (e : Edge) : String :=
  e.symbol.text ++ " -> s" ++ toString e.target ++
    (if e.filter.listed.isEmpty then ""
     else (if e.filter.excluding then " except " else " for ") ++
      listing (e.filter.listed.map fun p => "Prod(" ++ toString p ++ ")"))

end Edge

namespace Reduction

/-- A reduction as text. -/
def text (g : Productions) (r : Reduction) : String :=
  "reduce " ++ g.productionText r.production ++ " from " ++
    listing (r.tuples.map fun (last, target) =>
      "(" ++ stateText last ++ ", " ++ stateText target ++ ")")

end Reduction

namespace Automaton

/-- A state as text, one line for each item, edge and reduction. -/
def describe (a : Automaton) (g : Productions) (n : Nat) : String :=
  match a.states[n]? with
  | none => ""
  | some s =>
    "s" ++ toString n ++ " (via " ++ s.via.text ++ ")\n" ++
      String.join (s.items.map fun i => descriptionLine (g.itemText i)) ++
      String.join (s.edges.map fun e => descriptionLine e.text) ++
      String.join (s.reductions.map fun r => descriptionLine (r.text g))

/-- Whether some state may reduce a production. -/
def reduces (a : Automaton) (p : Nat) : Bool :=
  a.states.any fun s => s.reductions.any (·.production == p)

/-- The productions of the author that no state may reduce, ascending. -/
def unreduced (a : Automaton) (g : Productions) : List Nat :=
  (List.range g.count).filter fun p => p ≠ 0 && !a.reduces p

/-- The warning for each production that is never reduced. -/
def warnings (a : Automaton) (g : Productions) : List String :=
  (a.unreduced g).map fun p => "production is never reduced: " ++ g.productionText p

end Automaton

end BoundedLR
