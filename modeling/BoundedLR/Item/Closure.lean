import BoundedLR.Item

/-!
# The closure of a set of items

An item with its dot before a non-terminal expects one of the productions of
that non-terminal to begin here, and of those only the ones that the slot
accepts.  So it *opens* the initial items of these productions.  The closure of
a set of items is the smallest set that holds them and everything its members
open.

Only initial items are ever opened, and there is one for each production.  Hence
a round that opens anything new uses up at least one production, and as many
rounds as there are productions are enough.  `saturate` runs the rounds and
stops at the first that adds nothing.
-/

namespace BoundedLR
namespace Productions

/-- The initial items that an item opens. -/
def openings (g : Productions) (i : Item) : List Item :=
  match g.nextSymbol i with
  | some s => ((g.derives s).filter (g.admits i)).map .initial
  | none => []

/-- Adds what the members open, round after round, until nothing is new or the
given number of rounds has passed. -/
def saturate (g : Productions) : Nat → List Item → List Item
  | 0, items => items
  | rounds + 1, items =>
    let grown := ascending (items.flatMap g.openings ++ items)
    if grown.length = items.length then items else saturate g rounds grown

/-- The smallest set of items that holds the seeds and everything its members
open, in ascending order. -/
def closure (g : Productions) (seeds : List Item) : List Item :=
  g.saturate g.count (ascending seeds)

/-- The closure as a relation: what the seeds and the items opened from them
reach. -/
inductive Reaches (g : Productions) (seeds : List Item) : Item → Prop where
  | seed {i : Item} : i ∈ seeds → Reaches g seeds i
  | opened {i j : Item} : Reaches g seeds i → j ∈ g.openings i → Reaches g seeds j

/-- Saturation only adds items that the seeds reach. -/
theorem reaches_of_mem_saturate {g : Productions} {seeds : List Item} {rounds : Nat}
    {items : List Item} (h : ∀ i ∈ items, g.Reaches seeds i) :
    ∀ i ∈ g.saturate rounds items, g.Reaches seeds i := by
  induction rounds generalizing items with
  | zero => simpa [saturate] using h
  | succ rounds ih =>
      unfold saturate
      dsimp only
      split
      · exact h
      · apply ih
        intro i hi
        rcases List.mem_append.1 (mem_ascending.1 hi) with hi | hi
        · obtain ⟨j, hj, hij⟩ := List.mem_flatMap.1 hi
          exact .opened (h j hj) hij
        · exact h i hi

/-- Every member of the closure is reached from the seeds. -/
theorem reaches_of_mem_closure {g : Productions} {seeds : List Item} :
    ∀ i ∈ g.closure seeds, g.Reaches seeds i :=
  reaches_of_mem_saturate fun _ hi => .seed (mem_ascending.1 hi)

end Productions
end BoundedLR
