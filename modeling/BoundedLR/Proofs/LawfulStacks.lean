import BoundedLR.Machine.DryRun

/-!
# The two stacks are stacks

The machine knows its stack only through the operations of `StateStack`.  What
their names promise is stated here in terms of what is seen when one looks into
the stack.  A stack *shows* a list of nodes if looking under any number of them
finds the next.  A recorded stack and a dry run both keep the promise, although a
dry run keeps its nodes in two places.
-/

namespace BoundedLR

/-- A stack whose operations do what their names promise. -/
class LawfulStack (σ : Type) (Node : outParam Type) [StateStack σ Node] : Prop where
  peek_shift_zero (s : σ) (token : Token) (landing : Landing Node) :
    StateStack.peek (StateStack.shift s token landing) 0 = some landing.target
  peek_shift_succ (s : σ) (token : Token) (landing : Landing Node) (n : Nat) :
    StateStack.peek (StateStack.shift s token landing) (n + 1) = StateStack.peek s n
  peek_reduce_zero (s : σ) (q : ReductionProperty) (landing : Landing Node) :
    StateStack.peek (StateStack.reduce s q landing) 0 = some landing.target
  peek_reduce_succ (s : σ) (q : ReductionProperty) (landing : Landing Node) (n : Nat) :
    StateStack.peek (StateStack.reduce s q landing) (n + 1) = StateStack.peek s (q.count + n)
  peek_accept (s : σ) (n : Nat) :
    StateStack.peek (StateStack.accept s) n = StateStack.peek s n
  isAccepted_shift (s : σ) (token : Token) (landing : Landing Node) :
    StateStack.isAccepted (StateStack.shift s token landing) = StateStack.isAccepted s
  isAccepted_reduce (s : σ) (q : ReductionProperty) (landing : Landing Node) :
    StateStack.isAccepted (StateStack.reduce s q landing) = StateStack.isAccepted s
  isAccepted_accept (s : σ) : StateStack.isAccepted (StateStack.accept s) = true

/-! ## What a stack shows -/

/-- Looking into the stack finds these nodes, the topmost first. -/
def Shows {σ Node : Type} [StateStack σ Node] (s : σ) (nodes : List Node) : Prop :=
  ∀ n, StateStack.peek s n = nodes[n]?

namespace Shows

variable {σ Node : Type} [StateStack σ Node] [LawfulStack σ Node] {s : σ} {nodes : List Node}

theorem shift (h : Shows s nodes) (token : Token) (landing : Landing Node) :
    Shows (StateStack.shift s token landing) (landing.target :: nodes) := by
  intro n
  cases n with
  | zero => exact LawfulStack.peek_shift_zero s token landing
  | succ n => exact (LawfulStack.peek_shift_succ s token landing n).trans (h n)

theorem reduce (h : Shows s nodes) (q : ReductionProperty) (landing : Landing Node) :
    Shows (StateStack.reduce s q landing) (landing.target :: nodes.drop q.count) := by
  intro n
  cases n with
  | zero => exact LawfulStack.peek_reduce_zero s q landing
  | succ n =>
      rw [LawfulStack.peek_reduce_succ, h, List.getElem?_cons_succ, List.getElem?_drop]

end Shows

variable {Node : Type}

/-! ## Recorded stacks -/

theorem Record.shows (r : Record Node) : Shows r (r.entries.map (·.node)) := by
  intro n
  rw [List.getElem?_map]
  rfl

/-- A recorded stack shows nothing but its entries. -/
theorem Record.nodes_eq_of_shows {r : Record Node} {nodes : List Node} (h : Shows r nodes) :
    r.entries.map (·.node) = nodes :=
  List.ext_getElem? fun n => (r.shows n).symm.trans (h n)

instance : LawfulStack (Record Node) Node where
  peek_shift_zero _ _ _ := rfl
  peek_shift_succ _ _ _ _ := rfl
  peek_reduce_zero _ _ _ := rfl
  peek_reduce_succ _ _ _ _ := congrArg (Option.map _) List.getElem?_drop
  peek_accept _ _ := rfl
  isAccepted_shift _ _ _ := rfl
  isAccepted_reduce _ _ _ := rfl
  isAccepted_accept _ := rfl

/-! ## Dry runs -/

namespace DryRun

/-- The nodes that a dry run has pushed lie on those that it has kept. -/
theorem peek_eq (d : DryRun Node) (n : Nat) :
    d.peek n = (d.pushed ++ d.kept.map (·.node))[n]? := by
  rw [peek]
  by_cases hn : n < d.pushed.length
  · rw [List.getElem?_append_left hn, List.getElem?_eq_getElem hn]
  · have hle : d.pushed.length ≤ n := Nat.le_of_not_lt hn
    rw [List.getElem?_append_right hle, List.getElem?_eq_none hle, List.getElem?_map]

theorem shows (d : DryRun Node) : Shows d (d.pushed ++ d.kept.map (·.node)) := d.peek_eq

/-- Popping takes nodes from the top, wherever they are kept. -/
theorem nodes_pop (d : DryRun Node) (count : Nat) :
    (d.pop count).pushed ++ (d.pop count).kept.map (·.node) =
      (d.pushed ++ d.kept.map (·.node)).drop count := by
  rw [pop, List.drop_append, List.map_drop]

end DryRun

instance : LawfulStack (DryRun Node) Node where
  peek_shift_zero _ _ _ := rfl
  peek_shift_succ d _ landing n := by
    change (d.push landing.target).peek (n + 1) = d.peek n
    rw [DryRun.peek_eq, DryRun.peek_eq]
    rfl
  peek_reduce_zero _ _ _ := rfl
  peek_reduce_succ d q landing n := by
    change ((d.pop q.count).push landing.target).peek (n + 1) = d.peek (q.count + n)
    rw [DryRun.peek_eq d, ← List.getElem?_drop, ← DryRun.nodes_pop, DryRun.peek_eq]
    rfl
  peek_accept _ _ := rfl
  isAccepted_shift _ _ _ := rfl
  isAccepted_reduce _ _ _ := rfl
  isAccepted_accept _ := rfl

/-- A dry run starts from what the record shows. -/
theorem DryRun.shows_ofRecord {r : Record Node} {nodes : List Node} (h : Shows r nodes) :
    Shows (ofRecord r) nodes := by
  rw [← Record.nodes_eq_of_shows h]
  exact (ofRecord r).shows

end BoundedLR
