import BoundedLR.Machine.Record

/-!
# Trying a token out

Whether a token would be taken is found out by running the machine without
touching the record.  The stack of a dry run borrows the entries of the record:
it keeps those that have not been popped, and holds on top of them the nodes that
it has pushed itself.  Steps are not recorded.
-/

namespace BoundedLR

/-- The stack of a dry run. -/
structure DryRun (Node : Type) where
  /-- The entries of the record that have not been popped, the topmost first. -/
  kept : List (Entry Node)
  /-- The nodes pushed on top of them, the topmost first. -/
  pushed : List Node
  accepted : Bool
  deriving DecidableEq, Repr

namespace DryRun

variable {Node : Type}

/-- A dry run that starts from where a record stands. -/
def ofRecord (r : Record Node) : DryRun Node := ⟨r.entries, [], r.accepted⟩

/-- The node that lies under a given number of others. -/
def peek (d : DryRun Node) (n : Nat) : Option Node :=
  match d.pushed[n]? with
  | some node => some node
  | none => (d.kept[n - d.pushed.length]?).map (·.node)

/-- Pops nodes, first those that the dry run has pushed itself. -/
def pop (d : DryRun Node) (count : Nat) : DryRun Node :=
  { d with
    kept := d.kept.drop (count - d.pushed.length)
    pushed := d.pushed.drop count }

/-- Pushes a node. -/
def push (d : DryRun Node) (node : Node) : DryRun Node :=
  { d with pushed := node :: d.pushed }

instance : StateStack (DryRun Node) Node where
  peek := peek
  shift d _ landing := d.push landing.target
  reduce d p landing := (d.pop p.count).push landing.target
  accept d := { d with accepted := true }
  isAccepted := accepted

end DryRun

end BoundedLR
