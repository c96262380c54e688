import BoundedLR.Machine
import BoundedLR.Step

/-!
# Recording a parse

This is the stack that a parse is recorded on.  Every entry remembers where in
the list of steps the steps of its element begin, so that an announcement can be
inserted there when the production that it announces is reduced.  If an
enclosing production is announced later at the same place, its announcement goes
in front.

An entry is *provisional* if such an announcement may still become due in front
of its element.  Steps from the first provisional element on may still change;
`Record.clearSteps` hands out what lies before it.
-/

namespace BoundedLR

/-- An entry of the recorded stack. -/
structure Entry (Node : Type) where
  node : Node
  /-- Where the steps of the element begin. -/
  offset : Nat
  /-- Whether an announcement may still be due in front of the element. -/
  provisional : Bool
  deriving DecidableEq, Repr

/-- A stack on which a parse is recorded. -/
structure Record (Node : Type) where
  /-- The entries, the topmost first. -/
  entries : List (Entry Node)
  steps : List Step
  accepted : Bool
  deriving DecidableEq, Repr

namespace Record

variable {Node : Type}

/-- The record of a parse that has not begun. -/
def start (startup : Node) : Record Node := ⟨[⟨startup, 0, false⟩], [], false⟩

/-- Records a token.  The end of input makes no step. -/
def shift (r : Record Node) (token : Token) (landing : Landing Node) : Record Node :=
  { r with
    entries := ⟨landing.target, r.steps.length, landing.predict⟩ :: r.entries
    steps :=
      if token.symbol = .endOfInput then r.steps
      else r.steps ++ [.shift token.symbol token.index landing.predict] }

/-- Where the steps of the topmost elements begin, as many as are given. -/
def spanStart (r : Record Node) : Nat → Nat
  | 0 => r.steps.length
  | count + 1 =>
    match r.entries[count]? with
    | some entry => entry.offset
    | none => r.steps.length

/-- Records a reduction, with its announcement if it asks for one. -/
def reduce (r : Record Node) (p : ReductionProperty) (landing : Landing Node) : Record Node :=
  let start := r.spanStart p.count
  let announced :=
    if p.predict then r.steps.insertIdx start (.predict p.head p.mask p.rule) else r.steps
  { r with
    entries := ⟨landing.target, start, landing.predict⟩ :: r.entries.drop p.count
    steps := announced ++ [.reduce p.head p.mask p.rule p.count p.predict] }

instance : StateStack (Record Node) Node where
  peek r n := (r.entries[n]?).map (·.node)
  shift := shift
  reduce := reduce
  accept r := { r with accepted := true }
  isAccepted := accepted

/-- How many steps can no longer change: those before the lowest provisional
element. -/
def settled (r : Record Node) : Nat :=
  match r.entries.reverse.find? (·.provisional) with
  | some entry => entry.offset
  | none => r.steps.length

/-- Removes the steps that can no longer change, and returns them. -/
def clearSteps (r : Record Node) : List Step × Record Node :=
  let settled := r.settled
  (r.steps.take settled,
    { r with
      entries := r.entries.map fun e => { e with offset := e.offset - settled }
      steps := r.steps.drop settled })

end Record

end BoundedLR
