import Mathlib.Data.List.InsertIdx
import BoundedLR.Derivation
import BoundedLR.Machine.Record

/-!
# The record of a stack of trees

Each entry of a recorded stack, but for the lowest, stands for a tree, and the
steps of the record are the traces of the trees from the lowest to the topmost.
An entry knows where the trace of its tree begins.  So when the topmost trees
become the children of a new one, the announcement goes exactly in front of what
the first of them has recorded, and the steps become the trace of the new tree.

The flags of the shifts are left out of the comparison, as they are of
`Tree.trace`.
-/

namespace BoundedLR

variable {β Node : Type} {property : β → ReductionProperty} {r : Record Node}
  {trees : List (Tree β)}

namespace Tree

/-- The steps of a stack of trees, the topmost of which comes first. -/
def stackedTrace (property : β → ReductionProperty) (trees : List (Tree β)) : List Step :=
  traceOfAll property trees.reverse

theorem traceOfAll_append (ts us : List (Tree β)) :
    traceOfAll property (ts ++ us) = traceOfAll property ts ++ traceOfAll property us := by
  rw [traceOfAll_eq_flatMap, traceOfAll_eq_flatMap, traceOfAll_eq_flatMap, List.flatMap_append]

theorem leavesOfAll_append (ts us : List (Tree β)) :
    leavesOfAll (ts ++ us) = leavesOfAll ts ++ leavesOfAll us := by
  rw [leavesOfAll_eq_flatMap, leavesOfAll_eq_flatMap, leavesOfAll_eq_flatMap, List.flatMap_append]

theorem stackedTrace_cons (t : Tree β) (trees : List (Tree β)) :
    stackedTrace property (t :: trees) = stackedTrace property trees ++ t.trace property := by
  rw [stackedTrace, List.reverse_cons, traceOfAll_append, traceOfAll, traceOfAll, List.append_nil]
  rfl

/-- A stack of trees is the topmost few on the rest. -/
theorem stackedTrace_take_drop (k : Nat) (trees : List (Tree β)) :
    stackedTrace property trees =
      stackedTrace property (trees.drop k) ++ traceOfAll property (trees.take k).reverse := by
  rw [stackedTrace, stackedTrace, ← traceOfAll_append, ← List.reverse_append,
    List.take_append_drop]

end Tree

/-- An insertion between two lists. -/
theorem insertIdx_append_length {α : Type} (xs ys : List α) (x : α) :
    (xs ++ ys).insertIdx xs.length x = xs ++ x :: ys := by
  induction xs with
  | nil => exact List.insertIdx_zero
  | cons y xs ih =>
      rw [List.cons_append, List.length_cons, List.insertIdx_succ_cons, ih, List.cons_append]

theorem Step.unflagged_shiftStep (token : Token) (predict : Bool) :
    (if token.symbol = .endOfInput then [] else
      [Step.shift token.symbol token.index predict]).map unflagged = Tree.shiftStep token := by
  unfold Tree.shiftStep
  split <;> rfl

namespace Record

/-- The record stands for a stack of trees. -/
structure Traces (property : β → ReductionProperty) (r : Record Node) (trees : List (Tree β)) :
    Prop where
  length_entries : r.entries.length = trees.length + 1
  steps_eq : r.steps.map Step.unflagged = Tree.stackedTrace property trees
  offset_eq : ∀ {i : Nat} {entry : Entry Node}, i < trees.length → r.entries[i]? = some entry →
    entry.offset = (Tree.stackedTrace property (trees.drop (i + 1))).length

namespace Traces

theorem start (property : β → ReductionProperty) (startup : Node) :
    (start startup).Traces property ([] : List (Tree β)) :=
  ⟨rfl, rfl, fun hi => absurd hi (Nat.not_lt_zero _)⟩

theorem length_steps (h : r.Traces property trees) :
    r.steps.length = (Tree.stackedTrace property trees).length := by
  rw [← h.steps_eq, List.length_map]

/-- The spans of the topmost entries begin where the steps of the others end. -/
theorem spanStart_eq (h : r.Traces property trees) {count : Nat} (hc : count ≤ trees.length) :
    r.spanStart count = (Tree.stackedTrace property (trees.drop count)).length := by
  cases count with
  | zero => exact h.length_steps
  | succ count =>
      have hlt : count < r.entries.length := by
        rw [h.length_entries]
        exact Nat.lt_succ_of_lt hc
      rw [spanStart, List.getElem?_eq_getElem hlt]
      exact h.offset_eq hc (List.getElem?_eq_getElem hlt)

/-- A new entry on top of some of the old ones. -/
theorem offset_of_push (h : r.Traces property trees) {count : Nat} (hc : count ≤ trees.length)
    (t : Tree β) {top entry : Entry Node}
    (ht : top.offset = (Tree.stackedTrace property (trees.drop count)).length) {i : Nat}
    (hi : i < (t :: trees.drop count).length)
    (he : (top :: r.entries.drop count)[i]? = some entry) :
    entry.offset =
      (Tree.stackedTrace property ((t :: trees.drop count).drop (i + 1))).length := by
  cases i with
  | zero =>
      cases he
      exact ht
  | succ i =>
      rw [List.getElem?_cons_succ, List.getElem?_drop] at he
      rw [List.drop_succ_cons, List.drop_drop]
      refine h.offset_eq ?_ he
      rw [List.length_cons, List.length_drop] at hi
      show count + i < trees.length
      omega

/-- **Recording a token** puts its leaf on the stack. -/
theorem shift (h : r.Traces property trees) (token : Token) (landing : Landing Node) :
    (r.shift token landing).Traces property (.leaf token :: trees) := by
  refine ⟨?_, ?_, ?_⟩
  · rw [Record.shift, List.length_cons, List.length_cons, h.length_entries]
  · rw [Tree.stackedTrace_cons, ← h.steps_eq, Tree.trace,
      ← Step.unflagged_shiftStep token landing.predict, ← List.map_append, Record.shift]
    split
    · rw [List.append_nil]
    · rfl
  · intro i entry hi he
    exact h.offset_of_push (Nat.zero_le _) (.leaf token) h.length_steps hi he

/-- **Recording a reduction** turns the topmost trees into the children of a new
one. -/
theorem reduce (h : r.Traces property trees) {q : ReductionProperty} {label : β}
    (hq : property label = q) (hc : q.count ≤ trees.length) (landing : Landing Node) :
    (r.reduce q landing).Traces property
      (.node label (trees.take q.count).reverse :: trees.drop q.count) := by
  have hspan := h.spanStart_eq hc
  refine ⟨?_, ?_, ?_⟩
  · rw [Record.reduce, List.length_cons, List.length_drop, h.length_entries, List.length_cons,
      List.length_drop]
    omega
  · have hlen : (trees.take q.count).reverse.length = q.count := by
      rw [List.length_reverse, List.length_take, Nat.min_eq_left hc]
    have hsteps := h.steps_eq
    rw [Tree.stackedTrace_take_drop q.count] at hsteps
    have hannounced : (if q.predict then
          r.steps.insertIdx (r.spanStart q.count) (.predict q.head q.mask q.rule) else
          r.steps).map Step.unflagged =
        Tree.stackedTrace property (trees.drop q.count) ++ (Tree.announcement q ++
          Tree.traceOfAll property (trees.take q.count).reverse) := by
      unfold Tree.announcement
      split
      · rw [List.map_insertIdx, hsteps, hspan, insertIdx_append_length]
        rfl
      · rw [hsteps, List.nil_append]
    rw [Record.reduce, Tree.stackedTrace_cons, Tree.trace, hq, hlen]
    dsimp only
    rw [List.map_append, hannounced, List.append_assoc]
    rfl
  · intro i entry hi he
    exact h.offset_of_push hc (.node label (trees.take q.count).reverse) hspan hi he

end Traces
end Record
end BoundedLR
