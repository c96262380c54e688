import BoundedLR.Lookahead.PartialStack
import BoundedLR.Proofs.StackPaths

/-!
# Partial stacks cover real ones

A partial stack *covers* a stack if its known states are the topmost states of the
stack.  Reducing a production on the partial stack tries every way in which the
hidden part may look, so whatever the reduction makes of the stack, one of the
outcomes covers it (`PartialStack.covers_reduce`).  This is why following partial
stacks may look at too much but never at too little.

The outcome also says at which depth it lies.  If the reduction pops below the known
part, it goes down over some of the hidden states, and the base is lowered by as many
(`PartialStack.Extends`).

The rest of the module says what an outcome looks like, which is what bounds the
search that follows partial stacks.
-/

namespace BoundedLR
namespace PartialStack

variable {a : Automaton} {g : Productions} {start : Symbol} {c c' next : PartialStack}
  {p top first target : Nat} {stack : List Nat}

/-- The known states are the topmost of a stack. -/
structure Covers (c : PartialStack) (stack : List Nat) : Prop where
  ne_nil : c.states ≠ []
  known : c.states <+: stack

theorem Covers.getElem? (h : c.Covers stack) {n : Nat} (hn : n < c.states.length) :
    stack[n]? = c.states[n]? := by
  obtain ⟨rest, rfl⟩ := h.known
  exact List.getElem?_append_left hn

/-- The topmost state is known. -/
theorem Covers.head?_eq (h : c.Covers (top :: stack)) : c.states.head? = some top := by
  rw [List.head?_eq_getElem?, ← h.getElem? (List.length_pos_iff.2 h.ne_nil)]
  rfl

/-- A partial stack covers a stack, and goes further down than another one, under whose known
states there are some hidden ones: it reaches over the topmost of these, and its base lies deeper
by as many. -/
structure Extends (next c : PartialStack) (hidden stack : List Nat) : Prop where
  ne_nil : next.states ≠ []
  deeper : ∃ reached under, hidden = reached ++ under ∧ next.states ++ under = stack ∧
    next.base = c.base - reached.length

theorem Extends.covers {hidden : List Nat} (h : next.Extends c hidden stack) :
    next.Covers stack := by
  obtain ⟨_, under, -, hstack, -⟩ := h.deeper
  exact ⟨h.ne_nil, under, hstack⟩

/-- A reduction inside the known part goes no further down. -/
theorem extends_inside {hidden : List Nat} (hc : c.states ++ hidden = stack)
    (hlen : g.length p < c.states.length) :
    (⟨c.base, target :: c.states.drop (g.length p)⟩ : PartialStack).Extends c hidden
      (target :: stack.drop (g.length p)) := by
  refine ⟨List.cons_ne_nil _ _, [], hidden, rfl, ?_, (Int.sub_zero _).symm⟩
  rw [← hc, List.drop_append_of_le_length (Nat.le_of_lt hlen), List.cons_append]

/-- A reduction below the known part goes down to the state that it uncovers. -/
theorem extends_below {hidden : List Nat} (hc : c.states ++ hidden = stack)
    (hle : c.states.length ≤ g.length p) (hf : stack[g.length p]? = some first) :
    (⟨c.base - ↑(g.length p + 1 - c.states.length), [target, first]⟩ : PartialStack).Extends c
      hidden (target :: stack.drop (g.length p)) := by
  obtain ⟨hlt, hget⟩ := List.getElem?_eq_some_iff.1 hf
  have hlength : c.states.length + hidden.length = stack.length := by
    rw [← hc, List.length_append]
  refine ⟨List.cons_ne_nil _ _, hidden.take (g.length p + 1 - c.states.length),
    hidden.drop (g.length p + 1 - c.states.length), (List.take_append_drop _ _).symm, ?_, ?_⟩
  · rw [List.drop_eq_getElem_cons hlt, hget, ← hc, List.drop_append,
      List.drop_eq_nil_of_le (Nat.le_succ_of_le hle)]
    rfl
  · rw [List.length_take, Nat.min_eq_left (by omega)]

/-- **One of the outcomes of a reduction stands for what the reduction leads to**, at the depth
that its base says. -/
theorem exists_extends_of_reduce (ha : a.Realises g) {hidden : List Nat} (hne : c.states ≠ [])
    (hc : c.states ++ hidden = top :: stack) (hp : a.Path (top :: stack))
    (hi : (⟨p, g.length p⟩ : Item) ∈ a.items top) (hf : (top :: stack)[g.length p]? = some first)
    (ht : (first, target) ∈ a.reductionTuples g top p) :
    ∃ next ∈ c.reduce a g p,
      next.Extends c hidden (target :: (top :: stack).drop (g.length p)) := by
  have hcovers : c.Covers (top :: stack) := ⟨hne, hidden, hc⟩
  obtain ⟨bottom, hbottom⟩ : ∃ bottom, c.states.getLast? = some bottom :=
    ⟨_, List.getLast?_eq_some_getLast hne⟩
  have hlast : (top :: stack)[c.states.length - 1]? = some bottom := by
    rw [hcovers.getElem? (Nat.sub_lt (List.length_pos_iff.2 hne) Nat.one_pos),
      ← List.getLast?_eq_getElem?, hbottom]
  rw [reduce, hcovers.head?_eq, hbottom]
  dsimp only
  rw [ha.find?_reductions hi]
  dsimp only
  by_cases hlen : g.length p < c.states.length
  · -- the reduction stays inside the known part
    have hget : c.states[g.length p]? = some first := by rw [← hcovers.getElem? hlen, hf]
    rw [hget]
    refine ⟨_, List.mem_map.2 ⟨(first, target), List.mem_filter.2 ⟨ht, ?_⟩, rfl⟩,
      extends_inside hc hlen⟩
    exact beq_self_eq_true first
  · -- the way back to the opening state leads over the lowest known state
    have hle : c.states.length ≤ g.length p := Nat.le_of_not_lt hlen
    have hpos : 0 < c.states.length := List.length_pos_iff.2 hne
    rw [List.getElem?_eq_none hle]
    obtain ⟨first', hfirst', -, hway⟩ := hp.unwind ha hi
    rw [hf, Option.some.injEq] at hfirst'
    subst hfirst'
    obtain ⟨n, hn, hmem⟩ := hway (g.length p + 1 - c.states.length) (by omega)
    rw [show g.length p - (g.length p + 1 - c.states.length) = c.states.length - 1 by omega,
      hlast, Option.some.injEq] at hn
    subst hn
    refine ⟨_, List.mem_map.2 ⟨(first, target), List.mem_filter.2 ⟨ht, ?_⟩, rfl⟩,
      extends_below hc hle hf⟩
    exact List.contains_iff_mem.2 hmem

/-- **One of the outcomes of a reduction covers what the reduction leads to.** -/
theorem covers_reduce (ha : a.Realises g) (hc : c.Covers (top :: stack))
    (hp : a.Path (top :: stack)) (hi : (⟨p, g.length p⟩ : Item) ∈ a.items top)
    (hf : (top :: stack)[g.length p]? = some first)
    (ht : (first, target) ∈ a.reductionTuples g top p) :
    ∃ next ∈ c.reduce a g p, next.Covers (target :: (top :: stack).drop (g.length p)) := by
  obtain ⟨hidden, hhidden⟩ := hc.known
  obtain ⟨next, hnext, hextends⟩ := exists_extends_of_reduce ha hc.ne_nil hhidden hp hi hf ht
  exact ⟨next, hnext, hextends.covers⟩

/-- What an outcome of a reduction looks like. -/
theorem mem_reduce_cases (ha : a.Realises g) (h : next ∈ c.reduce a g p) :
    ∃ target < a.count,
      (g.length p < c.states.length ∧ next.states = target :: c.states.drop (g.length p)) ∨
      (c.states.length ≤ g.length p ∧ ∃ last < a.count, next.states = [target, last]) := by
  rw [reduce] at h
  split at h
  · split at h
    · exact absurd h List.not_mem_nil
    · rename_i top bottom _ _ r hr
      have htuples := (ha.mem_reductions_iff.1 (List.mem_of_find?_eq_some hr)).2
      dsimp only at h
      split at h
      · rename_i uncovered hget
        obtain ⟨⟨first, target⟩, htuple, rfl⟩ := List.mem_map.1 h
        have hmem := (List.mem_filter.1 htuple).1
        rw [htuples] at hmem
        exact ⟨target, (Automaton.lt_count_of_mem_reductionTuples ha hmem).2,
          .inl ⟨(List.getElem?_eq_some_iff.1 hget).1, rfl⟩⟩
      · rename_i hget
        obtain ⟨⟨first, target⟩, htuple, rfl⟩ := List.mem_map.1 h
        have hmem := (List.mem_filter.1 htuple).1
        rw [htuples] at hmem
        obtain ⟨hfirst, htarget⟩ := Automaton.lt_count_of_mem_reductionTuples ha hmem
        exact ⟨target, htarget, .inr ⟨List.getElem?_eq_none_iff.1 hget, first, hfirst, rfl⟩⟩
  · exact absurd h List.not_mem_nil

/-- The outcomes depend on the known states only. -/
theorem exists_mem_reduce (h : c.states = c'.states) (hn : next ∈ c'.reduce a g p) :
    ∃ same ∈ c.reduce a g p, same.states = next.states := by
  obtain ⟨base, states⟩ := c
  obtain ⟨base', states'⟩ := c'
  dsimp only at h
  subst h
  rw [reduce] at hn
  split at hn
  · rename_i top bottom htop hbottom
    dsimp only at htop hbottom hn
    split at hn
    · exact absurd hn List.not_mem_nil
    · rename_i r hr
      rw [reduce, htop, hbottom]
      dsimp only at hn ⊢
      rw [hr]
      dsimp only
      split at hn
      · obtain ⟨t, ht, rfl⟩ := List.mem_map.1 hn
        exact ⟨⟨base, _⟩, List.mem_map.2 ⟨t, ht, rfl⟩, rfl⟩
      · obtain ⟨t, ht, rfl⟩ := List.mem_map.1 hn
        exact ⟨⟨_, _⟩, List.mem_map.2 ⟨t, ht, rfl⟩, rfl⟩
  · exact absurd hn List.not_mem_nil

end PartialStack
end BoundedLR
