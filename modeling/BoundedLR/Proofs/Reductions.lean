import BoundedLR.Proofs.Transitions

/-!
# The reductions of a state

A state reduces a production exactly if it holds the production's complete item,
and there is one reduction for each of them.  The tuples of a reduction say where
the production may have begun: in a state that opens it, and from which its body
leads here along edges that carry the production along.  A state that is uncovered
determines the state that is entered.
-/

namespace BoundedLR
namespace Automaton

variable {a : Automaton} {g : Productions} {n m p first target last k : Nat}

/-- One more slot is one more edge that carries the production along. -/
theorem mem_statesAfter_succ :
    m ∈ a.statesAfter g first p (k + 1) ↔ ∃ slot, g.slot? p k = some slot ∧
      ∃ n ∈ a.statesAfter g first p k, ∃ e ∈ a.edges n, e.symbol = slot.symbol ∧
        e.target = m ∧ (⟨p, k + 1⟩ : Item) ∈ a.kernel m := by
  rw [statesAfter]
  cases hs : g.slot? p k with
  | none => simp
  | some slot =>
      simp only [mem_ascending, List.mem_flatMap, List.mem_filterMap, Option.some.injEq,
        exists_eq_left', Realises.mem_edgesOn]
      constructor
      · rintro ⟨n, hn, e, ⟨he, hes⟩, h⟩
        split at h
        · rename_i hk
          cases h
          exact ⟨n, hn, e, he, hes, rfl, List.contains_iff_mem.1 hk⟩
        · cases h
      · rintro ⟨n, hn, e, he, hes, rfl, hk⟩
        refine ⟨n, hn, e, ⟨he, hes⟩, ?_⟩
        rw [if_pos (List.contains_iff_mem.2 hk)]

/-- What a tuple of a reduction says. -/
theorem mem_reductionTuples :
    (first, target) ∈ a.reductionTuples g last p ↔ ∃ head, g.head? p = some head ∧ p ≠ 0 ∧
      Item.initial p ∈ a.items first ∧ a.goto first head p = some target ∧
      last ∈ a.statesAfter g first p (g.length p) := by
  rw [reductionTuples_eq]
  cases g.head? p with
  | none => simp
  | some head =>
      simp only [List.mem_filterMap, List.mem_range, Option.some.injEq, exists_eq_left']
      constructor
      · rintro ⟨n, hn, h⟩
        split at h
        · rename_i hp
          split at h
          · cases h
          · rename_i t ht
            split at h
            · rename_i hlast
              cases h
              exact ⟨hp.1, hp.2, ht, hlast⟩
            · cases h
        · cases h
      · rintro ⟨hp, hi, ht, hlast⟩
        refine ⟨first, lt_count_of_mem_items hi, ?_⟩
        rw [if_pos ⟨hp, hi⟩, ht]
        exact if_pos hlast

/-- The state that is uncovered determines the state that is entered. -/
theorem target_eq_of_mem_reductionTuples {target' : Nat}
    (h : (first, target) ∈ a.reductionTuples g last p)
    (h' : (first, target') ∈ a.reductionTuples g last p) : target = target' := by
  obtain ⟨head, hh, -, -, ht, -⟩ := mem_reductionTuples.1 h
  obtain ⟨head', hh', -, -, ht', -⟩ := mem_reductionTuples.1 h'
  rw [hh, Option.some.injEq] at hh'
  subst hh'
  rw [ht, Option.some.injEq] at ht'
  exact ht'

/-- The states of a tuple are states of the automaton. -/
theorem lt_count_of_mem_reductionTuples (ha : a.Realises g)
    (h : (first, target) ∈ a.reductionTuples g last p) : first < a.count ∧ target < a.count := by
  obtain ⟨head, -, -, hi, hgoto, -⟩ := mem_reductionTuples.1 h
  obtain ⟨e, he, rfl⟩ := Option.map_eq_some_iff.1 hgoto
  exact ⟨lt_count_of_mem_items hi,
    ha.target_lt (Realises.mem_edgesOn.1 (List.mem_of_find?_eq_some he)).1⟩

namespace Realises

/-- **A state reduces the productions of its complete items.** -/
theorem mem_reductions_iff (ha : a.Realises g) {r : Reduction} :
    r ∈ a.reductions n ↔ (⟨r.production, g.length r.production⟩ : Item) ∈ a.items n ∧
      r.tuples = a.reductionTuples g n r.production := by
  constructor
  · intro hr
    rw [ha.reductions_eq (lt_count_of_mem_reductions hr)] at hr
    simp only [Productions.completions, List.map_map, List.mem_map, List.mem_filter] at hr
    obtain ⟨i, ⟨hi, hc⟩, rfl⟩ := hr
    have hle : g.length i.production ≤ i.dot := of_decide_eq_true hc
    have hdot : i.dot = g.length i.production := Nat.le_antisymm (ha.holds hi).2 hle
    have heq : (⟨i.production, g.length i.production⟩ : Item) = i := by rw [← hdot]
    refine ⟨?_, rfl⟩
    change (⟨i.production, g.length i.production⟩ : Item) ∈ a.items n
    rw [heq]
    exact hi
  · rintro ⟨hi, ht⟩
    rw [ha.reductions_eq (lt_count_of_mem_items hi)]
    simp only [Productions.completions, List.map_map, List.mem_map, List.mem_filter]
    refine ⟨_, ⟨hi, decide_eq_true (Nat.le_refl _)⟩, ?_⟩
    obtain ⟨q, tuples⟩ := r
    dsimp only at ht
    rw [ht]
    rfl

/-- Two reductions of one production are the same. -/
theorem reduction_eq (ha : a.Realises g) {r r' : Reduction} (hr : r ∈ a.reductions n)
    (hr' : r' ∈ a.reductions n) (h : r.production = r'.production) : r = r' := by
  obtain ⟨-, ht⟩ := ha.mem_reductions_iff.1 hr
  obtain ⟨-, ht'⟩ := ha.mem_reductions_iff.1 hr'
  obtain ⟨q, tuples⟩ := r
  obtain ⟨q', tuples'⟩ := r'
  dsimp only at h ht ht'
  rw [ht, ht', h]

/-- Looking a reduction up by its production finds it. -/
theorem find?_reductions (ha : a.Realises g) (hi : (⟨p, g.length p⟩ : Item) ∈ a.items n) :
    (a.reductions n).find? (·.production == p) = some ⟨p, a.reductionTuples g n p⟩ := by
  have hr : (⟨p, a.reductionTuples g n p⟩ : Reduction) ∈ a.reductions n :=
    ha.mem_reductions_iff.2 ⟨hi, rfl⟩
  obtain ⟨r, hfind⟩ : ∃ r, (a.reductions n).find? (·.production == p) = some r :=
    Option.isSome_iff_exists.1 (List.find?_isSome.2 ⟨_, hr, beq_self_eq_true p⟩)
  have hp : r.production = p := by simpa using List.find?_some hfind
  rw [hfind, ha.reduction_eq (List.mem_of_find?_eq_some hfind) hr hp]

/-- A tuple enters a state over an edge on the head of its production, and the
kernel entered advances the items whose slot accepts the production. -/
theorem edge_of_tuple (ha : a.Realises g) {head : Symbol} (hh : g.head? p = some head)
    (hs : head.isTerminal = false) (h : (first, target) ∈ a.reductionTuples g last p) :
    ∃ e ∈ a.edges first, e.target = target ∧ e.symbol = head ∧
      a.kernel target = g.kernelOver (g.before (a.items first) head) p := by
  obtain ⟨head', hh', hp, hi, ht, -⟩ := mem_reductionTuples.1 h
  rw [hh, Option.some.injEq] at hh'
  subst hh'
  obtain ⟨e, he, hgoto, hes, hk⟩ := ha.goto_spec hi hp hh hs
  rw [ht, Option.some.injEq] at hgoto
  subst hgoto
  exact ⟨e, he, rfl, hes, hk⟩

end Realises
end Automaton
end BoundedLR
