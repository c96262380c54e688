import BoundedLR.Proofs.NormalForm
import BoundedLR.Proofs.Numbering

/-!
# The states of the automaton

`Automaton.Realises` says what an automaton has to do with the productions it was
built from: state `0` is the start, the items of a state are the closure of its
kernel, its edges are its moves, and its reductions are its complete items with
their tuples.  `Productions.automaton_realises` says that the construction
delivers this.  Nothing that follows looks at the construction again.
-/

namespace BoundedLR
namespace Automaton

/-- The items of a state. -/
def items (a : Automaton) (state : Nat) : List Item :=
  match a.states[state]? with
  | some s => s.items
  | none => []

/-- The edges of a state. -/
def edges (a : Automaton) (state : Nat) : List Edge :=
  match a.states[state]? with
  | some s => s.edges
  | none => []

/-- An automaton whose states are what the productions demand. -/
structure Realises (a : Automaton) (g : Productions) : Prop where
  count_pos : 0 < a.count
  kernel_zero : a.kernel 0 = [Item.initial 0]
  kernel_injective : ∀ {n m : Nat}, n < a.count → m < a.count → a.kernel n = a.kernel m → n = m
  dot_pos : ∀ {n : Nat} {i : Item}, n ≠ 0 → i ∈ a.kernel n → 0 < i.dot
  holds : ∀ {n : Nat} {i : Item}, i ∈ a.items n → g.Holds i
  items_eq : ∀ {n : Nat}, n < a.count → a.items n = g.closure (a.kernel n)
  edges_eq : ∀ {n : Nat}, n < a.count →
    List.Forall₂ (fun e m => e.symbol = m.symbol ∧ e.filter = m.filter ∧ e.target < a.count ∧
      a.kernel e.target = m.kernel) (a.edges n) (g.moves (a.items n))
  reductions_eq : ∀ {n : Nat}, n < a.count →
    a.reductions n = (g.completions (a.items n)).map fun r =>
      { r with tuples := a.reductionTuples g n r.production }

theorem edgesOn_eq (a : Automaton) (n : Nat) (s : Symbol) :
    a.edgesOn n s = (a.edges n).filter (·.symbol == s) := by
  unfold edgesOn edges
  cases a.states[n]? <;> rfl

theorem terminalEdges_eq (a : Automaton) (n : Nat) :
    a.terminalEdges n = (a.edges n).filter (·.symbol.isTerminal) := by
  unfold terminalEdges edges
  cases a.states[n]? <;> rfl

theorem lt_count_of_mem_items {a : Automaton} {n : Nat} {i : Item} (h : i ∈ a.items n) :
    n < a.count := by
  by_contra hn
  rw [items, Array.getElem?_eq_none (Nat.le_of_not_lt hn)] at h
  exact List.not_mem_nil h

theorem lt_count_of_mem_kernel {a : Automaton} {n : Nat} {i : Item} (h : i ∈ a.kernel n) :
    n < a.count := by
  by_contra hn
  rw [kernel, Array.getElem?_eq_none (Nat.le_of_not_lt hn)] at h
  exact List.not_mem_nil h

theorem lt_count_of_mem_edges {a : Automaton} {n : Nat} {e : Edge} (h : e ∈ a.edges n) :
    n < a.count := by
  by_contra hn
  rw [edges, Array.getElem?_eq_none (Nat.le_of_not_lt hn)] at h
  exact List.not_mem_nil h

theorem lt_count_of_mem_reductions {a : Automaton} {n : Nat} {r : Reduction}
    (h : r ∈ a.reductions n) : n < a.count := by
  by_contra hn
  rw [reductions, Array.getElem?_eq_none (Nat.le_of_not_lt hn)] at h
  exact List.not_mem_nil h

/-! ## Filling in tuples changes nothing else -/

section WithTuples

variable (a : Automaton) (g : Productions)

theorem getElem?_withTuples (n : Nat) :
    (a.withTuples g).states[n]? = (a.states[n]?).map fun s =>
      { s with reductions := s.reductions.map fun r =>
          { r with tuples := a.reductionTuples g n r.production } } := by
  rw [withTuples, Array.getElem?_mapIdx]

@[simp] theorem count_withTuples : (a.withTuples g).count = a.count := by
  rw [count, withTuples, Array.size_mapIdx]
  rfl

@[simp] theorem kernel_withTuples (n : Nat) : (a.withTuples g).kernel n = a.kernel n := by
  unfold kernel
  rw [getElem?_withTuples]
  cases a.states[n]? <;> rfl

@[simp] theorem items_withTuples (n : Nat) : (a.withTuples g).items n = a.items n := by
  unfold items
  rw [getElem?_withTuples]
  cases a.states[n]? <;> rfl

@[simp] theorem edges_withTuples (n : Nat) : (a.withTuples g).edges n = a.edges n := by
  unfold edges
  rw [getElem?_withTuples]
  cases a.states[n]? <;> rfl

@[simp] theorem edgesOn_withTuples (n : Nat) (s : Symbol) :
    (a.withTuples g).edgesOn n s = a.edgesOn n s := by
  rw [edgesOn_eq, edgesOn_eq, edges_withTuples]

@[simp] theorem goto_withTuples (n : Nat) (s : Symbol) (p : Nat) :
    (a.withTuples g).goto n s p = a.goto n s p := by
  rw [goto, goto, edgesOn_withTuples]

@[simp] theorem statesAfter_withTuples (first p k : Nat) :
    (a.withTuples g).statesAfter g first p k = a.statesAfter g first p k := by
  induction k with
  | zero => rfl
  | succ k ih =>
      simp only [statesAfter, ih, edgesOn_withTuples, kernel_withTuples]

theorem reductions_withTuples (n : Nat) :
    (a.withTuples g).reductions n = (a.reductions n).map fun r =>
      { r with tuples := a.reductionTuples g n r.production } := by
  unfold reductions
  rw [getElem?_withTuples]
  cases a.states[n]? <;> rfl

/-- Where a production may begin is asked of the items and edges of the states
only. -/
theorem reductionTuples_eq (last p : Nat) :
    a.reductionTuples g last p =
      match g.head? p with
      | none => []
      | some head => (List.range a.count).filterMap fun first =>
          if p ≠ 0 ∧ Item.initial p ∈ a.items first then
            match a.goto first head p with
            | none => none
            | some target =>
              if last ∈ a.statesAfter g first p (g.length p) then some (first, target) else none
          else none := by
  unfold reductionTuples
  cases g.head? p with
  | none => rfl
  | some head =>
      dsimp only
      refine List.filterMap_congr fun first hfirst => ?_
      have hlt : first < a.states.size := List.mem_range.1 hfirst
      rw [Array.getElem?_eq_getElem hlt]
      have hitems : a.items first = a.states[first].items := by
        unfold items
        rw [Array.getElem?_eq_getElem hlt]
      rw [hitems]
      refine if_congr (and_congr_right fun _ => List.contains_iff_mem) ?_ rfl
      cases a.goto first head p with
      | none => rfl
      | some target => exact if_congr List.contains_iff_mem rfl rfl

@[simp] theorem reductionTuples_withTuples (last p : Nat) :
    (a.withTuples g).reductionTuples g last p = a.reductionTuples g last p := by
  simp only [reductionTuples_eq, count_withTuples, items_withTuples, goto_withTuples,
    statesAfter_withTuples]

end WithTuples

end Automaton

/-! ## The construction realises the productions -/

namespace Productions

variable {g : Productions}

theorem explored_start {start : Symbol} (hg : g.WellFormed start) :
    g.Explored #[startCore] #[] := by
  have hmem : ∀ c ∈ #[startCore], c = startCore := fun c hc => by simpa using hc
  refine ⟨⟨List.nodup_singleton _, ?_⟩, ⟨startCore, rfl, rfl⟩, by simp, ?_⟩
  · intro c hc
    rw [hmem c hc]
    refine ⟨IsAscending.singleton _, ?_, .inl rfl⟩
    intro i hi
    rw [List.mem_singleton.1 hi]
    exact ⟨lt_count_of_head? hg.head?_zero, Nat.zero_le _⟩
  · intro n s hs
    simp at hs

/-! ### A finished exploration -/

section Finished

variable {a : Automaton} {cores : Array Core} {n m : Nat}

theorem exists_state (hn : n < a.count) : ∃ s, a.states[n]? = some s :=
  ⟨_, Array.getElem?_eq_getElem hn⟩

namespace Explored

/-- Every state has been made for the core with its number. -/
theorem exists_core (h : g.Explored cores a.states) (hn : n < a.count) :
    ∃ core, cores[n]? = some core ∧ a.kernel n = core.kernel := by
  obtain ⟨s, hs⟩ := exists_state hn
  obtain ⟨⟨core, hcore, hk⟩, -⟩ := h.state hs
  rw [Automaton.kernel, hs]
  exact ⟨core, hcore, hk⟩

/-- Once no core is left to be worked through, every core has its state. -/
theorem kernel_of_core (h : g.Explored cores a.states) (hsize : a.states.size = cores.size)
    {core : Core} (hcore : cores[n]? = some core) : n < a.count ∧ a.kernel n = core.kernel := by
  have hn : n < a.count := by
    rw [Automaton.count, hsize]
    exact (Array.getElem?_eq_some_iff.1 hcore).1
  obtain ⟨core', hcore', hk⟩ := h.exists_core hn
  rw [hcore, Option.some.injEq] at hcore'
  rw [hk, hcore']
  exact ⟨hn, rfl⟩

theorem kernel_injective (h : g.Explored cores a.states) (hn : n < a.count) (hm : m < a.count)
    (hnm : a.kernel n = a.kernel m) : n = m := by
  obtain ⟨c, hc, hkc⟩ := h.exists_core hn
  obtain ⟨d, hd, hkd⟩ := h.exists_core hm
  have hlt : n < (cores.toList.map (·.kernel)).length := by
    rw [List.length_map, Array.length_toList]
    exact (Array.getElem?_eq_some_iff.1 hc).1
  have hget : (cores.toList.map (·.kernel))[n]? = (cores.toList.map (·.kernel))[m]? := by
    rw [List.getElem?_map, List.getElem?_map, Array.getElem?_toList, Array.getElem?_toList, hc, hd,
      Option.map_some, Option.map_some, ← hkc, ← hkd, hnm]
  exact (List.getElem?_inj hlt h.kernels.nodup).1 hget

theorem isKernel (h : g.Explored cores a.states) (hn : n < a.count) : IsKernel g (a.kernel n) := by
  obtain ⟨core, hc, hk⟩ := h.exists_core hn
  rw [hk]
  exact h.kernels.isKernel core (Array.mem_of_getElem? hc)

theorem items_eq (h : g.Explored cores a.states) (hn : n < a.count) :
    a.items n = g.closure (a.kernel n) := by
  obtain ⟨s, hs⟩ := exists_state hn
  rw [Automaton.items, Automaton.kernel, hs]
  exact (h.state hs).2.1

/-- The edges of a state are its moves, and the kernels that these lead to have been
numbered. -/
theorem edges_follow (h : g.Explored cores a.states) (hsize : a.states.size = cores.size)
    (hn : n < a.count) :
    List.Forall₂ (fun e m => e.symbol = m.symbol ∧ e.filter = m.filter ∧ e.target < a.count ∧
      a.kernel e.target = m.kernel) (a.edges n) (g.moves (a.items n)) := by
  obtain ⟨s, hs⟩ := exists_state hn
  have hedges := (h.state hs).2.2.2
  rw [Automaton.edges, Automaton.items, hs]
  refine hedges.imp fun e m he => ?_
  obtain ⟨hsym, hfilter, core, hc, hk⟩ := he
  obtain ⟨hlt, hkernel⟩ := h.kernel_of_core hsize hc
  exact ⟨hsym, hfilter, hlt, hkernel.trans hk⟩

theorem reductions_eq (h : g.Explored cores a.states) (hn : n < a.count) :
    a.reductions n = g.completions (a.items n) := by
  obtain ⟨s, hs⟩ := exists_state hn
  rw [Automaton.reductions, Automaton.items, hs]
  exact (h.state hs).2.2.1

end Explored
end Finished

/-- There are rounds enough to finish. -/
theorem explored_skeleton {start : Symbol} (hg : g.WellFormed start) :
    ∃ cores, g.Explored cores g.skeleton.states ∧ g.skeleton.states.size = cores.size :=
  explore_spec (explored_start hg) (Nat.le_add_right (Nat.pow 2 g.itemCount) 0)

/-- **The automaton of well-formed productions realises them.** -/
theorem automaton_realises {start : Symbol} (hg : g.WellFormed start) :
    g.automaton.Realises g := by
  obtain ⟨cores, hex, hsize⟩ := explored_skeleton hg
  have hfirst : 0 < g.skeleton.count ∧ g.skeleton.kernel 0 = [Item.initial 0] := by
    obtain ⟨core, hcore, hk⟩ := hex.first
    rw [← hk]
    exact hex.kernel_of_core hsize hcore
  rw [automaton]
  refine ⟨?_, ?_, ?_, ?_, ?_, ?_, ?_, ?_⟩
  · rw [Automaton.count_withTuples]
    exact hfirst.1
  · rw [Automaton.kernel_withTuples]
    exact hfirst.2
  · intro n m hn hm hnm
    rw [Automaton.count_withTuples] at hn hm
    rw [Automaton.kernel_withTuples, Automaton.kernel_withTuples] at hnm
    exact hex.kernel_injective hn hm hnm
  · intro n i hn hi
    rw [Automaton.kernel_withTuples] at hi
    have hlt := Automaton.lt_count_of_mem_kernel hi
    rcases (hex.isKernel hlt).dot_pos with hz | hpos
    · exact absurd (hex.kernel_injective hlt hfirst.1 (hz.trans hfirst.2.symm)) hn
    · exact hpos i hi
  · intro n i hi
    rw [Automaton.items_withTuples] at hi
    have hn := Automaton.lt_count_of_mem_items hi
    rw [hex.items_eq hn] at hi
    exact holds_of_mem_closure (hex.isKernel hn).holds hi
  · intro n hn
    rw [Automaton.count_withTuples] at hn
    rw [Automaton.items_withTuples, Automaton.kernel_withTuples]
    exact hex.items_eq hn
  · intro n hn
    rw [Automaton.count_withTuples] at hn
    rw [Automaton.edges_withTuples, Automaton.items_withTuples]
    simp only [Automaton.count_withTuples, Automaton.kernel_withTuples]
    exact hex.edges_follow hsize hn
  · intro n hn
    rw [Automaton.count_withTuples] at hn
    simp only [Automaton.reductions_withTuples, Automaton.items_withTuples,
      Automaton.reductionTuples_withTuples]
    rw [hex.reductions_eq hn]

end Productions
end BoundedLR
