import BoundedLR.Proofs.Sequencing
import BoundedLR.Proofs.States

/-!
# The edges of a state

This module restates the edges of an automaton in terms of items, which is how
the theory of parsing uses them.

* `Realises.item_of_edge`: whatever stands in the kernel that an edge leads to
  has been advanced from an item of the state the edge leaves.
* `Realises.shift_spec`: over a terminal there is one target, and every item
  before the terminal has been advanced into it.
* `Realises.goto_spec`: over a non-terminal the completed production chooses the
  target, and exactly the items whose slot accepts it have been advanced.
-/

namespace BoundedLR
namespace Automaton
namespace Realises

variable {a : Automaton} {g : Productions} {n : Nat} {e : Edge} {i j : Item}

/-! ## Items -/

/-- The kernel of a state is among its items. -/
theorem kernel_subset (ha : a.Realises g) (hn : n < a.count) : a.kernel n ⊆ a.items n := by
  rw [ha.items_eq hn]
  exact Productions.subset_closure

/-- An item of a state whose dot has been moved is in the kernel. -/
theorem mem_kernel_of_dot_pos (ha : a.Realises g) (hi : i ∈ a.items n) (hd : 0 < i.dot) :
    i ∈ a.kernel n := by
  rw [ha.items_eq (lt_count_of_mem_items hi)] at hi
  exact Productions.mem_seeds_of_dot_pos hi hd

/-- Only the start has the synthetic item with the dot in front. -/
theorem eq_zero_of_initial_mem_kernel (ha : a.Realises g) {p : Nat}
    (hi : Item.initial p ∈ a.kernel n) : n = 0 ∧ p = 0 := by
  by_cases hn : n = 0
  · subst hn
    rw [ha.kernel_zero, List.mem_singleton] at hi
    exact ⟨rfl, congrArg Item.production hi⟩
  · exact absurd (ha.dot_pos hn hi) (Nat.lt_irrefl 0)

/-- A production that begins in a state has been opened by an item of the
state. -/
theorem opened (ha : a.Realises g) {c : Nat} (hc : Item.initial c ∈ a.items n) (h0 : c ≠ 0) :
    ∃ i ∈ a.items n, ∃ s, g.nextSymbol i = some s ∧ g.head? c = some s ∧
      g.admits i c = true := by
  have hn := lt_count_of_mem_items hc
  rw [ha.items_eq hn] at hc ⊢
  rcases Productions.mem_closure_cases hc with hk | ⟨j, hj, ho⟩
  · exact absurd (ha.eq_zero_of_initial_mem_kernel hk).2 h0
  · obtain ⟨s, d, hs, hd, had, heq⟩ := Productions.mem_openings.1 ho
    have hcd : c = d := congrArg Item.production heq
    subst hcd
    exact ⟨j, hj, s, hs, hd, had⟩

/-- An item before a non-terminal opens the productions that its slot accepts. -/
theorem initial_mem_items (ha : a.Realises g) {s : Symbol} {c : Nat} (hi : i ∈ a.items n)
    (hs : g.nextSymbol i = some s) (hc : g.head? c = some s) (had : g.admits i c = true) :
    Item.initial c ∈ a.items n := by
  have hn := lt_count_of_mem_items hi
  rw [ha.items_eq hn] at hi ⊢
  exact Productions.openings_subset_closure hi (Productions.mem_openings.2 ⟨s, c, hs, hc, had, rfl⟩)

/-! ## Edges and moves -/

theorem exists_move (ha : a.Realises g) (he : e ∈ a.edges n) :
    ∃ m ∈ g.moves (a.items n), e.symbol = m.symbol ∧ e.filter = m.filter ∧ e.target < a.count ∧
      a.kernel e.target = m.kernel :=
  forall₂_mem_left (ha.edges_eq (lt_count_of_mem_edges he)) he

theorem exists_edge (ha : a.Realises g) (hn : n < a.count) {m : Move}
    (hm : m ∈ g.moves (a.items n)) :
    ∃ e ∈ a.edges n, e.symbol = m.symbol ∧ e.filter = m.filter ∧ e.target < a.count ∧
      a.kernel e.target = m.kernel :=
  forall₂_mem_right (ha.edges_eq hn) hm

theorem target_lt (ha : a.Realises g) (he : e ∈ a.edges n) : e.target < a.count := by
  obtain ⟨m, -, -, -, ht, -⟩ := ha.exists_move he
  exact ht

/-- **Backwards along an edge**: the items of the kernel that the edge leads to
have been advanced over its symbol. -/
theorem item_of_edge (ha : a.Realises g) (he : e ∈ a.edges n) (hj : j ∈ a.kernel e.target) :
    ∃ i ∈ a.items n, g.nextSymbol i = some e.symbol ∧ j = i.advance := by
  obtain ⟨m, hm, hs, -, -, hk⟩ := ha.exists_move he
  rw [hk] at hj
  rw [hs]
  exact Productions.exists_advance_of_mem_moves hm hj

/-- An edge is there for an item before its symbol. -/
theorem exists_item (ha : a.Realises g) (he : e ∈ a.edges n) :
    ∃ i ∈ a.items n, g.nextSymbol i = some e.symbol := by
  obtain ⟨m, hm, hs, -⟩ := ha.exists_move he
  rw [hs]
  exact (Productions.mem_moves.1 hm).1

/-- No edge leads to the start. -/
theorem target_ne_zero (ha : a.Realises g) (he : e ∈ a.edges n) : e.target ≠ 0 := by
  intro hz
  have hj : Item.initial 0 ∈ a.kernel e.target := by
    rw [hz, ha.kernel_zero]
    exact List.mem_singleton_self _
  obtain ⟨i, -, -, hadv⟩ := ha.item_of_edge he hj
  exact absurd (congrArg Item.dot hadv) (Nat.succ_ne_zero i.dot).symm

/-! ## Terminals -/

/-- Edges on one terminal lead to one state. -/
theorem target_eq_of_terminal (ha : a.Realises g) {e' : Edge} (he : e ∈ a.edges n)
    (he' : e' ∈ a.edges n) (hs : e'.symbol = e.symbol) (ht : e.symbol.isTerminal = true) :
    e'.target = e.target := by
  obtain ⟨m, hm, hms, -, hlt, hk⟩ := ha.exists_move he
  obtain ⟨m', hm', hms', -, hlt', hk'⟩ := ha.exists_move he'
  refine ha.kernel_injective hlt' hlt ?_
  have hkm := ((Productions.mem_moves_terminal (hms ▸ ht)).1 hm).2.1
  have hkm' := ((Productions.mem_moves_terminal (hms' ▸ hs ▸ ht)).1 hm').2.1
  rw [hk, hk', hkm, hkm', ← hms, ← hms', hs]

theorem mem_edgesOn {s : Symbol} : e ∈ a.edgesOn n s ↔ e ∈ a.edges n ∧ e.symbol = s := by
  rw [edgesOn_eq, List.mem_filter, beq_iff_eq]

theorem mem_terminalEdges :
    e ∈ a.terminalEdges n ↔ e ∈ a.edges n ∧ e.symbol.isTerminal = true := by
  rw [terminalEdges_eq, List.mem_filter]

/-- No terminal has two edges. -/
theorem nodup_terminalEdges (ha : a.Realises g) (hn : n < a.count) :
    ((a.terminalEdges n).map (·.symbol)).Nodup := by
  have hsymbols : (a.edges n).map (·.symbol) = (g.moves (a.items n)).map (·.symbol) := by
    have hedges := List.forall₂_map_left_iff.2 (List.forall₂_map_right_iff.2
      ((ha.edges_eq hn).imp fun _ _ h => h.1))
    rwa [List.forall₂_eq_eq_eq] at hedges
  have hfilter : (a.terminalEdges n).map (·.symbol) =
      ((g.moves (a.items n)).filter (·.symbol.isTerminal)).map (·.symbol) := by
    have hcomm := congrArg (List.filter Symbol.isTerminal) hsymbols
    rw [List.filter_map, List.filter_map] at hcomm
    rw [terminalEdges_eq]
    exact hcomm
  rw [hfilter]
  exact List.pairwise_map.2 (Productions.nodup_terminals_moves g (a.items n))

/-- Shifting a terminal follows its edge. -/
theorem shift_eq_some_iff (ha : a.Realises g) {s : Symbol} {t : Nat} (hs : s.isTerminal = true) :
    a.shift n s = some t ↔ ∃ e ∈ a.edges n, e.symbol = s ∧ e.target = t := by
  constructor
  · intro h
    obtain ⟨e, he, rfl⟩ := Option.map_eq_some_iff.1 h
    obtain ⟨he, hes⟩ := mem_edgesOn.1 (List.mem_of_mem_head? he)
    exact ⟨e, he, hes, rfl⟩
  · rintro ⟨e, he, rfl, rfl⟩
    have hne : a.edgesOn n e.symbol ≠ [] := List.ne_nil_of_mem (mem_edgesOn.2 ⟨he, rfl⟩)
    obtain ⟨e', hhead⟩ : ∃ e', (a.edgesOn n e.symbol).head? = some e' :=
      ⟨_, List.head?_eq_some_head hne⟩
    obtain ⟨he', hs'⟩ := mem_edgesOn.1 (List.mem_of_mem_head? hhead)
    rw [shift, hhead, Option.map_some, ha.target_eq_of_terminal he he' hs' hs]

/-- **Shifting.**  A terminal behind the dot of an item can be shifted, and the
item is advanced. -/
theorem shift_spec (ha : a.Realises g) {s : Symbol} (hi : i ∈ a.items n)
    (hs : g.nextSymbol i = some s) (ht : s.isTerminal = true) :
    ∃ e ∈ a.edges n, e.symbol = s ∧ i.advance ∈ a.kernel e.target := by
  have hn := lt_count_of_mem_items hi
  have hm : (⟨s, (g.before (a.items n) s).map .advance, .all⟩ : Move) ∈ g.moves (a.items n) :=
    (Productions.mem_moves_terminal ht).2 ⟨⟨i, hi, hs⟩, rfl, rfl⟩
  obtain ⟨e, he, hes, -, -, hk⟩ := ha.exists_edge hn hm
  refine ⟨e, he, hes, ?_⟩
  rw [hk]
  exact List.mem_map.2 ⟨i, Productions.mem_before.2 ⟨hi, hs⟩, rfl⟩

/-! ## Non-terminals -/

/-- The edge that a completed production takes. -/
theorem kernel_of_goto_edge (ha : a.Realises g) {s : Symbol} {c : Nat} (he : e ∈ a.edges n)
    (hes : e.symbol = s) (hs : s.isTerminal = false) (hc : Item.initial c ∈ a.items n)
    (hh : g.head? c = some s) (hacc : e.filter.accepts c = true) :
    a.kernel e.target = g.kernelOver (g.before (a.items n) s) c := by
  obtain ⟨m, hm, hms, hmf, -, hk⟩ := ha.exists_move he
  have hsm : m.symbol = s := hms.symm.trans hes
  have hcm : c ∈ g.candidates (a.items n) m.symbol :=
    Productions.mem_candidates.2 ⟨hc, hsm ▸ hh⟩
  rw [hk, Productions.kernel_eq_of_accepts hm (hsm ▸ hs) hcm (hmf ▸ hacc), hsm]

/-- **Going on after a reduction.**  A production that begins in a state takes an
edge on its head, and the edge leads to the advances of exactly those items whose
slot accepts the production. -/
theorem goto_spec (ha : a.Realises g) {s : Symbol} {c : Nat} (hc : Item.initial c ∈ a.items n)
    (h0 : c ≠ 0) (hh : g.head? c = some s) (hs : s.isTerminal = false) :
    ∃ e ∈ a.edges n, a.goto n s c = some e.target ∧ e.symbol = s ∧
      a.kernel e.target = g.kernelOver (g.before (a.items n) s) c := by
  have hn := lt_count_of_mem_items hc
  obtain ⟨i, hi, s', hs', hh', had⟩ := ha.opened hc h0
  rw [hh, Option.some.injEq] at hh'
  subst hh'
  obtain ⟨m, hm, hms, hmacc⟩ := Productions.exists_mem_moves_of_candidate hs
    (Productions.mem_candidates.2 ⟨hc, hh⟩) hi hs' had
  obtain ⟨e, he, hes, hef, -, -⟩ := ha.exists_edge hn hm
  have hmem : e ∈ a.edgesOn n s := mem_edgesOn.2 ⟨he, hes.trans hms⟩
  obtain ⟨e', hfind⟩ : ∃ e', (a.edgesOn n s).find? (·.filter.accepts c) = some e' :=
    Option.isSome_iff_exists.1 (List.find?_isSome.2 ⟨e, hmem, by rw [hef]; exact hmacc⟩)
  obtain ⟨he', hes'⟩ := mem_edgesOn.1 (List.mem_of_find?_eq_some hfind)
  refine ⟨e', he', ?_, hes', ?_⟩
  · rw [goto, hfind, Option.map_some]
  · have hacc' := List.find?_some hfind
    exact ha.kernel_of_goto_edge he' hes' hs hc hh hacc'

end Realises
end Automaton
end BoundedLR
