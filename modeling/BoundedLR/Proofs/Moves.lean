import Mathlib.Data.List.Basic
import BoundedLR.Automaton.Build
import BoundedLR.Proofs.ItemClosure

/-!
# The moves of a set of items

Recognising a symbol leads from a set of items to a kernel, the advances of some
of its items.  On a terminal these are all items before the terminal.  On a
non-terminal they are the items whose slot accepts the production that has been
completed; productions that lead to the same kernel share a move, and the filter
of the move tells which productions they are.

The filter is stored in one of three ways, but among the productions that begin
in the set it always means the same: `ProductionFilter.accepts_ofGroup`.
-/

namespace BoundedLR

/-! ## Filters -/

/-- **However a group is stored, its filter lets exactly the group pass.**  Only
candidates are asked about; the group must not be empty. -/
theorem ProductionFilter.accepts_ofGroup {candidates : List Nat} {q : Nat → Bool} {c : Nat}
    (hc : c ∈ candidates) (hne : ∃ d ∈ candidates, q d = true) :
    (ofGroup candidates (candidates.filter q)).accepts c = q c := by
  unfold ofGroup
  by_cases hl : (candidates.filter q).length = candidates.length
  · rw [if_pos hl]
    have heq : candidates.filter q = candidates := List.filter_sublist.eq_of_length hl
    rw [← heq] at hc
    rw [(List.mem_filter.1 hc).2]
    rfl
  · rw [if_neg hl]
    dsimp only
    split
    · -- the candidates outside the group are listed
      have hlisted : candidates.filter (fun d => !(candidates.filter q).contains d) =
          candidates.filter fun d => !q d := by
        refine List.filter_congr fun d hd => ?_
        rw [List.contains_eq_mem]
        congr 1
        simp [List.mem_filter, hd]
      rw [accepts, hlisted]
      have hnonempty : (candidates.filter fun d => !q d) ≠ [] := by
        intro hnil
        refine hl (congrArg List.length (List.filter_eq_self.2 fun d hd => ?_))
        have hd' := List.filter_eq_nil_iff.1 hnil d hd
        simpa using hd'
      rw [List.isEmpty_eq_false_iff.2 hnonempty, Bool.false_or, List.contains_eq_mem]
      cases hq : q c <;> simp [List.mem_filter, hc, hq]
    · have hnonempty : candidates.filter q ≠ [] := by
        obtain ⟨d, hd, hqd⟩ := hne
        exact List.ne_nil_of_mem (List.mem_filter.2 ⟨hd, hqd⟩)
      rw [accepts, List.isEmpty_eq_false_iff.2 hnonempty, Bool.false_or, List.contains_eq_mem]
      cases hq : q c <;> simp [List.mem_filter, hc, hq]

namespace Productions

variable {g : Productions} {items : List Item} {s : Symbol} {m : Move} {i j : Item} {c : Nat}

/-- The items before a symbol. -/
def before (g : Productions) (items : List Item) (s : Symbol) : List Item :=
  items.filter fun i => g.nextSymbol i == some s

theorem mem_before : i ∈ g.before items s ↔ i ∈ items ∧ g.nextSymbol i = some s := by
  rw [before, List.mem_filter, beq_iff_eq]

theorem mem_candidates :
    c ∈ g.candidates items s ↔ Item.initial c ∈ items ∧ g.head? c = some s := by
  simp only [candidates, List.mem_map, List.mem_filter, Bool.and_eq_true, beq_iff_eq]
  constructor
  · rintro ⟨i, ⟨hi, hd, hh⟩, rfl⟩
    have heq : Item.initial i.production = i := by rw [Item.initial, ← hd]
    rw [heq]
    exact ⟨hi, hh⟩
  · rintro ⟨hi, hh⟩
    exact ⟨Item.initial c, ⟨hi, rfl, hh⟩, rfl⟩

theorem mem_kernelOver :
    j ∈ g.kernelOver items c ↔ ∃ i ∈ items, g.admits i c = true ∧ j = i.advance := by
  simp only [kernelOver, List.mem_map, List.mem_filter]
  constructor
  · rintro ⟨i, ⟨hi, ha⟩, rfl⟩
    exact ⟨i, hi, ha, rfl⟩
  · rintro ⟨i, hi, ha, rfl⟩
    exact ⟨i, ⟨hi, ha⟩, rfl⟩

/-! ## Moves over one symbol -/

theorem movesOn_of_isTerminal (h : s.isTerminal = true) :
    g.movesOn items s = [⟨s, (g.before items s).map .advance, .all⟩] := by
  rw [movesOn, if_pos h]
  rfl

/-- A move over a non-terminal belongs to one of the kernels that the productions
beginning here lead to, and its filter is that of the productions leading
there. -/
theorem mem_movesOn_of_isTerminal_eq_false (h : s.isTerminal = false) :
    m ∈ g.movesOn items s ↔ ∃ kernel : List Item, kernel ≠ [] ∧
      (∃ c ∈ g.candidates items s, g.kernelOver (g.before items s) c = kernel) ∧
      m = ⟨s, kernel, .ofGroup (g.candidates items s)
        ((g.candidates items s).filter fun c => g.kernelOver (g.before items s) c == kernel)⟩ := by
  have hgroup : ∀ kernel : List Item,
      ((((g.candidates items s).map fun c => (c, g.kernelOver (g.before items s) c)).filter
        fun x => x.2 == kernel).map fun x => x.1) =
      (g.candidates items s).filter fun c => g.kernelOver (g.before items s) c == kernel := by
    intro kernel
    rw [List.filter_map, List.map_map]
    exact List.map_id' _
  have hbefore : items.filter (fun i => g.nextSymbol i == some s) = g.before items s := rfl
  rw [movesOn, if_neg (by rw [h]; exact Bool.false_ne_true)]
  simp only [List.mem_map, mem_ascending, List.mem_filter, hbefore]
  constructor
  · rintro ⟨kernel, ⟨⟨x, ⟨c, hc, rfl⟩, rfl⟩, hne⟩, rfl⟩
    refine ⟨_, ?_, ⟨c, hc, rfl⟩, congrArg (Move.mk s _) (congrArg _ (hgroup _))⟩
    simpa using hne
  · rintro ⟨kernel, hne, ⟨c, hc, rfl⟩, rfl⟩
    refine ⟨_, ⟨⟨_, ⟨c, hc, rfl⟩, rfl⟩, ?_⟩, congrArg (Move.mk s _) (congrArg _ (hgroup _))⟩
    simpa using hne

theorem symbol_of_mem_movesOn (h : m ∈ g.movesOn items s) : m.symbol = s := by
  by_cases ht : s.isTerminal = true
  · rw [movesOn_of_isTerminal ht, List.mem_singleton] at h
    rw [h]
  · obtain ⟨_, -, -, rfl⟩ :=
      (mem_movesOn_of_isTerminal_eq_false (Bool.eq_false_iff.2 ht)).1 h
    rfl

/-- A kernel is made of advances of items before the symbol. -/
theorem exists_advance_of_mem_movesOn (h : m ∈ g.movesOn items s) (hj : j ∈ m.kernel) :
    ∃ i ∈ items, g.nextSymbol i = some s ∧ j = i.advance := by
  by_cases ht : s.isTerminal = true
  · rw [movesOn_of_isTerminal ht, List.mem_singleton] at h
    subst h
    obtain ⟨i, hi, rfl⟩ := List.mem_map.1 hj
    obtain ⟨hi, hs⟩ := mem_before.1 hi
    exact ⟨i, hi, hs, rfl⟩
  · obtain ⟨kernel, -, ⟨c, -, rfl⟩, rfl⟩ :=
      (mem_movesOn_of_isTerminal_eq_false (Bool.eq_false_iff.2 ht)).1 h
    obtain ⟨i, hi, -, rfl⟩ := mem_kernelOver.1 hj
    obtain ⟨hi, hs⟩ := mem_before.1 hi
    exact ⟨i, hi, hs, rfl⟩

/-! ## All moves -/

theorem mem_moves :
    m ∈ g.moves items ↔ (∃ i ∈ items, g.nextSymbol i = some m.symbol) ∧
      m ∈ g.movesOn items m.symbol := by
  simp only [moves, List.mem_flatMap, mem_ascending, List.mem_filterMap]
  constructor
  · rintro ⟨s, hs, hm⟩
    rw [symbol_of_mem_movesOn hm]
    exact ⟨hs, hm⟩
  · rintro ⟨hs, hm⟩
    exact ⟨m.symbol, hs, hm⟩

/-- There is one move for each terminal. -/
theorem nodup_terminals_moves (g : Productions) (items : List Item) :
    ((g.moves items).filter (·.symbol.isTerminal)).Pairwise fun m m' => m.symbol ≠ m'.symbol := by
  have hall : ∀ symbols : List Symbol, symbols.Nodup →
      ((symbols.flatMap (g.movesOn items)).filter (·.symbol.isTerminal)).Pairwise
        fun m m' => m.symbol ≠ m'.symbol := by
    intro symbols
    induction symbols with
    | nil => exact fun _ => List.Pairwise.nil
    | cons s rest ih =>
        intro hn
        rw [List.nodup_cons] at hn
        rw [List.flatMap_cons, List.filter_append, List.pairwise_append]
        refine ⟨?_, ih hn.2, ?_⟩
        · by_cases ht : s.isTerminal = true
          · rw [movesOn_of_isTerminal ht]
            exact (List.pairwise_singleton _ _).filter _
          · have hnone : (g.movesOn items s).filter (·.symbol.isTerminal) = [] := by
              refine List.filter_eq_nil_iff.2 fun m hm => ?_
              rw [symbol_of_mem_movesOn hm]
              exact ht
            rw [hnone]
            exact List.Pairwise.nil
        · intro m hm m' hm' heq
          have hs := symbol_of_mem_movesOn (List.mem_filter.1 hm).1
          obtain ⟨s', hs', hmem⟩ := List.mem_flatMap.1 (List.mem_filter.1 hm').1
          rw [← symbol_of_mem_movesOn hmem, ← heq, hs] at hs'
          exact hn.1 hs'
  exact hall _ (IsAscending.ascending _).nodup

/-- A kernel is made of advances of items before the symbol of its move. -/
theorem exists_advance_of_mem_moves (h : m ∈ g.moves items) (hj : j ∈ m.kernel) :
    ∃ i ∈ items, g.nextSymbol i = some m.symbol ∧ j = i.advance :=
  exists_advance_of_mem_movesOn (mem_moves.1 h).2 hj

/-- Items advance in order. -/
theorem compare_advance {i j : Item} (h : compare i j = .lt) :
    compare i.advance j.advance = .lt := by
  have hdot : compare (i.dot + 1) (j.dot + 1) = compare i.dot j.dot := by
    simp only [Nat.compare_eq_ite_lt, Nat.add_lt_add_iff_right]
  change (compare i.production j.production).then (compare (i.dot + 1) (j.dot + 1)) = .lt
  rw [hdot]
  exact h

theorem kernel_of_mem_moves (ha : IsAscending items) (h : m ∈ g.moves items) :
    IsAscending m.kernel ∧ m.kernel ≠ [] := by
  obtain ⟨⟨i, hi, hs⟩, h⟩ := mem_moves.1 h
  have hbefore : IsAscending (g.before items m.symbol) := ha.filter _
  have hadv : ∀ a b : Item, compare a b = .lt → compare a.advance b.advance = .lt :=
    fun _ _ => compare_advance
  by_cases ht : m.symbol.isTerminal = true
  · rw [movesOn_of_isTerminal ht, List.mem_singleton] at h
    rw [h]
    refine ⟨hbefore.map hadv, ?_⟩
    exact List.ne_nil_of_mem (List.mem_map.2 ⟨i, mem_before.2 ⟨hi, hs⟩, rfl⟩)
  · obtain ⟨kernel, hne, ⟨c, -, rfl⟩, hm⟩ :=
      (mem_movesOn_of_isTerminal_eq_false (Bool.eq_false_iff.2 ht)).1 h
    rw [hm]
    exact ⟨(hbefore.filter _).map hadv, hne⟩

/-- **Over a terminal there is one move**, and it advances every item before the
terminal. -/
theorem mem_moves_terminal (ht : m.symbol.isTerminal = true) :
    m ∈ g.moves items ↔ (∃ i ∈ items, g.nextSymbol i = some m.symbol) ∧
      m.kernel = (g.before items m.symbol).map .advance ∧ m.filter = .all := by
  rw [mem_moves, movesOn_of_isTerminal ht, List.mem_singleton]
  refine and_congr_right fun _ => ?_
  obtain ⟨s, kernel, filter⟩ := m
  simp only [Move.mk.injEq, true_and]

/-- **Over a non-terminal a production takes exactly one move**: that to the
advances of the items whose slot accepts it. -/
theorem exists_mem_moves_of_candidate (hs : s.isTerminal = false)
    (hc : c ∈ g.candidates items s) (hi : i ∈ items) (hn : g.nextSymbol i = some s)
    (ha : g.admits i c = true) :
    ∃ m ∈ g.moves items, m.symbol = s ∧ m.filter.accepts c = true := by
  have hmem : i.advance ∈ g.kernelOver (g.before items s) c :=
    mem_kernelOver.2 ⟨i, mem_before.2 ⟨hi, hn⟩, ha, rfl⟩
  refine ⟨⟨s, g.kernelOver (g.before items s) c, .ofGroup (g.candidates items s)
    ((g.candidates items s).filter fun d => g.kernelOver (g.before items s) d ==
      g.kernelOver (g.before items s) c)⟩, ?_, rfl, ?_⟩
  · refine mem_moves.2 ⟨⟨i, hi, hn⟩, (mem_movesOn_of_isTerminal_eq_false hs).2 ?_⟩
    exact ⟨_, List.ne_nil_of_mem hmem, ⟨c, hc, rfl⟩, rfl⟩
  · have hacc := ProductionFilter.accepts_ofGroup (q := fun d =>
      g.kernelOver (g.before items s) d == g.kernelOver (g.before items s) c) hc
      ⟨c, hc, beq_self_eq_true _⟩
    rw [hacc]
    exact beq_self_eq_true _

/-- A move that a production beginning here takes leads to the advances of the
items whose slot accepts the production. -/
theorem kernel_eq_of_accepts (hm : m ∈ g.moves items) (hs : m.symbol.isTerminal = false)
    (hc : c ∈ g.candidates items m.symbol) (ha : m.filter.accepts c = true) :
    m.kernel = g.kernelOver (g.before items m.symbol) c := by
  obtain ⟨kernel, -, ⟨d, hd, hk⟩, heq⟩ :=
    (mem_movesOn_of_isTerminal_eq_false hs).1 (mem_moves.1 hm).2
  have hacc := ProductionFilter.accepts_ofGroup (q := fun c =>
    g.kernelOver (g.before items m.symbol) c == kernel) hc ⟨d, hd, beq_iff_eq.2 hk⟩
  rw [heq] at ha ⊢
  rw [hacc, beq_iff_eq] at ha
  exact ha.symm

end Productions
end BoundedLR
