import Mathlib.Data.Finset.Card
import Mathlib.Data.Finset.Range
import BoundedLR.Item.Closure
import BoundedLR.Proofs.AscendingSets

/-!
# The closure is a fixed point

`Productions.closure` runs at most as many rounds as there are productions.  That
is enough: a round that is not the last adds an item, what it adds is the initial
item of some production, and there are no more of these than productions.  So
the closure is closed under opening, and together with the soundness of the
rounds this makes it exactly the set of items that the seeds reach.

The rest of the module says what is in a closure: besides the seeds there are
only initial items.  So an item with its dot further on was a seed, and the
initial item of a production has been opened by some member.
-/

namespace BoundedLR
namespace Productions

variable {g : Productions} {seeds items : List Item} {i j : Item}

/-- An opened item is the initial item of a production that the slot behind the
dot accepts. -/
theorem mem_openings :
    j ∈ g.openings i ↔ ∃ s c, g.nextSymbol i = some s ∧ g.head? c = some s ∧
      g.admits i c = true ∧ j = .initial c := by
  unfold openings
  cases hs : g.nextSymbol i with
  | none => simp
  | some s =>
      simp only [List.mem_map, List.mem_filter, mem_derives, Option.some.injEq]
      constructor
      · rintro ⟨c, ⟨hc, ha⟩, rfl⟩
        exact ⟨s, c, rfl, hc, ha, rfl⟩
      · rintro ⟨s', c, rfl, hc, ha, rfl⟩
        exact ⟨c, ⟨hc, ha⟩, rfl⟩

theorem lt_count_of_head? {s : Symbol} {p : Nat} (h : g.head? p = some s) : p < g.count := by
  have hp : p ∈ g.derives s := mem_derives.2 h
  exact List.mem_range.1 (List.mem_filter.1 hp).1

/-! ## Enough rounds -/

/-- The productions whose initial item is still missing from a set of items. -/
def missing (g : Productions) (items : List Item) : Finset Nat :=
  (Finset.range g.count).filter fun p => Item.initial p ∉ items

/-- One round of saturation. -/
theorem mem_grown : j ∈ ascending (items.flatMap g.openings ++ items) ↔
    (∃ i ∈ items, j ∈ g.openings i) ∨ j ∈ items := by
  rw [mem_ascending, List.mem_append, List.mem_flatMap]

/-- A round that adds anything leaves fewer initial items missing. -/
theorem missing_grown_lt {grown : List Item} (hs : items ⊆ grown)
    (hg : ∀ j ∈ grown, j ∈ items ∨ ∃ p < g.count, j = .initial p)
    (hne : ¬ grown ⊆ items) : (g.missing grown).card < (g.missing items).card := by
  obtain ⟨j, hj, hji⟩ : ∃ j ∈ grown, j ∉ items := by
    by_contra hcon
    refine hne fun j hj => ?_
    by_contra hji
    exact hcon ⟨j, hj, hji⟩
  obtain ⟨p, hp, rfl⟩ := (hg j hj).resolve_left hji
  refine Finset.card_lt_card ⟨?_, ?_⟩
  · intro q hq
    rw [missing, Finset.mem_filter] at hq ⊢
    exact ⟨hq.1, fun hqi => hq.2 (hs hqi)⟩
  · intro hsub
    have hmem : p ∈ g.missing items :=
      Finset.mem_filter.2 ⟨Finset.mem_range.2 hp, hji⟩
    exact (Finset.mem_filter.1 (hsub hmem)).2 hj

/-- A round that is not the last uses up an initial item. -/
theorem missing_lt_of_grows (ha : IsAscending items)
    (hl : (ascending (items.flatMap g.openings ++ items)).length ≠ items.length) :
    (g.missing (ascending (items.flatMap g.openings ++ items))).card <
      (g.missing items).card := by
  have hsub : items ⊆ ascending (items.flatMap g.openings ++ items) :=
    fun j hj => mem_grown.2 (.inr hj)
  refine missing_grown_lt hsub (fun j hj => ?_) fun hback => hl ?_
  · rcases mem_grown.1 hj with ⟨i, -, hji⟩ | hji
    · obtain ⟨s, c, -, hc, -, rfl⟩ := mem_openings.1 hji
      exact .inr ⟨c, lt_count_of_head? hc, rfl⟩
    · exact .inl hji
  · have heq : items = ascending (items.flatMap g.openings ++ items) :=
      ha.eq_of_mem_iff (IsAscending.ascending _) fun z => ⟨fun hz => hsub hz, fun hz => hback hz⟩
    exact congrArg List.length heq.symm

/-- **Saturation reaches a fixed point** if there are as many rounds as initial
items are missing. -/
theorem openings_subset_saturate {rounds : Nat} (ha : IsAscending items)
    (hr : (g.missing items).card ≤ rounds) :
    ∀ i ∈ g.saturate rounds items, g.openings i ⊆ g.saturate rounds items := by
  induction rounds generalizing items with
  | zero =>
      intro i hi j hj
      rw [saturate] at hi ⊢
      obtain ⟨s, c, -, hc, -, rfl⟩ := mem_openings.1 hj
      by_contra hn
      have hm : c ∈ g.missing items :=
        Finset.mem_filter.2 ⟨Finset.mem_range.2 (lt_count_of_head? hc), hn⟩
      have hpos : 0 < (g.missing items).card := Finset.card_pos.2 ⟨c, hm⟩
      omega
  | succ rounds ih =>
      have hsub : items ⊆ ascending (items.flatMap g.openings ++ items) :=
        fun j hj => mem_grown.2 (.inr hj)
      have hasc : IsAscending (ascending (items.flatMap g.openings ++ items)) :=
        IsAscending.ascending _
      unfold saturate
      dsimp only
      split
      · rename_i hl
        have heq : items = ascending (items.flatMap g.openings ++ items) :=
          ha.eq_of_subset_of_length_le hasc hsub (le_of_eq hl)
        intro i hi j hj
        rw [heq]
        exact mem_grown.2 (.inl ⟨i, hi, hj⟩)
      · rename_i hl
        exact ih hasc (Nat.le_of_lt_succ (Nat.lt_of_lt_of_le (missing_lt_of_grows ha hl) hr))

theorem subset_saturate {rounds : Nat} : items ⊆ g.saturate rounds items := by
  induction rounds generalizing items with
  | zero => exact fun _ h => h
  | succ rounds ih =>
      unfold saturate
      dsimp only
      split
      · exact fun _ h => h
      · exact fun j hj => ih (mem_grown.2 (.inr hj))

theorem isAscending_saturate {rounds : Nat} (ha : IsAscending items) :
    IsAscending (g.saturate rounds items) := by
  induction rounds generalizing items with
  | zero => exact ha
  | succ rounds ih =>
      unfold saturate
      dsimp only
      split
      · exact ha
      · exact ih (IsAscending.ascending _)

/-! ## The closure -/

theorem isAscending_closure (g : Productions) (seeds : List Item) :
    IsAscending (g.closure seeds) :=
  isAscending_saturate (IsAscending.ascending seeds)

theorem subset_closure : seeds ⊆ g.closure seeds :=
  fun _ h => subset_saturate (mem_ascending.2 h)

/-- What a member of the closure opens is in the closure. -/
theorem openings_subset_closure (h : i ∈ g.closure seeds) : g.openings i ⊆ g.closure seeds := by
  refine openings_subset_saturate (IsAscending.ascending seeds) ?_ i h
  calc (g.missing (ascending seeds)).card
      ≤ (Finset.range g.count).card := Finset.card_filter_le _ _
    _ = g.count := Finset.card_range _

/-- **The closure is what the seeds reach.** -/
theorem mem_closure_iff : i ∈ g.closure seeds ↔ g.Reaches seeds i := by
  constructor
  · exact reaches_of_mem_closure i
  · intro h
    induction h with
    | seed h => exact subset_closure h
    | opened _ hj ih => exact openings_subset_closure ih hj

/-- A member of a closure is a seed, or a member has opened it. -/
theorem mem_closure_cases (h : i ∈ g.closure seeds) :
    i ∈ seeds ∨ ∃ j ∈ g.closure seeds, i ∈ g.openings j := by
  cases mem_closure_iff.1 h with
  | seed h => exact .inl h
  | opened hj hi => exact .inr ⟨_, mem_closure_iff.2 hj, hi⟩

/-- An item whose dot has been moved was a seed. -/
theorem mem_seeds_of_dot_pos (h : i ∈ g.closure seeds) (hd : 0 < i.dot) : i ∈ seeds := by
  rcases mem_closure_cases h with h | ⟨j, -, hj⟩
  · exact h
  · obtain ⟨s, c, -, -, -, rfl⟩ := mem_openings.1 hj
    exact absurd hd (Nat.lt_irrefl 0)

end Productions
end BoundedLR
