import Mathlib.Order.Bounds.Defs
import BoundedLR.Proofs.NormalForm
import BoundedLR.Proofs.Worklists

/-!
# The closure is the least closed set

A set of items is *closed* if with an item before a non-terminal it holds the initial item of
every production of that non-terminal that the slot accepts (`Productions.Closed`).  This says
nothing about how a closure is computed.  The closure of some items is the least closed set
that holds them (`Productions.closure_isLeast`), and being the least is all that is needed to
see that it does not depend on the order or the repetition of the seeds, is its own closure,
and grows with the seeds.

The definition of the closure goes by rounds.  A closure can also be worked out one item at a
time, with the items that are still to be opened in a list (`Productions.takeUp`).  Every item
of the closure is taken up once: the loop ends with the closure after as many steps as the
closure has items (`Productions.takeUp_ends`).
-/

namespace BoundedLR

namespace Productions

variable {g : Productions} {start : Symbol} {seeds others : List Item}

/-! ## The least closed set -/

/-- With an item before a non-terminal the set holds the initial items of the productions of
that non-terminal that the slot accepts. -/
def Closed (g : Productions) (items : Set Item) : Prop :=
  ∀ i ∈ items, ∀ s c, g.nextSymbol i = some s → s.isNonTerminal = true →
    g.head? c = some s → g.admits i c = true → Item.initial c ∈ items

theorem isNonTerminal_of_head? (hg : g.WellFormed start) {s : Symbol} {p : Nat}
    (h : g.head? p = some s) : s.isNonTerminal = true := by
  by_cases hp : p = 0
  · subst hp
    rw [hg.head?_zero, Option.some.injEq] at h
    exact h ▸ rfl
  · rw [Symbol.isNonTerminal_eq_not_isTerminal, hg.isTerminal_of_head? h hp]
    rfl

/-- A set is closed if it holds what its members open. -/
theorem closed_iff (hg : g.WellFormed start) {items : Set Item} :
    g.Closed items ↔ ∀ i ∈ items, ∀ j ∈ g.openings i, j ∈ items := by
  constructor
  · intro h i hi j hj
    obtain ⟨s, c, hs, hc, hadmits, rfl⟩ := mem_openings.1 hj
    exact h i hi s c hs (isNonTerminal_of_head? hg hc) hc hadmits
  · intro h i hi s c hs _ hc hadmits
    exact h i hi _ (mem_openings.2 ⟨s, c, hs, hc, hadmits, rfl⟩)

/-- **The closure is the least closed set** that holds the seeds. -/
theorem closure_isLeast (hg : g.WellFormed start) (seeds : List Item) :
    IsLeast {items : Set Item | (∀ i ∈ seeds, i ∈ items) ∧ g.Closed items}
      {i | i ∈ g.closure seeds} := by
  constructor
  · exact ⟨fun i hi => subset_closure hi,
      (closed_iff hg).2 fun i hi j hj => openings_subset_closure hi hj⟩
  · rintro items ⟨hseeds, hclosed⟩ i hi
    induction mem_closure_iff.1 hi with
    | seed hseed => exact hseeds _ hseed
    | opened hj hij ih => exact (closed_iff hg).1 hclosed _ (ih (mem_closure_iff.2 hj)) _ hij

/-- A closure that holds the seeds holds their closure. -/
theorem closure_subset (hg : g.WellFormed start) (h : seeds ⊆ g.closure others) :
    g.closure seeds ⊆ g.closure others :=
  (closure_isLeast hg seeds).2 ⟨fun _ hi => h hi, (closure_isLeast hg others).1.2⟩

/-- More seeds have a larger closure. -/
theorem closure_mono (hg : g.WellFormed start) (h : seeds ⊆ others) :
    g.closure seeds ⊆ g.closure others :=
  closure_subset hg fun _ hi => subset_closure (h hi)

/-- The closure depends on the set of the seeds only. -/
theorem closure_congr (hg : g.WellFormed start) (h : ∀ i, i ∈ seeds ↔ i ∈ others) :
    g.closure seeds = g.closure others :=
  (isAscending_closure g seeds).eq_of_mem_iff (isAscending_closure g others) fun _ =>
    ⟨fun hi => closure_mono hg (fun j hj => (h j).1 hj) hi,
      fun hi => closure_mono hg (fun j hj => (h j).2 hj) hi⟩

/-- A closure is its own closure. -/
theorem closure_closure (hg : g.WellFormed start) (seeds : List Item) :
    g.closure (g.closure seeds) = g.closure seeds :=
  (isAscending_closure g _).eq_of_mem_iff (isAscending_closure g seeds) fun _ =>
    ⟨fun hi => closure_subset hg (fun _ hj => hj) hi, fun hi => subset_closure hi⟩

end Productions

/-! ## One item at a time -/

namespace Productions

variable {g : Productions} {start : Symbol}

/-- Takes up the item that has been found last, and finds what it opens. -/
def takeUp (g : Productions) : Expansion Item → Expansion Item ⊕ List Item :=
  Expansion.takeUp g.openings

/-- A closure is the least set that holds the seeds and with each item what it opens. -/
theorem generated_closure (g : Productions) (seeds : List Item) :
    Generated g.openings seeds (g.closure seeds) where
  ascending := isAscending_closure g seeds
  seeds_subset _ hi := subset_closure hi
  closed _ hi _ hj := openings_subset_closure hi hj
  least other hseeds hclosed i hi := by
    induction mem_closure_iff.1 hi with
    | seed hseed => exact hseeds hseed
    | opened hj hij ih => exact hclosed _ (ih (mem_closure_iff.2 hj)) hij

/-- **Every item of the closure is taken up once**, and then the closure has been found. -/
theorem takeUp_ends (g : Productions) (seeds : List Item) :
    EndsIn g.takeUp (g.closure seeds).length (.ofSeeds seeds) (g.closure seeds) :=
  (g.generated_closure seeds).ends

/-! ## The least fixpoint -/

/-- The closure is the least fixpoint of opening, and the loop that takes up one item after the
other ends with it. -/
structure ClosesLeast (g : Productions) : Prop where
  /-- The productions of a symbol are those that it heads, in ascending order. -/
  derives_ascending : ∀ s, (g.derives s).Pairwise (· < ·)
  derives_iff : ∀ s p, p ∈ g.derives s ↔ g.head? p = some s
  ends : ∀ seeds, EndsIn g.takeUp (g.closure seeds).length (.ofSeeds seeds) (g.closure seeds)
  ascending : ∀ seeds, IsAscending (g.closure seeds)
  nodup : ∀ seeds, (g.closure seeds).Nodup
  least : ∀ seeds, IsLeast {items : Set Item | (∀ i ∈ seeds, i ∈ items) ∧ g.Closed items}
    {i | i ∈ g.closure seeds}
  /-- Neither the order nor the repetition of the seeds matters. -/
  congr : ∀ seeds others : List Item, (∀ i, i ∈ seeds ↔ i ∈ others) →
    g.closure seeds = g.closure others
  idempotent : ∀ seeds, g.closure (g.closure seeds) = g.closure seeds
  mono : ∀ seeds others : List Item, seeds ⊆ others → g.closure seeds ⊆ g.closure others

theorem closesLeast (hg : g.WellFormed start) : g.ClosesLeast where
  derives_ascending _ := List.pairwise_lt_range.filter _
  derives_iff _ _ := mem_derives
  ends := g.takeUp_ends
  ascending := g.isAscending_closure
  nodup seeds := (g.isAscending_closure seeds).nodup
  least := closure_isLeast hg
  congr _ _ := closure_congr hg
  idempotent := closure_closure hg
  mono _ _ := closure_mono hg

end Productions

/-- **The closure of a set of items is the least fixpoint**, for the productions of every grammar
and whatever the items are. -/
theorem Grammar.closesLeast_of_normalize {grammar : Grammar} {g : Productions}
    (h : grammar.normalize = .ok g) : g.ClosesLeast :=
  Productions.closesLeast (wellFormed_of_normalize h)

/-- A slot that accepts two of three rules, one of which begins with a slot that accepts nothing
but this rule. -/
def Grammar.selective : Grammar where
  start := .nonTerminal 0
  rules :=
    [⟨.nonTerminal 0, [.symbol (.nonTerminal 1), .marker (.mask 1)], 0, false⟩,
      ⟨.nonTerminal 1, [.symbol (.terminal 0)], 1, false⟩,
      ⟨.nonTerminal 1, [.symbol (.terminal 1)], 2, false⟩,
      ⟨.nonTerminal 1, [.symbol (.nonTerminal 1), .marker .itself, .symbol (.terminal 0)], 1,
        false⟩]
  priorities := []

/-- The start opens the rules that its slots accept, and the recursive rule opens itself only. -/
theorem Grammar.closesLeast_of_normalize_selective : ∃ g, selective.normalize = .ok g ∧
    g.ClosesLeast ∧ g.closure [.initial 0] = [0, 1, 2, 4].map .initial ∧
    g.closure [⟨4, 0⟩, ⟨1, 1⟩, ⟨4, 0⟩] = [⟨1, 1⟩, ⟨4, 0⟩] := by
  obtain ⟨g, hg, hclosures⟩ := map_eq_ok.1 (show selective.normalize.map (fun g => decide (
      g.closure [.initial 0] = [0, 1, 2, 4].map .initial ∧
      g.closure [⟨4, 0⟩, ⟨1, 1⟩, ⟨4, 0⟩] = [⟨1, 1⟩, ⟨4, 0⟩])) = .ok true by
    decide +kernel)
  obtain ⟨hstart, hself⟩ := of_decide_eq_true hclosures
  exact ⟨g, hg, closesLeast_of_normalize hg, hstart, hself⟩

end BoundedLR
