import Mathlib.Data.Finset.Powerset
import Mathlib.Data.List.Forall2
import BoundedLR.Proofs.Moves

/-!
# Every kernel gets a number and a state

`Productions.explore` works through the kernels in the order in which they are
met.  Two things have to be shown about it.  First, when it stops because no
kernel is left, each numbered kernel has its state, and each edge leads to the
number of the kernel that the move behind it leads to; `Explored` is the
invariant of the rounds.  Second, it does stop for this reason and not because
the rounds are used up: different numbers have different kernels, a kernel is an
ascending list of items, hence a set of items, and there are `2 ^ itemCount` of
these.
-/

namespace BoundedLR
namespace Productions

variable {g : Productions}

/-! ## Items in range -/

/-- Whether an item is one of the productions' items. -/
def Holds (g : Productions) (i : Item) : Prop :=
  i.production < g.count ∧ i.dot ≤ g.length i.production

/-- An item before a symbol can be advanced. -/
theorem holds_advance {i : Item} {s : Symbol} (h : g.nextSymbol i = some s)
    (hi : g.Holds i) : g.Holds i.advance := by
  obtain ⟨slot, hslot, -⟩ := Option.map_eq_some_iff.1 h
  have hlt : i.dot < (g.slots i.production).length := (List.getElem?_eq_some_iff.1 hslot).1
  exact ⟨hi.1, hlt⟩

theorem holds_of_mem_closure {seeds : List Item} (hs : ∀ i ∈ seeds, g.Holds i) {i : Item}
    (h : i ∈ g.closure seeds) : g.Holds i := by
  rcases mem_closure_cases h with h | ⟨j, -, hj⟩
  · exact hs i h
  · obtain ⟨s, c, -, hc, -, rfl⟩ := mem_openings.1 hj
    exact ⟨lt_count_of_head? hc, Nat.zero_le _⟩

/-- All items of the productions. -/
def allItems (g : Productions) : List Item :=
  (List.range g.count).flatMap fun p => (List.range (g.length p + 1)).map (Item.mk p)

theorem length_allItems (g : Productions) : g.allItems.length = g.itemCount := by
  rw [allItems, itemCount, List.length_flatMap]
  simp only [List.length_map, List.length_range]
  rfl

theorem mem_allItems {i : Item} (h : g.Holds i) : i ∈ g.allItems :=
  List.mem_flatMap.2 ⟨i.production, List.mem_range.2 h.1,
    List.mem_map.2 ⟨i.dot, List.mem_range.2 (Nat.lt_succ_of_le h.2), rfl⟩⟩

/-- There are no more ascending lists of items than sets of items. -/
theorem length_le_of_nodup_kernels {kernels : List (List Item)} (hn : kernels.Nodup)
    (ha : ∀ k ∈ kernels, IsAscending k) (hh : ∀ k ∈ kernels, ∀ i ∈ k, g.Holds i) :
    kernels.length ≤ 2 ^ g.itemCount := by
  have hinj : ∀ k ∈ kernels, ∀ l ∈ kernels, k.toFinset = l.toFinset → k = l := by
    intro k hk l hl hkl
    refine (ha k hk).eq_of_mem_iff (ha l hl) fun z => ?_
    rw [← List.mem_toFinset, hkl, List.mem_toFinset]
  have hsub : (kernels.map List.toFinset).toFinset ⊆ g.allItems.toFinset.powerset := by
    intro t ht
    obtain ⟨k, hk, rfl⟩ := List.mem_map.1 (List.mem_toFinset.1 ht)
    refine Finset.mem_powerset.2 fun i hi => ?_
    exact List.mem_toFinset.2 (mem_allItems (hh k hk i (List.mem_toFinset.1 hi)))
  calc kernels.length
      = (kernels.map List.toFinset).toFinset.card := by
        rw [List.toFinset_card_of_nodup (hn.map_on fun k hk l hl => hinj k hk l hl),
          List.length_map]
    _ ≤ g.allItems.toFinset.powerset.card := Finset.card_le_card hsub
    _ = 2 ^ g.allItems.toFinset.card := Finset.card_powerset _
    _ ≤ 2 ^ g.itemCount := by
        refine Nat.pow_le_pow_right (by decide) ?_
        rw [← length_allItems]
        exact List.toFinset_card_le _

end Productions

/-! ## Numbering -/

/-- A kernel is an ascending list of items, and in every kernel but that of the
start all dots have been moved. -/
structure IsKernel (g : Productions) (kernel : List Item) : Prop where
  ascending : IsAscending kernel
  holds : ∀ i ∈ kernel, g.Holds i
  dot_pos : kernel = [Item.initial 0] ∨ ∀ i ∈ kernel, 0 < i.dot

/-- What a move leads to is a kernel. -/
theorem IsKernel.of_mem_moves {g : Productions} {items : List Item} {m : Move}
    (ha : IsAscending items) (hi : ∀ i ∈ items, g.Holds i) (hm : m ∈ g.moves items) :
    IsKernel g m.kernel := by
  refine ⟨(Productions.kernel_of_mem_moves ha hm).1, ?_, .inr ?_⟩
  · intro i hi'
    obtain ⟨j, hj, hs, rfl⟩ := Productions.exists_advance_of_mem_moves hm hi'
    exact Productions.holds_advance hs (hi j hj)
  · intro i hi'
    obtain ⟨j, -, -, rfl⟩ := Productions.exists_advance_of_mem_moves hm hi'
    exact Nat.succ_pos _

/-- Every number stands for a kernel, and different numbers for different ones. -/
structure NumberedKernels (g : Productions) (cores : Array Core) : Prop where
  nodup : (cores.toList.map (·.kernel)).Nodup
  isKernel : ∀ c ∈ cores, IsKernel g c.kernel

/-- The later numbering leaves the numbers of the earlier one alone. -/
def ExtendsNumbering (cores cores' : Array Core) : Prop :=
  ∀ (n : Nat) (c : Core), cores[n]? = some c → cores'[n]? = some c

theorem ExtendsNumbering.refl (cores : Array Core) : ExtendsNumbering cores cores :=
  fun _ _ h => h

theorem ExtendsNumbering.trans {a b c : Array Core} (hab : ExtendsNumbering a b)
    (hbc : ExtendsNumbering b c) : ExtendsNumbering a c :=
  fun n x h => hbc n x (hab n x h)

/-- The edge that a move becomes. -/
def Edge.Follows (cores : Array Core) (e : Edge) (m : Move) : Prop :=
  e.symbol = m.symbol ∧ e.filter = m.filter ∧
    ∃ core, cores[e.target]? = some core ∧ core.kernel = m.kernel

theorem Edge.Follows.mono {cores cores' : Array Core} (hx : ExtendsNumbering cores cores')
    {e : Edge} {m : Move} (h : e.Follows cores m) : e.Follows cores' m := by
  obtain ⟨hs, hf, core, hcore, hk⟩ := h
  exact ⟨hs, hf, core, hx _ _ hcore, hk⟩

theorem numberCore_spec {g : Productions} {cores : Array Core} (core : Core)
    (hc : NumberedKernels g cores) (hk : IsKernel g core.kernel) :
    ExtendsNumbering cores (numberCore cores core).2 ∧
      NumberedKernels g (numberCore cores core).2 ∧
      ∃ c, (numberCore cores core).2[(numberCore cores core).1]? = some c ∧
        c.kernel = core.kernel := by
  unfold numberCore
  cases hfind : cores.findIdx? fun c => c.kernel == core.kernel with
  | some n =>
      obtain ⟨hn, heq, -⟩ := Array.findIdx?_eq_some_iff_getElem.1 hfind
      exact ⟨.refl cores, hc, cores[n], Array.getElem?_eq_getElem hn, beq_iff_eq.1 heq⟩
  | none =>
      refine ⟨?_, ⟨?_, ?_⟩, core, Array.getElem?_push_size, rfl⟩
      · intro n c h
        have hn := (Array.getElem?_eq_some_iff.1 h).1
        rw [Array.getElem?_push_lt hn, ← Array.getElem?_eq_getElem hn]
        exact h
      · rw [Array.toList_push, List.map_append, List.map_singleton, List.nodup_append]
        refine ⟨hc.nodup, List.nodup_singleton _, ?_⟩
        intro k hmem l hl hkl
        obtain ⟨c, hc, rfl⟩ := List.mem_map.1 hmem
        rw [List.mem_singleton.1 hl] at hkl
        have hfalse := Array.findIdx?_eq_none_iff.1 hfind c (Array.mem_toList_iff.1 hc)
        rw [hkl] at hfalse
        simp at hfalse
      · intro c hmem
        rcases Array.mem_push.1 hmem with hmem | rfl
        · exact hc.isKernel c hmem
        · exact hk

theorem numberMoves_spec {g : Productions} (moves : List Move) {cores : Array Core}
    (hc : NumberedKernels g cores) (hk : ∀ m ∈ moves, IsKernel g m.kernel) :
    ExtendsNumbering cores (numberMoves cores moves).2 ∧
      NumberedKernels g (numberMoves cores moves).2 ∧
      List.Forall₂ (Edge.Follows (numberMoves cores moves).2) (numberMoves cores moves).1
        moves := by
  induction moves generalizing cores with
  | nil => exact ⟨.refl cores, hc, List.Forall₂.nil⟩
  | cons m rest ih =>
      obtain ⟨hx, hc', core, hcore, heq⟩ := numberCore_spec ⟨m.symbol, m.kernel⟩ hc
        (hk m List.mem_cons_self)
      obtain ⟨hx', hc'', hall⟩ := ih hc' fun n hn => hk n (List.mem_cons_of_mem _ hn)
      exact ⟨hx.trans hx', hc'', .cons ⟨rfl, rfl, core, hx' _ _ hcore, heq⟩ hall⟩

/-! ## Exploring -/

namespace Productions

variable {g : Productions}

/-- What holds after each round: the kernels that have been worked through have
their states, and their edges lead to numbered kernels. -/
structure Explored (g : Productions) (cores : Array Core) (done : Array State) : Prop where
  kernels : NumberedKernels g cores
  first : ∃ core, cores[0]? = some core ∧ core.kernel = [Item.initial 0]
  size_le : done.size ≤ cores.size
  state : ∀ {n : Nat} {s : State}, done[n]? = some s →
    (∃ core, cores[n]? = some core ∧ s.kernel = core.kernel) ∧ s.items = g.closure s.kernel ∧
      s.reductions = g.completions s.items ∧
      List.Forall₂ (Edge.Follows cores) s.edges (g.moves s.items)

/-- One round. -/
theorem Explored.push {cores : Array Core} {done : Array State} {core : Core}
    (h : g.Explored cores done) (hcore : cores[done.size]? = some core) :
    let items := g.closure core.kernel
    g.Explored (numberMoves cores (g.moves items)).2
      (done.push ⟨core.via, core.kernel, items, (numberMoves cores (g.moves items)).1,
        g.completions items⟩) := by
  intro items
  have hmem : core ∈ cores := Array.mem_of_getElem? hcore
  have hitems : ∀ i ∈ items, g.Holds i :=
    fun i hi => holds_of_mem_closure (h.kernels.isKernel core hmem).holds hi
  obtain ⟨hx, hk, hall⟩ := numberMoves_spec (g.moves items) h.kernels fun m hm =>
    IsKernel.of_mem_moves (isAscending_closure g core.kernel) hitems hm
  refine ⟨hk, ?_, ?_, ?_⟩
  · obtain ⟨c, hc, hkernel⟩ := h.first
    exact ⟨c, hx 0 c hc, hkernel⟩
  · have hlt := (Array.getElem?_eq_some_iff.1 (hx _ _ hcore)).1
    rw [Array.size_push]
    exact hlt
  · intro n s hs
    by_cases hn : n = done.size
    · subst hn
      rw [Array.getElem?_push_size, Option.some.injEq] at hs
      subst hs
      exact ⟨⟨core, hx _ _ hcore, rfl⟩, rfl, rfl, hall⟩
    · have hlt : n < done.size := by
        have := (Array.getElem?_eq_some_iff.1 hs).1
        rw [Array.size_push] at this
        omega
      rw [Array.getElem?_push_lt hlt, ← Array.getElem?_eq_getElem hlt] at hs
      obtain ⟨⟨c, hc, hkernel⟩, hit, hred, hedges⟩ := h.state hs
      exact ⟨⟨c, hx _ _ hc, hkernel⟩, hit, hred, hedges.imp fun _ _ he => he.mono hx⟩

/-- There are no more numbers than sets of items. -/
theorem Explored.size_le_pow {cores : Array Core} {done : Array State}
    (h : g.Explored cores done) : cores.size ≤ 2 ^ g.itemCount := by
  have hbound : (cores.toList.map (·.kernel)).length ≤ 2 ^ g.itemCount := by
    refine length_le_of_nodup_kernels h.kernels.nodup (fun k hk => ?_) fun k hk => ?_
    · obtain ⟨c, hc, rfl⟩ := List.mem_map.1 hk
      exact (h.kernels.isKernel c (Array.mem_toList_iff.1 hc)).ascending
    · obtain ⟨c, hc, rfl⟩ := List.mem_map.1 hk
      exact (h.kernels.isKernel c (Array.mem_toList_iff.1 hc)).holds
  rwa [List.length_map, Array.length_toList] at hbound

/-- The rounds keep the invariant, and if there are enough of them every numbered
kernel has a state in the end. -/
theorem explore_spec {rounds : Nat} {cores : Array Core} {done : Array State}
    (h : g.Explored cores done) (hr : 2 ^ g.itemCount ≤ rounds + done.size) :
    ∃ cores', g.Explored cores' (g.explore rounds cores done) ∧
      (g.explore rounds cores done).size = cores'.size := by
  induction rounds generalizing cores done with
  | zero =>
      refine ⟨cores, h, ?_⟩
      have hbound := h.size_le_pow
      have hle := h.size_le
      rw [explore]
      omega
  | succ rounds ih =>
      rw [explore]
      cases hcore : cores[done.size]? with
      | none =>
          have hge := Array.getElem?_eq_none_iff.1 hcore
          exact ⟨cores, h, Nat.le_antisymm h.size_le hge⟩
      | some core =>
          refine ih (h.push hcore) ?_
          rw [Array.size_push]
          omega

end Productions
end BoundedLR
