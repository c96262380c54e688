import BoundedLR.Automaton.Description
import BoundedLR.Proofs.ExactEdges

/-!
# Which productions are never reduced

A warning names a production that no state of the automaton may reduce.  Whether there is
such a state is a question about closures, restricted edges and merged kernels.  This module
answers it with a condition on the productions alone.

A production is *reachable* if it may complete a slot of a reachable production, provided
that the slots before can be passed: each of them accepts some production of its symbol,
if that is a non-terminal.  It is *usable* if moreover all of its own slots can be passed.
Nothing is said about what the accepted productions derive: a production that needs itself
before it can be completed is usable all the same, and indeed some state may reduce it.

* `Productions.Live` carries the condition over to items.  All items of all states are live,
  since closures and edges keep this (`live_of_mem_items`).
* Conversely the items of a reachable production are found one after the other, along
  shifts and gotos (`exists_item_of_passable`, `exists_initial_of_reachable`).
* So the warnings are exact: `Grammar.warnings_exact`.
-/

namespace BoundedLR

theorem Automaton.reduces_iff {a : Automaton} {p : Nat} :
    a.reduces p = true ↔ ∃ n, ∃ r ∈ a.reductions n, r.production = p := by
  simp only [reduces, Array.any_eq_true, List.any_eq_true, beq_iff_eq]
  constructor
  · rintro ⟨n, hn, r, hr, rfl⟩
    refine ⟨n, r, ?_, rfl⟩
    rw [reductions, Array.getElem?_eq_getElem hn]
    exact hr
  · rintro ⟨n, r, hr, rfl⟩
    rw [reductions] at hr
    split at hr
    · rename_i state hstate
      obtain ⟨hn, rfl⟩ := Array.getElem?_eq_some_iff.1 hstate
      exact ⟨n, hn, r, hr, rfl⟩
    · exact absurd hr List.not_mem_nil

namespace Productions

variable {g : Productions} {start : Symbol} {p q e c n m : Nat} {i j : Item} {slot : Slot}
  {s : Symbol}

/-! ## Reachable and usable productions -/

/-- The slots of a production before place `e` can be passed: those for a non-terminal accept
some production of it. -/
def PassableTo (g : Productions) (p e : Nat) : Prop :=
  ∀ d < e, ∀ slot, g.slot? p d = some slot → slot.symbol.isNonTerminal = true →
    ∃ c, g.head? c = some slot.symbol ∧ slot.accepts c = true

/-- The synthetic production is reachable, and so is every production that may complete a
slot of a reachable one, if the slots before it can be passed. -/
inductive Reachable (g : Productions) : Nat → Prop where
  | synthetic : Reachable g 0
  | slot {q e c : Nat} {slot : Slot} : Reachable g q → g.PassableTo q e →
      g.slot? q e = some slot → g.head? c = some slot.symbol → slot.accepts c = true →
      Reachable g c

/-- A reachable production all of whose slots can be passed. -/
def Usable (g : Productions) (p : Nat) : Prop := g.Reachable p ∧ g.PassableTo p (g.length p)

theorem passableTo_zero : g.PassableTo p 0 := fun _ hd => absurd hd (Nat.not_lt_zero _)

/-- One slot further. -/
theorem PassableTo.succ (h : g.PassableTo p e) (hslot : g.slot? p e = some slot)
    (hpass : slot.symbol.isNonTerminal = true →
      ∃ c, g.head? c = some slot.symbol ∧ slot.accepts c = true) : g.PassableTo p (e + 1) := by
  intro d hd other hother
  rcases Nat.lt_succ_iff_lt_or_eq.1 hd with hlt | rfl
  · exact h d hlt other hother
  · obtain rfl : slot = other := Option.some.inj (hslot.symm.trans hother)
    exact hpass

theorem PassableTo.mono (h : g.PassableTo p e) (hqe : q ≤ e) : g.PassableTo p q :=
  fun d hd => h d (Nat.lt_of_lt_of_le hd hqe)

/-! ## Items of usable productions -/

/-- An item of a reachable production whose slots before the dot can be passed. -/
structure Live (g : Productions) (i : Item) : Prop where
  reachable : g.Reachable i.production
  passable : g.PassableTo i.production i.dot

theorem exists_slot_of_nextSymbol (h : g.nextSymbol i = some s) : ∃ slot,
    g.slot? i.production i.dot = some slot ∧ slot.symbol = s ∧
      ∀ c, g.admits i c = slot.accepts c := by
  obtain ⟨slot, hslot, hs⟩ := Option.map_eq_some_iff.1 h
  refine ⟨slot, hslot, hs, fun c => ?_⟩
  rw [admits, accepts, hslot]

/-- What a live item opens is live. -/
theorem Live.opened (h : g.Live i) (hj : j ∈ g.openings i) : g.Live j := by
  obtain ⟨s, c, hnext, hc, hadmits, rfl⟩ := mem_openings.1 hj
  obtain ⟨slot, hslot, rfl, haccepts⟩ := exists_slot_of_nextSymbol hnext
  exact ⟨.slot h.reachable h.passable hslot hc (haccepts c ▸ hadmits), passableTo_zero⟩

/-- A live item can be advanced over a symbol that can be passed. -/
theorem Live.advance (h : g.Live i) (hnext : g.nextSymbol i = some s)
    (hpass : s.isNonTerminal = true → ∃ c, g.head? c = some s ∧ g.admits i c = true) :
    g.Live i.advance := by
  obtain ⟨slot, hslot, rfl, haccepts⟩ := exists_slot_of_nextSymbol hnext
  simp only [haccepts] at hpass
  exact ⟨h.reachable, h.passable.succ hslot hpass⟩

theorem live_of_mem_closure {seeds : List Item} (h : ∀ i ∈ seeds, g.Live i)
    (hi : i ∈ g.closure seeds) : g.Live i := by
  induction mem_closure_iff.1 hi with
  | seed hseed => exact h _ hseed
  | opened hreach hj ih => exact (ih (mem_closure_iff.2 hreach)).opened hj

/-- Over a non-terminal an item is advanced because its slot accepts some production of the
non-terminal. -/
theorem exists_admitted_of_edge {a : Automaton} (ha : a.Realises g) {edge : Edge}
    (hedge : edge ∈ a.edges n) (hterminal : edge.symbol.isTerminal = false)
    (hj : j ∈ a.kernel edge.target) : ∃ i ∈ a.items n, g.nextSymbol i = some edge.symbol ∧
      j = i.advance ∧ ∃ c, g.head? c = some edge.symbol ∧ g.admits i c = true := by
  obtain ⟨move, hmove, hsymbol, -, -, hkernel⟩ := ha.exists_move hedge
  rw [hsymbol] at hterminal ⊢
  obtain ⟨kernel, -, ⟨c, hc, rfl⟩, hmade⟩ :=
    (mem_movesOn_of_isTerminal_eq_false hterminal).1 (mem_moves.1 hmove).2
  rw [hkernel, hmade] at hj
  obtain ⟨i, hi, hadmits, rfl⟩ := mem_kernelOver.1 hj
  obtain ⟨hi, hnext⟩ := mem_before.1 hi
  exact ⟨i, hi, hnext, rfl, c, (mem_candidates.1 hc).2, hadmits⟩

/-- An edge leads from live items to live items. -/
theorem live_of_edge {a : Automaton} (ha : a.Realises g) (h : ∀ i ∈ a.items n, g.Live i)
    {edge : Edge} (hedge : edge ∈ a.edges n) (hj : j ∈ a.items edge.target) : g.Live j := by
  rw [ha.items_eq (ha.target_lt hedge)] at hj
  refine live_of_mem_closure (fun k hk => ?_) hj
  cases hterminal : edge.symbol.isTerminal with
  | true =>
      obtain ⟨i, hi, hnext, rfl⟩ := ha.item_of_edge hedge hk
      refine (h i hi).advance hnext fun hnon => ?_
      rw [Symbol.isNonTerminal_eq_not_isTerminal, hterminal] at hnon
      cases hnon
  | false =>
      obtain ⟨i, hi, hnext, rfl, hpass⟩ := exists_admitted_of_edge ha hedge hterminal hk
      exact (h i hi).advance hnext fun _ => hpass

/-- **All items on a path are live.** -/
theorem live_of_path {a : Automaton} (ha : a.Realises g) {stack : List Nat} (h : a.Path stack) :
    ∀ n ∈ stack.head?, ∀ i ∈ a.items n, g.Live i := by
  induction h with
  | start =>
      rintro _ ⟨⟩ i hi
      rw [ha.items_eq ha.count_pos, ha.kernel_zero] at hi
      refine live_of_mem_closure (fun k hk => ?_) hi
      rw [List.mem_singleton.1 hk]
      exact ⟨.synthetic, passableTo_zero⟩
  | push hpath hedge ih =>
      rintro _ ⟨⟩ j hj
      exact live_of_edge ha (ih _ rfl) hedge hj

theorem live_of_mem_items (hg : g.WellFormed start) (hi : i ∈ g.automaton.items n) :
    g.Live i := by
  obtain ⟨stack, hpath⟩ := exists_path hg (Automaton.lt_count_of_mem_items hi)
  exact live_of_path (automaton_realises hg) hpath n rfl i hi

/-! ## Items that must occur -/

/-- An item whose slot can be passed is advanced into some state. -/
theorem exists_advance {a : Automaton} (ha : a.Realises g) (hg : g.WellFormed start)
    (hi : i ∈ a.items n) (hnext : g.nextSymbol i = some s)
    (hpass : s.isNonTerminal = true → ∃ c, g.head? c = some s ∧ g.admits i c = true) :
    ∃ m, i.advance ∈ a.items m := by
  cases hterminal : s.isTerminal with
  | true =>
      obtain ⟨edge, hedge, -, hadvance⟩ := ha.shift_spec hi hnext hterminal
      exact ⟨_, ha.kernel_subset (ha.target_lt hedge) hadvance⟩
  | false =>
      have hnonterminal : s.isNonTerminal = true := by
        rw [Symbol.isNonTerminal_eq_not_isTerminal, hterminal]
        rfl
      obtain ⟨c, hc, hadmits⟩ := hpass hnonterminal
      obtain ⟨slot, hslot, rfl, -⟩ := exists_slot_of_nextSymbol hnext
      have hinitial := ha.initial_mem_items hi hnext hc hadmits
      obtain ⟨edge, hedge, -, -, hkernel⟩ := ha.goto_spec hinitial
        (hg.ne_zero_of_head?_slot hslot hc) hc hterminal
      refine ⟨edge.target, ha.kernel_subset (ha.target_lt hedge) ?_⟩
      rw [hkernel]
      exact mem_kernelOver.2 ⟨i, mem_before.2 ⟨hi, hnext⟩, hadmits, rfl⟩

/-- From the initial item of a production all items up to a passable place are found. -/
theorem exists_item_of_passable {a : Automaton} (ha : a.Realises g) (hg : g.WellFormed start)
    (hp : Item.initial p ∈ a.items n) (hpass : g.PassableTo p e) (he : e ≤ g.length p) :
    ∃ m, (⟨p, e⟩ : Item) ∈ a.items m := by
  induction e with
  | zero => exact ⟨n, hp⟩
  | succ e ih =>
      obtain ⟨m, hm⟩ := ih (hpass.mono (Nat.le_succ e)) (Nat.le_of_succ_le he)
      have hslot : g.slot? p e = some (g.slots p)[e] := List.getElem?_eq_getElem he
      have hnext : g.nextSymbol ⟨p, e⟩ = some (g.slots p)[e].symbol := by
        rw [nextSymbol, hslot]
        rfl
      refine exists_advance ha hg hm hnext fun hnon => ?_
      obtain ⟨c, hc, haccepts⟩ := hpass e (Nat.lt_succ_self e) _ hslot hnon
      refine ⟨c, hc, ?_⟩
      rw [admits, accepts, hslot]
      exact haccepts

/-- **Every reachable production begins in some state.** -/
theorem exists_initial_of_reachable {a : Automaton} (ha : a.Realises g) (hg : g.WellFormed start)
    (h : g.Reachable p) : ∃ n, Item.initial p ∈ a.items n := by
  induction h with
  | synthetic =>
      refine ⟨0, ha.kernel_subset ha.count_pos ?_⟩
      rw [ha.kernel_zero]
      exact List.mem_singleton_self _
  | @slot q e c slot _ hpass hslot hc haccepts ih =>
      obtain ⟨n, hn⟩ := ih
      have he := (List.getElem?_eq_some_iff.1 hslot).1
      obtain ⟨m, hm⟩ := exists_item_of_passable ha hg hn hpass (Nat.le_of_lt he)
      have hnext : g.nextSymbol ⟨q, e⟩ = some slot.symbol := by
        rw [nextSymbol, hslot]
        rfl
      refine ⟨m, ha.initial_mem_items hm hnext hc ?_⟩
      rw [admits, accepts, hslot]
      exact haccepts

/-- **Some state may reduce a production exactly if it is usable.** -/
theorem reduces_iff_usable (hg : g.WellFormed start) :
    g.automaton.reduces p = true ↔ g.Usable p := by
  have ha := automaton_realises hg
  rw [Automaton.reduces_iff]
  constructor
  · rintro ⟨n, r, hr, rfl⟩
    have hlive := live_of_mem_items hg (ha.mem_reductions_iff.1 hr).1
    exact ⟨hlive.reachable, hlive.passable⟩
  · rintro ⟨hreachable, hpass⟩
    obtain ⟨n, hn⟩ := exists_initial_of_reachable ha hg hreachable
    obtain ⟨m, hm⟩ := exists_item_of_passable ha hg hn hpass (Nat.le_refl _)
    exact ⟨m, ⟨p, g.automaton.reductionTuples g m p⟩,
      ha.mem_reductions_iff.2 ⟨hm, rfl⟩, rfl⟩

end Productions

/-- **The warnings are exact.**  There is one for each of the author's productions that is
not usable, in ascending order, and no other. -/
theorem Grammar.warnings_exact {grammar : Grammar} {g : Productions}
    (h : grammar.normalize = .ok g) : ∃ unusable : List Nat, unusable.Pairwise (· < ·) ∧
      (∀ p, p ∈ unusable ↔
        (∃ rule < grammar.rules.length, p = productionOfRule rule) ∧ ¬g.Usable p) ∧
      g.automaton.warnings g =
        unusable.map fun p => "production is never reduced: " ++ g.productionText p := by
  have hcount := (exists_rules_of_normalize h).1
  refine ⟨g.automaton.unreduced g, ?_, fun p => ?_, rfl⟩
  · exact List.Pairwise.filter _ List.pairwise_lt_range
  · rw [Automaton.unreduced, List.mem_filter, List.mem_range, hcount, Bool.and_eq_true,
      decide_eq_true_iff, Bool.not_eq_true', Bool.eq_false_iff, ne_eq, ne_eq,
      Productions.reduces_iff_usable (wellFormed_of_normalize h), ← and_assoc]
    refine and_congr_left fun _ => ⟨fun ⟨hlt, hne⟩ => ?_, ?_⟩
    · obtain ⟨rule, rfl⟩ := Nat.exists_eq_succ_of_ne_zero hne
      exact ⟨rule, Nat.lt_of_succ_lt_succ hlt, rfl⟩
    · rintro ⟨rule, hrule, rfl⟩
      exact ⟨Nat.succ_lt_succ hrule, Nat.succ_ne_zero rule⟩

/-- A rule that waits for a non-terminal without rules, one behind it that is never begun,
one that only needs itself, and two that are usable although they derive nothing. -/
def Grammar.blocked : Grammar where
  start := .nonTerminal 0
  rules :=
    [⟨.nonTerminal 0, [.symbol (.terminal 0)], 0, false⟩,
      ⟨.nonTerminal 0, [.symbol (.nonTerminal 1), .symbol (.nonTerminal 2)], 0, false⟩,
      ⟨.nonTerminal 2, [.symbol (.terminal 1)], 0, false⟩,
      ⟨.nonTerminal 3, [.symbol (.nonTerminal 3), .symbol (.terminal 0)], 0, false⟩,
      ⟨.nonTerminal 0, [.symbol (.nonTerminal 4), .symbol (.terminal 2)], 0, false⟩,
      ⟨.nonTerminal 4, [.symbol (.nonTerminal 4), .symbol (.terminal 3)], 0, false⟩]
  priorities := []

/-- The first three of these are warned of. -/
theorem Grammar.warnings_exact_blocked : ∃ g, blocked.normalize = .ok g ∧
    g.automaton.unreduced g = [2, 3, 4] ∧
    ∃ unusable : List Nat, unusable.Pairwise (· < ·) ∧
      (∀ p, p ∈ unusable ↔
        (∃ rule < blocked.rules.length, p = productionOfRule rule) ∧ ¬g.Usable p) ∧
      g.automaton.warnings g =
        unusable.map fun p => "production is never reduced: " ++ g.productionText p := by
  obtain ⟨g, hg, hunreduced⟩ := map_eq_ok.1 (show blocked.normalize.map (fun g =>
      g.automaton.unreduced g) = .ok [2, 3, 4] by decide +kernel)
  exact ⟨g, hg, hunreduced, warnings_exact hg⟩

end BoundedLR
