import BoundedLR.Proofs.CorrectRuns
import BoundedLR.Proofs.EndlessReductions
import BoundedLR.Proofs.ExactEdges

/-!
# The terms of a complaint

A complaint speaks to the author of a grammar, who knows nothing of productions and states:
it lists rules by their place in the author's list.  This module says that nothing is lost in
the translation.

The rules of a state are those with an item in its kernel, each of them once and in ascending
order.  For that the kernel has to be ascending, since only repetitions next to each other are
erased.  The choices of a state that has several are named differently from one another: no
production has two reductions, and a state that accepts the input has no other choice, so
that no reduction is without a rule.
-/

namespace BoundedLR

/-! ## Rules -/

/-- All productions but the synthetic one stand for rules. -/
theorem exists_rule_of_ne_zero {p : Nat} (h : p ≠ 0) :
    ∃ rule, ruleOfProduction? p = some rule ∧ p = productionOfRule rule := by
  cases p with
  | zero => exact absurd rfl h
  | succ rule => exact ⟨rule, rfl, rfl⟩

theorem ruleOfProduction?_eq_some {p rule : Nat} :
    ruleOfProduction? p = some rule ↔ p = productionOfRule rule := by
  cases p with
  | zero => simp [ruleOfProduction?, productionOfRule]
  | succ p => simp [ruleOfProduction?, productionOfRule]

/-- The rules that some productions stand for are those productions. -/
theorem map_productionOfRule {productions : List Nat} (h : ∀ p ∈ productions, p ≠ 0) :
    (productions.filterMap ruleOfProduction?).map productionOfRule = productions := by
  induction productions with
  | nil => rfl
  | cons p rest ih =>
      obtain ⟨hp, hrest⟩ := List.forall_mem_cons.1 h
      obtain ⟨rule, hrule, hproduction⟩ := exists_rule_of_ne_zero hp
      rw [List.filterMap_cons_some hrule, List.map_cons, ih hrest, ← hproduction]

/-- Erasing the repetitions of a list that never descends leaves its members, each of them
once. -/
theorem eraseRepsBy_loop_spec {n : Nat} {rest done : List Nat}
    (hrest : (n :: rest).Pairwise (· ≤ ·)) (hdone : (n :: done).Pairwise (· > ·)) :
    (List.eraseRepsBy.loop (· == ·) n rest done).Pairwise (· < ·) ∧
      ∀ m, m ∈ List.eraseRepsBy.loop (· == ·) n rest done ↔ m ∈ done ∨ m ∈ n :: rest := by
  induction rest generalizing n done with
  | nil =>
      rw [List.eraseRepsBy.loop]
      refine ⟨List.pairwise_reverse.2 hdone, fun m => ?_⟩
      rw [List.mem_reverse, List.mem_cons, List.mem_singleton, or_comm]
  | cons next rest ih =>
      obtain ⟨hle, hnext⟩ := List.pairwise_cons.1 hrest
      obtain ⟨hlater, hrest'⟩ := List.pairwise_cons.1 hnext
      rw [List.eraseRepsBy.loop]
      split
      · rename_i heq
        obtain rfl := beq_iff_eq.1 heq
        obtain ⟨hascending, hmem⟩ := ih hnext hdone
        exact ⟨hascending, fun m => by simp [hmem]⟩
      · rename_i hne
        have hlt : n < next :=
          Nat.lt_of_le_of_ne (hle next List.mem_cons_self) fun heq => by simp [heq] at hne
        have hdone' : (next :: n :: done).Pairwise (· > ·) := by
          refine List.pairwise_cons.2 ⟨fun m hm => ?_, hdone⟩
          rcases List.mem_cons.1 hm with rfl | hm
          · exact hlt
          · exact Nat.lt_trans ((List.pairwise_cons.1 hdone).1 m hm) hlt
        obtain ⟨hascending, hmem⟩ := ih hnext hdone'
        refine ⟨hascending, fun m => ?_⟩
        simp only [hmem, List.mem_cons]
        tauto

theorem eraseReps_spec {xs : List Nat} (h : xs.Pairwise (· ≤ ·)) :
    xs.eraseReps.Pairwise (· < ·) ∧ ∀ m, m ∈ xs.eraseReps ↔ m ∈ xs := by
  cases xs with
  | nil => exact ⟨List.Pairwise.nil, fun _ => Iff.rfl⟩
  | cons n rest =>
      obtain ⟨hascending, hmem⟩ := eraseRepsBy_loop_spec h (List.pairwise_singleton _ n)
      exact ⟨hascending, fun m => (hmem m).trans (or_iff_right List.not_mem_nil)⟩

/-- Items that ascend never descend in their productions. -/
theorem Item.production_le {i j : Item} (h : compare i j = .lt) : i.production ≤ j.production := by
  change (compare i.production j.production).then (compare i.dot j.dot) = .lt at h
  by_contra hlt
  rw [Nat.compare_eq_gt.2 (Nat.lt_of_not_le hlt)] at h
  cases h

namespace Contest

variable {k : Contest}

/-- **The rules of a state** are those with an item in its kernel, in ascending order. -/
theorem rules_spec (h : IsAscending (k.automaton.kernel k.state)) :
    k.rules.Pairwise (· < ·) ∧ ∀ rule, rule ∈ k.rules ↔
      ∃ i ∈ k.automaton.kernel k.state, i.production = productionOfRule rule := by
  have hle : ((k.automaton.kernel k.state).filterMap fun i =>
      ruleOfProduction? i.production).Pairwise (· ≤ ·) := by
    refine List.pairwise_filterMap.2 (h.imp fun {i j} hij rule hi rule' hj => ?_)
    rw [ruleOfProduction?_eq_some] at hi hj
    have hprod := Item.production_le hij
    rw [hi, hj] at hprod
    exact Nat.le_of_succ_le_succ hprod
  obtain ⟨hascending, hmem⟩ := eraseReps_spec hle
  refine ⟨hascending, fun rule => (hmem rule).trans ?_⟩
  simp only [List.mem_filterMap, ruleOfProduction?_eq_some]

end Contest

/-! ## Names -/

namespace Automaton.Realises

variable {a : Automaton} {g : Productions} {n : Nat}

/-- No production has two reductions. -/
theorem nodup_productions (ha : a.Realises g) (n : Nat) :
    ((a.reductions n).map (·.production)).Nodup := by
  by_cases hn : n < a.count
  · have hnodup : (a.items n).Nodup := by
      rw [ha.items_eq hn]
      exact (Productions.isAscending_closure _ _).nodup
    rw [ha.reductions_eq hn, Productions.completions, List.map_map, List.map_map]
    refine (hnodup.filter _).map_on fun i hi j hj hij => ?_
    -- the dot of a complete item stands at the end of its production
    have hdot : ∀ i ∈ (a.items n).filter g.isComplete, i.dot = g.length i.production := by
      intro i hi
      obtain ⟨hmem, hcomplete⟩ := List.mem_filter.1 hi
      exact Nat.le_antisymm (ha.holds hmem).2 (of_decide_eq_true hcomplete)
    have hij : i.production = j.production := hij
    obtain ⟨p, dot⟩ := i
    obtain ⟨p', dot'⟩ := j
    have hi := hdot _ hi
    have hj := hdot _ hj
    dsimp only at hij hi hj
    rw [hi, hj, hij]
  · rw [reductions, Array.getElem?_eq_none (Nat.le_of_not_lt hn)]
    exact List.nodup_nil

end Automaton.Realises

namespace Productions

variable {g : Productions} {start : Symbol} {n bound : Nat}

/-- A state with several choices does not accept the input. -/
theorem production_ne_zero (hg : g.WellFormed start)
    (hcontested : 2 ≤ (g.contest n bound).choices.length) {r : Reduction}
    (hr : r ∈ g.automaton.reductions n) : r.production ≠ 0 := by
  intro hzero
  have ha := automaton_realises hg
  obtain ⟨stack, hpath⟩ := exists_path hg (Automaton.lt_count_of_mem_reductions hr)
  have hitem := (ha.mem_reductions_iff.1 hr).1
  rw [hzero] at hitem
  obtain ⟨r', hone, -, hnone⟩ := ha.accepting hg hitem hpath
  have hchoices : (g.contest n bound).choices = [.reduce 0] := by
    change (if (g.automaton.terminalEdges n).isEmpty then [] else [Choice.shift]) ++
      (List.range (g.automaton.reductions n).length).map .reduce = [.reduce 0]
    rw [hone, hnone]
    rfl
  rw [hchoices] at hcontested
  exact absurd hcontested (by decide)

end Productions

namespace Contest

/-- A reduction among the choices of a state has its place among the reductions. -/
theorem mem_choices_reduce {k : Contest} {index : Nat} :
    .reduce index ∈ k.choices ↔ ∃ r, (k.automaton.reductions k.state)[index]? = some r := by
  have hshift : Choice.reduce index ∉
      (if (k.automaton.terminalEdges k.state).isEmpty then [] else [Choice.shift]) := by
    split <;> simp
  rw [choices, List.mem_append, or_iff_right hshift]
  simp only [List.mem_map, List.mem_range, Choice.reduce.injEq, exists_eq_right]
  exact ⟨fun h => ⟨_, List.getElem?_eq_getElem h⟩,
    fun ⟨_, h⟩ => (List.getElem?_eq_some_iff.1 h).1⟩

/-- How the choices of a state are named: a reduction by the rule it reduces, and no two of
them alike. -/
structure Names (k : Contest) : Prop where
  reduce : ∀ index r, (k.automaton.reductions k.state)[index]? = some r →
    ∃ rule, r.production = productionOfRule rule ∧ k.competitor (.reduce index) = .reduce rule
  injective : ∀ one ∈ k.choices, ∀ other ∈ k.choices,
    k.competitor one = k.competitor other → one = other

section Contested

variable {g : Productions} {start : Symbol} {n bound : Nat}

/-- A reduction of a state that has several choices is named by the rule it reduces. -/
theorem competitor_reduce (hg : g.WellFormed start)
    (hcontested : 2 ≤ (g.contest n bound).choices.length) {index : Nat} {r : Reduction}
    (hr : (g.automaton.reductions n)[index]? = some r) :
    ∃ rule, r.production = productionOfRule rule ∧
      (g.contest n bound).competitor (.reduce index) = .reduce rule := by
  obtain ⟨rule, hrule, hproduction⟩ := exists_rule_of_ne_zero
    (Productions.production_ne_zero hg hcontested (List.mem_of_getElem? hr))
  refine ⟨rule, hproduction, ?_⟩
  have hr : ((g.contest n bound).automaton.reductions (g.contest n bound).state)[index]? =
      some r := hr
  rw [competitor, hr]
  dsimp only
  rw [hrule, Option.getD_some]

/-- Two reductions of one production stand at the same place. -/
theorem index_eq_of_production_eq (hg : g.WellFormed start) {i j : Nat} {r r' : Reduction}
    (hr : (g.automaton.reductions n)[i]? = some r) (hr' : (g.automaton.reductions n)[j]? = some r')
    (heq : r.production = r'.production) : i = j := by
  have hnodup := (Productions.automaton_realises hg).nodup_productions n
  have hlt := (List.getElem?_eq_some_iff.1 hr).1
  refine (List.getElem?_inj (by rw [List.length_map]; exact hlt) hnodup).1 ?_
  rw [List.getElem?_map, List.getElem?_map, hr, hr', Option.map_some, Option.map_some, heq]

/-- **The choices of a state that has several are named.** -/
theorem names (hg : g.WellFormed start) (hcontested : 2 ≤ (g.contest n bound).choices.length) :
    (g.contest n bound).Names := by
  have hname : ∀ index, .reduce index ∈ (g.contest n bound).choices →
      ∃ r rule, (g.automaton.reductions n)[index]? = some r ∧
        r.production = productionOfRule rule ∧
        (g.contest n bound).competitor (.reduce index) = .reduce rule := by
    intro index hmem
    obtain ⟨r, hr⟩ := mem_choices_reduce.1 hmem
    obtain ⟨rule, hrule⟩ := competitor_reduce hg hcontested hr
    exact ⟨r, rule, hr, hrule⟩
  refine ⟨fun index r hr => competitor_reduce hg hcontested hr,
    fun one hone other hother hsame => ?_⟩
  cases one with
  | shift =>
      cases other with
      | shift => rfl
      | reduce j =>
          obtain ⟨_, _, -, -, hj⟩ := hname j hother
          cases hsame.trans hj
  | reduce i =>
      obtain ⟨r, rule, hr, hproduction, hi⟩ := hname i hone
      cases other with
      | shift => cases hi.symm.trans hsame
      | reduce j =>
          obtain ⟨r', rule', hr', hproduction', hj⟩ := hname j hother
          have heq : rule = rule' := Competitor.reduce.inj ((hi.symm.trans hsame).trans hj)
          rw [index_eq_of_production_eq hg hr hr' (by rw [hproduction, hproduction', heq])]

end Contested

end Contest
end BoundedLR
