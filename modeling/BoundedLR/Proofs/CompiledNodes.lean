import BoundedLR.Proofs.DecisionTries
import BoundedLR.Proofs.Reductions

/-!
# The nodes of a compiled grammar

A grammar that compiles has a node for each state of its automaton.  The node
holds the reductions of the state, and a trie of one of three kinds.  This module
translates the look-ups of `Parser.table` into statements about the automaton, so
that whoever reasons about the machine need not look at nodes.
-/

namespace BoundedLR

variable {p : Parser} {start : Symbol} {n index : Nat}

namespace Parser

/-- The contest of a state of a compiled grammar. -/
def contest (p : Parser) (n : Nat) : Contest :=
  ⟨p.productions, p.automaton, p.automaton.announcing p.productions, n, p.bound⟩

/-- Whether an announcement may still be due behind an element that ends in a
state. -/
def announces (p : Parser) (n : Nat) : Bool :=
  (p.automaton.announcing p.productions).getD n false

/-- A parser that has been compiled from well-formed productions. -/
structure Compiled (p : Parser) (start : Symbol) : Prop where
  wellFormed : p.productions.WellFormed start
  realises : p.automaton.Realises p.productions
  nodes : List.Forall₂ (fun x node => (p.contest x.2).node x.1 = .ok node)
    p.automaton.states.toList.zipIdx p.nodes.toList

end Parser

/-- **What compiling a grammar delivers**: a parser for its normal form. -/
theorem Grammar.compiled_of_compile {grammar : Grammar} {bound : Nat}
    (h : grammar.compile bound = .ok p) :
    grammar.normalize = .ok p.productions ∧ p.Compiled grammar.start := by
  obtain ⟨g, hg, h⟩ := bind_eq_ok.1 h
  dsimp only at h
  split at h
  · rename_i nodes hnodes
    have hwf := Grammar.wellFormed_of_normalize hg
    rw [← Except.ok.inj h]
    exact ⟨hg, hwf, Productions.automaton_realises hwf, mapM_eq_ok.1 hnodes⟩
  · cases h

/-- The kinds of node that a state may have. -/
inductive Node.For (p : Parser) (n : Nat) (node : Node) : Prop where
  /-- The state can do nothing but reduce one production. -/
  | reduces {r : Reduction} : p.automaton.reductions n = [r] → p.automaton.terminalEdges n = [] →
      node.always = some 0 → node.trie = .done → Node.For p n node
  /-- The state can only shift. -/
  | shifts : p.automaton.reductions n = [] → node.always = none →
      node.trie = shiftTrie (p.automaton.announcing p.productions) (p.automaton.terminalEdges n) →
      Node.For p n node
  /-- The actions of the state have been told apart. -/
  | settled : (∀ r, p.automaton.reductions n = [r] → p.automaton.terminalEdges n ≠ []) →
      node.always = none → (p.contest n).settle = .ok node.trie → Node.For p n node

namespace Parser

/-- What an entry means tells which entry it is. -/
theorem actionOf_injective : Function.Injective actionOf := by
  intro entry other h
  rcases entry with (_ | _) | _ <;> rcases other with (_ | _) | _ <;> cases h <;> rfl

namespace Compiled

/-- Every state has its node. -/
theorem exists_node (hp : p.Compiled start) (hn : n < p.automaton.count) :
    ∃ node, p.node n = .ok node ∧ Node.For p n node ∧
      node.reductions = (p.automaton.reductions n).map fun r =>
        ⟨r.production, p.productions.property r.production,
          r.tuples.map fun (last, target) => ⟨last, target, p.announces target⟩⟩ := by
  obtain ⟨s, hs⟩ : ∃ s, p.automaton.states[n]? = some s := ⟨_, Array.getElem?_eq_getElem hn⟩
  have hzip : p.automaton.states.toList.zipIdx[n]? = some (s, n) := by
    rw [List.getElem?_zipIdx, Array.getElem?_toList, hs, Option.map_some, Nat.zero_add]
  obtain ⟨node, hnode, hmade⟩ := forall₂_getElem?_left hp.nodes hzip
  have hreductions : p.automaton.reductions n = s.reductions := by
    rw [Automaton.reductions, hs]
  have hedges : p.automaton.terminalEdges n = s.terminalEdges := by
    rw [Automaton.terminalEdges, hs]
  refine ⟨node, ?_, ?_⟩
  · rw [Parser.node, ← Array.getElem?_toList, hnode]
    rfl
  rw [hreductions]
  rw [Contest.node] at hmade
  dsimp only at hmade
  split at hmade
  · rename_i r hone hterm
    rw [← Except.ok.inj hmade]
    obtain ⟨r', hr', -⟩ := List.map_eq_singleton_iff.1 hone
    have hnil : s.terminalEdges = [] := by
      rw [State.hasTerminalEdge, List.any_eq_false] at hterm
      exact List.filter_eq_nil_iff.2 hterm
    exact ⟨.reduces (hreductions.trans hr') (hedges.trans hnil) rfl rfl, rfl⟩
  · rename_i hnone
    rw [← Except.ok.inj hmade]
    have hnil : s.reductions = [] := List.map_eq_nil_iff.1 hnone
    refine ⟨.shifts (hreductions.trans hnil) rfl ?_, rfl⟩
    rw [hedges]
    rfl
  · rename_i hcontested
    obtain ⟨trie, htrie, hmade⟩ := bind_eq_ok.1 hmade
    rw [← Except.ok.inj hmade]
    refine ⟨.settled (fun r hr hnil => ?_) rfl htrie, rfl⟩
    refine hcontested _ (congrArg (List.map _) (hreductions.symm.trans hr)) ?_
    rw [hedges] at hnil
    exact List.any_eq_false.2 (List.filter_eq_nil_iff.1 hnil)

/-- Only states have nodes. -/
theorem lt_count_of_node (hp : p.Compiled start) {node : Node} (h : p.node n = .ok node) :
    n < p.automaton.count := by
  have hlt : n < p.nodes.toList.length := by
    rw [Array.length_toList]
    by_contra hge
    rw [Parser.node, Array.getElem?_eq_none (Nat.le_of_not_lt hge)] at h
    cases h
  rw [← hp.nodes.length_eq, List.length_zipIdx, Array.length_toList] at hlt
  exact hlt

/-- The reductions of a node are those of the state. -/
theorem reduction_eq_ok (hp : p.Compiled start) {r : NodeReduction}
    (h : p.reduction n index = .ok r) : ∃ r', (p.automaton.reductions n)[index]? = some r' ∧
      r = ⟨r'.production, p.productions.property r'.production,
        r'.tuples.map fun (last, target) => ⟨last, target, p.announces target⟩⟩ := by
  obtain ⟨node, hnode, h⟩ := bind_eq_ok.1 h
  obtain ⟨node', hnode', -, hred⟩ := hp.exists_node (hp.lt_count_of_node hnode)
  rw [hnode, Except.ok.injEq] at hnode'
  subst hnode'
  rw [hred, List.getElem?_map] at h
  cases hr : (p.automaton.reductions n)[index]? with
  | none =>
      rw [hr] at h
      cases h
  | some r' =>
      rw [hr] at h
      exact ⟨r', rfl, (Except.ok.inj h).symm⟩

theorem reduction_of_getElem? (hp : p.Compiled start) {r : Reduction}
    (h : (p.automaton.reductions n)[index]? = some r) : p.reduction n index =
      .ok ⟨r.production, p.productions.property r.production,
        r.tuples.map fun (last, target) => ⟨last, target, p.announces target⟩⟩ := by
  have hn := Automaton.lt_count_of_mem_reductions (List.mem_of_getElem? h)
  obtain ⟨node, hnode, -, hred⟩ := hp.exists_node hn
  rw [reduction, hnode, ok_bind, hred, List.getElem?_map, h]
  rfl

/-! ## Look-ups -/

theorem root_eq_ok (hp : p.Compiled start) {root : Trie Decision}
    (h : p.table.root n = .ok root) :
    ∃ node, p.node n = .ok node ∧ Node.For p n node ∧ node.trie = root := by
  obtain ⟨node, hnode, rfl⟩ := map_eq_ok.1 h
  obtain ⟨node', hnode', hfor, -⟩ := hp.exists_node (hp.lt_count_of_node hnode)
  rw [hnode, Except.ok.injEq] at hnode'
  subst hnode'
  exact ⟨node, hnode, hfor, rfl⟩

/-- What a reduction of a node does. -/
theorem property_eq_ok (hp : p.Compiled start) {property : ReductionProperty} :
    p.table.property n index = .ok property ↔
      ∃ r, (p.automaton.reductions n)[index]? = some r ∧
        property = p.productions.property r.production := by
  constructor
  · intro h
    obtain ⟨r, hr, rfl⟩ := map_eq_ok.1 h
    obtain ⟨r', hr', rfl⟩ := hp.reduction_eq_ok hr
    exact ⟨r', hr', rfl⟩
  · rintro ⟨r, hr, rfl⟩
    exact map_eq_ok.2 ⟨_, hp.reduction_of_getElem? hr, rfl⟩

/-- Where a reduction of a node leads. -/
theorem landing_eq_ok (hp : p.Compiled start) {last : Nat} {landing : Landing Nat} :
    p.table.landing n index last = .ok (some landing) ↔
      ∃ r, (p.automaton.reductions n)[index]? = some r ∧
        (last, landing.target) ∈ r.tuples ∧ landing.predict = p.announces landing.target := by
  have hfind : ∀ r : Reduction, (r.tuples.map fun (last, target) =>
      (⟨last, target, p.announces target⟩ : Tuple)).find? (·.last == last) =
        (r.tuples.find? (·.1 == last)).map fun (last, target) =>
          (⟨last, target, p.announces target⟩ : Tuple) := fun r => List.find?_map ..
  constructor
  · intro h
    obtain ⟨r, hr, h⟩ := map_eq_ok.1 h
    obtain ⟨r', hr', rfl⟩ := hp.reduction_eq_ok hr
    dsimp only at h
    rw [hfind, Option.map_map, Option.map_eq_some_iff] at h
    obtain ⟨⟨first, target⟩, hmem, rfl⟩ := h
    have hlast : first = last := by simpa using List.find?_some hmem
    rw [← hlast]
    exact ⟨r', hr', List.mem_of_find?_eq_some hmem, rfl⟩
  · rintro ⟨r, hr, hmem, hpredict⟩
    refine map_eq_ok.2 ⟨_, hp.reduction_of_getElem? hr, ?_⟩
    dsimp only
    rw [hfind]
    obtain ⟨⟨first, target⟩, hf⟩ : ∃ t, r.tuples.find? (·.1 == last) = some t :=
      Option.isSome_iff_exists.1 (List.find?_isSome.2 ⟨_, hmem, beq_self_eq_true last⟩)
    have hlast : first = last := by simpa using List.find?_some hf
    subst hlast
    have ht := (hp.realises.mem_reductions_iff.1 (List.mem_of_getElem? hr)).2
    have hmem' := List.mem_of_find?_eq_some hf
    rw [ht] at hmem hmem'
    have htarget := Automaton.target_eq_of_mem_reductionTuples hmem' hmem
    subst htarget
    rw [hf]
    obtain ⟨target, predict⟩ := landing
    dsimp only at hpredict ⊢
    rw [hpredict]
    rfl

end Compiled
end Parser
end BoundedLR
