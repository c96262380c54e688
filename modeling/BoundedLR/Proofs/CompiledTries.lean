import BoundedLR.Proofs.ShiftDecisions
import BoundedLR.Proofs.TrieLevels

/-!
# The tries of a compiled grammar are orderly

A parser that is to be stored has to be in order: the levels of its tries list no
symbol twice, a shift leads to a node that there is, and a reduction that is
settled on is one of the reductions of the node.  None of this has to be checked
when a table is written, since compiling a grammar never makes anything else.
`Node.Storable` collects what is needed, and `Compiled.storable` proves it.

That a trie never settles on a reduction the state does not have rests on the
continuations: each remembers the choice it belongs to, and following a choice
finds nothing but continuations of this choice.
-/

namespace BoundedLR

/-- A choice of a state with a given number of reductions. -/
def Choice.InRange (reductions : Nat) : Choice → Prop
  | shift => True
  | reduce index => index < reductions

/-- A decision that makes sense for a state with a given number of reductions, in an
automaton with a given number of states. -/
def Decision.InRange (states reductions : Nat) : Decision → Prop
  | shift target _ => target < states
  | reduce index => index < reductions

/-! ## States that can only shift -/

theorem symbols_shiftTrie (announcing : Array Bool) (edges : List Edge) :
    (shiftTrie announcing edges).symbols = edges.map (·.symbol) := by
  induction edges with
  | nil => rfl
  | cons e rest ih => rw [shiftTrie, Trie.symbols, ih, List.map_cons]

theorem orderly_shiftTrie {announcing : Array Bool} {edges : List Edge} {states reductions : Nat}
    (hn : (edges.map (·.symbol)).Nodup) (ht : ∀ e ∈ edges, e.target < states) :
    (shiftTrie announcing edges).Orderly (Decision.InRange states reductions) := by
  induction edges with
  | nil => exact .done
  | cons e rest ih =>
      rw [List.map_cons, List.nodup_cons] at hn
      rw [List.forall_mem_cons] at ht
      refine .leaf ht.1 ?_ (ih hn.2 ht.2)
      rw [symbols_shiftTrie]
      exact hn.1

/-! ## Contested states -/

namespace Contest

variable {k : Contest} {path : List Symbol} {continuations : List Continuation}
  {trie : Trie Decision} {reductions : Nat}

/-- A choice that is in range leads to a decision that is. -/
theorem inRange_of_decision? (ha : k.automaton.Realises k.productions) {choice : Choice}
    {decision : Decision} (hc : choice.InRange reductions)
    (h : k.decision? path choice = some decision) :
    decision.InRange k.automaton.count reductions := by
  cases choice with
  | reduce index =>
      cases h
      exact hc
  | shift =>
      rw [decision?] at h
      split at h
      · cases h
      · obtain ⟨target, htarget, rfl⟩ := Option.map_eq_some_iff.1 h
        obtain ⟨e, he, rfl⟩ := Option.map_eq_some_iff.1 htarget
        exact ha.target_lt (Automaton.Realises.mem_edgesOn.1 (List.mem_of_mem_head? he)).1

/-- A level is orderly if the levels below it are. -/
theorem orderly_level (ha : k.automaton.Realises k.productions)
    {below : List Symbol → List Choice → List Continuation → Except Conflict (Trie Decision)}
    (hbelow : ∀ here choices s deeper, below here choices (group continuations s) = .ok deeper →
      deeper.Orderly (Decision.InRange k.automaton.count reductions))
    (hc : ∀ c ∈ continuations, c.choice.InRange reductions) {symbols : List Symbol}
    (hn : symbols.Nodup) (h : k.level below path continuations symbols = .ok trie) :
    trie.Orderly (Decision.InRange k.automaton.count reductions) ∧ trie.symbols ⊆ symbols := by
  induction symbols generalizing trie with
  | nil =>
      cases Except.ok.inj h
      exact ⟨.done, List.Subset.refl _⟩
  | cons s symbols ih =>
      rw [List.nodup_cons] at hn
      rcases level_cons_cases h with ⟨choice, decision, rest, hchoice, hdecision, hrest, rfl⟩ |
        ⟨choice, -, -, hrest⟩ | ⟨deeper, rest, -, -, -, hdeeper, hrest, rfl⟩
      · obtain ⟨horderly, hsubset⟩ := ih hn.2 hrest
        have hmem : choice ∈ remaining continuations s := by
          rw [hchoice]
          exact List.mem_singleton_self choice
        obtain ⟨c, hcmem, -, rfl⟩ := mem_remaining.1 hmem
        refine ⟨.leaf (inRange_of_decision? ha (hc c hcmem) hdecision) ?_ horderly, ?_⟩
        · exact fun hs => hn.1 (hsubset hs)
        · exact List.cons_subset_cons s hsubset
      · obtain ⟨horderly, hsubset⟩ := ih hn.2 hrest
        exact ⟨horderly, List.subset_cons_of_subset s hsubset⟩
      · obtain ⟨horderly, hsubset⟩ := ih hn.2 hrest
        refine ⟨.branch (fun hs => hn.1 (hsubset hs)) (hbelow _ _ s deeper hdeeper) horderly, ?_⟩
        exact List.cons_subset_cons s hsubset

theorem nodup_terminals (continuations : List Continuation) : (terminals continuations).Nodup :=
  (IsAscending.ascending _).nodup

/-- The trie that is built from continuations whose choices are in range is
orderly. -/
theorem orderly_split (ha : k.automaton.Realises k.productions) {levels : Nat}
    (hc : ∀ c ∈ continuations, c.choice.InRange reductions)
    (h : k.split levels path continuations = .ok trie) :
    trie.Orderly (Decision.InRange k.automaton.count reductions) := by
  induction levels generalizing path continuations trie with
  | zero =>
      refine (orderly_level ha (fun _ _ _ _ hd => ?_) hc (nodup_terminals _) h).1
      cases hd
  | succ levels ih =>
      refine (orderly_level ha (fun here _ s deeper hd => ?_) hc (nodup_terminals _) h).1
      obtain ⟨next, hnext, hsplit⟩ := bind_eq_ok.1 hd
      refine ih (fun c hmem => ?_) hsplit
      obtain ⟨found, hfound, hcfound⟩ := List.mem_flatten.1 hmem
      obtain ⟨d, hd, hfollow⟩ := forall₂_mem_right (mapM_eq_ok.1 hnext) hfound
      rw [found_of_follow (fun _ _ => choice_of_mem_shifts) hfollow c hcfound]
      exact hc d (mem_group.1 hd).1

end Contest

/-! ## Compiled states -/

/-- A node that can be stored in a table with a given number of nodes. -/
structure Node.Storable (states : Nat) (node : Node) : Prop where
  trie : node.trie.Orderly (Decision.InRange states node.reductions.length)
  always : ∀ index, node.always = some index → index < node.reductions.length
  head : ∀ r ∈ node.reductions, r.property.head.isNonTerminal = true
  tuple : ∀ r ∈ node.reductions, ∀ t ∈ r.tuples, t.last < states ∧ t.target < states

theorem Productions.WellFormed.isNonTerminal_property {g : Productions} {start : Symbol}
    (hg : g.WellFormed start) (p : Nat) : (g.property p).head.isNonTerminal = true := by
  rw [property]
  split
  · rename_i production hproduction
    have hhead : g.head? p = some production.head := by
      rw [head?, hproduction]
      rfl
    by_cases hp : p = 0
    · subst hp
      rw [hg.head?_zero, Option.some.injEq] at hhead
      dsimp only
      rw [← hhead]
      rfl
    · dsimp only
      rw [Symbol.isNonTerminal, hg.kind_of_head? hhead hp]
      rfl
  · rfl

namespace Parser
namespace Compiled

variable {p : Parser} {start : Symbol} {n : Nat} {node : Node}

/-- The decisions of a node are about its state. -/
theorem orderly_trie (hp : p.Compiled start) (hn : n < p.automaton.count) (h : Node.For p n node) :
    node.trie.Orderly
      (Decision.InRange p.automaton.count (p.automaton.reductions n).length) := by
  cases h with
  | reduces _ _ _ htrie =>
      rw [htrie]
      exact .done
  | shifts _ _ htrie =>
      rw [htrie]
      refine orderly_shiftTrie (hp.realises.nodup_terminalEdges hn) fun e he => ?_
      exact hp.realises.target_lt (Automaton.Realises.mem_terminalEdges.1 he).1
  | settled _ _ hsettle =>
      obtain ⟨levels, found, -, hfound, hsplit⟩ := Contest.settle_eq_ok hsettle
      refine Contest.orderly_split hp.realises (fun c hc => ?_) hsplit
      rcases List.mem_append.1 hc with hc | hc
      · rw [Contest.choice_of_mem_shifts hc]
        trivial
      · obtain ⟨l, hl, hcl⟩ := List.mem_flatten.1 hc
        obtain ⟨⟨r, index⟩, hmem, hfollow⟩ := forall₂_mem_right hfound hl
        have hshifts := Contest.found_of_followReduction
          (fun _ _ => Contest.choice_of_mem_shifts) hfollow c hcl
        rw [hshifts]
        exact (List.getElem?_eq_some_iff.1 (List.mem_zipIdx_iff_getElem?.1 hmem)).1

theorem size_nodes (hp : p.Compiled start) : p.nodes.size = p.automaton.count := by
  have hlength := hp.nodes.length_eq
  rw [List.length_zipIdx, Array.length_toList, Array.length_toList] at hlength
  exact hlength.symm

/-- **Every node of a compiled grammar can be stored.** -/
theorem storable (hp : p.Compiled start) (h : p.node n = .ok node) :
    node.Storable p.nodes.size := by
  have hn := hp.lt_count_of_node h
  obtain ⟨node', hnode', hfor, hreductions⟩ := hp.exists_node hn
  rw [h, Except.ok.injEq] at hnode'
  subst hnode'
  rw [hp.size_nodes]
  have hlength : node.reductions.length = (p.automaton.reductions n).length := by
    rw [hreductions, List.length_map]
  refine ⟨?_, fun index hindex => ?_, fun r hr => ?_, fun r hr t ht => ?_⟩
  · rw [hlength]
    exact hp.orderly_trie hn hfor
  · rw [hlength]
    cases hfor with
    | reduces hone _ halways _ =>
        rw [halways] at hindex
        cases hindex
        rw [hone]
        exact Nat.zero_lt_one
    | shifts _ halways _ =>
        rw [halways] at hindex
        cases hindex
    | settled _ halways _ =>
        rw [halways] at hindex
        cases hindex
  · rw [hreductions] at hr
    obtain ⟨r', -, rfl⟩ := List.mem_map.1 hr
    exact hp.wellFormed.isNonTerminal_property _
  · rw [hreductions] at hr
    obtain ⟨r', hr', rfl⟩ := List.mem_map.1 hr
    obtain ⟨⟨last, target⟩, htuple, rfl⟩ := List.mem_map.1 ht
    rw [(hp.realises.mem_reductions_iff.1 hr').2] at htuple
    exact Automaton.lt_count_of_mem_reductionTuples hp.realises htuple

end Compiled
end Parser
end BoundedLR
