import BoundedLR.Proofs.Operations
import BoundedLR.Proofs.RecordedTrees
import BoundedLR.Proofs.ShiftDecisions
import BoundedLR.Proofs.StackPaths

/-!
# A parse that succeeds has found a derivation tree

While a parser compiled from a grammar is running, its recorded stack has grown
from trees: each state has been entered over a tree, the trees and the buffered
tokens together spell out what has been taken, and the steps are the traces of the
trees.  `Parser.Growth` is this invariant.  A shift is sound because the trie only
shifts what the automaton shifts, and a reduction is sound because the topmost
trees fit the slots of the production that is complete.  How the trie came to its
decision does not matter.

An input is accepted only on a stack of two trees, a sentence and the end of input,
and then nothing is left in the buffer.  So the sentence is made of the tokens that
have been fed, and the steps are its trace.
-/

namespace BoundedLR

variable {p : Parser} {start : Symbol} {taken : List Token}
  {c c' : Configuration (Record Nat) (Trie Decision)} {trees : List (Tree Nat)}

/-! ## The synthetic production -/

/-- Only the start opens the synthetic production. -/
theorem Automaton.Realises.eq_zero_of_initial_zero {a : Automaton} {g : Productions}
    (ha : a.Realises g) (hg : g.WellFormed start) {n : Nat} (h : Item.initial 0 ∈ a.items n) :
    n = 0 := by
  rw [ha.items_eq (Automaton.lt_count_of_mem_items h)] at h
  rcases Productions.mem_closure_cases h with hk | ⟨j, -, ho⟩
  · exact (ha.eq_zero_of_initial_mem_kernel hk).1
  · obtain ⟨s, d, hs, hd, -, heq⟩ := Productions.mem_openings.1 ho
    obtain ⟨slot, hslot, rfl⟩ := Option.map_eq_some_iff.1 hs
    exact absurd (congrArg Item.production heq).symm (hg.ne_zero_of_head?_slot hslot hd)

/-- In the last slot of the synthetic production stands the end of input. -/
theorem Productions.WellFormed.exists_token_of_fits_end {g : Productions}
    (hg : g.WellFormed start) {t : Tree Nat} (h : g.Fits 0 1 t) :
    ∃ token : Token, t = .leaf token ∧ token.symbol = .endOfInput := by
  have hslot : g.slot? 0 1 = some ⟨.endOfInput, none⟩ := by
    rw [Productions.slot?, hg.slots_zero]
    rfl
  cases h with
  | token hs hsym _ =>
      rw [hslot, Option.some.injEq] at hs
      subst hs
      exact ⟨_, rfl, hsym⟩
  | production hs hh _ _ _ =>
      have hne := hg.ne_zero_of_head?_slot hs hh
      have hkind := hg.kind_of_head? hh hne
      rw [hslot, Option.some.injEq] at hs
      subst hs
      cases hkind

/-- A stack on which the synthetic production is complete holds a sentence and the
end of input, and nothing else. -/
theorem Automaton.Grown.sentence {a : Automaton} {g : Productions} (ha : a.Realises g)
    (hg : g.WellFormed start) {top : Nat} {stack : List Nat}
    (h : a.Grown g (top :: stack) trees) (hi : (⟨0, g.length 0⟩ : Item) ∈ a.items top) :
    ∃ tree token, trees = [.leaf token, tree] ∧ g.Sentence tree ∧ token.symbol = .endOfInput := by
  rw [hg.length_zero] at hi
  obtain ⟨hlen, hfits⟩ := h.fits ha hi
  obtain ⟨first, hfirst, hopen, -⟩ := h.path.unwind ha hi
  have hzero := ha.eq_zero_of_initial_zero hg hopen
  subst hzero
  match trees, hlen, hfits, h with
  | t :: tree :: rest, _, hfits, h =>
      obtain ⟨token, rfl, hsym⟩ := hg.exists_token_of_fits_end (hfits 1 t rfl)
      have hdrop := h.drop (k := 2) (by simp)
      have hrest : (top :: stack).drop 2 = [0] := by
        obtain ⟨below, hbelow⟩ := exists_drop_eq_cons hfirst
        rw [hbelow] at hdrop ⊢
        rw [hdrop.path.eq_nil_of_zero ha]
      rw [hrest] at hdrop
      have hnil : rest = [] := by
        have hl := hdrop.length_eq
        rw [List.length_singleton, List.drop_succ_cons, List.drop_succ_cons, List.drop_zero] at hl
        exact List.length_eq_zero_iff.1 (by omega)
      subst hnil
      exact ⟨tree, token, rfl, hfits 0 tree rfl, hsym⟩

/-! ## The invariant -/

namespace Parser

/-- **The invariant of a recorded parse**: the stack has grown from trees, which
together with the buffer spell out the tokens taken so far. -/
structure Growth (p : Parser) (taken : List Token)
    (c : Configuration (Record Nat) (Trie Decision)) (trees : List (Tree Nat)) : Prop where
  grown : p.automaton.Grown p.productions (c.stack.entries.map (·.node)) trees
  traces : c.stack.Traces p.productions.property trees
  leaves : Tree.leavesOfAll trees.reverse ++ c.buffer = taken
  cursor : ∀ top, StateStack.peek c.stack 0 = some top → ∃ root, p.table.root top = .ok root ∧
    root.walk ((c.buffer.take c.cursor.depth).map (·.symbol)) = some c.cursor.level
  depth_le : c.cursor.depth ≤ c.buffer.length
  accepted : c.stack.accepted = true → ∃ tree token, trees = [.leaf token, tree] ∧
    p.productions.Sentence tree ∧ token.symbol = .endOfInput

/-- The invariant at the root of a node, before any token has been looked at. -/
theorem Growth.of_root {taken buffer : List Token} {stack : Record Nat} {trees : List (Tree Nat)}
    {top : Nat} {root : Trie Decision}
    (hgrown : p.automaton.Grown p.productions (stack.entries.map (·.node)) trees)
    (htraces : stack.Traces p.productions.property trees)
    (hleaves : Tree.leavesOfAll trees.reverse ++ buffer = taken)
    (htop : StateStack.peek stack 0 = some top) (hroot : p.table.root top = .ok root)
    (hna : stack.accepted = false) : p.Growth taken ⟨stack, buffer, ⟨root, 0⟩⟩ trees where
  grown := hgrown
  traces := htraces
  leaves := hleaves
  cursor top' htop' := by
    cases htop.symm.trans htop'
    exact ⟨root, hroot, rfl⟩
  depth_le := Nat.zero_le _
  accepted hacc := by
    have hacc' : stack.accepted = true := hacc
    rw [hna] at hacc'
    cases hacc'

theorem peek_record (r : Record Nat) (n : Nat) :
    StateStack.peek r n = (r.entries.map (·.node))[n]? := by
  rw [List.getElem?_map]
  rfl

theorem exists_nodes_of_peek {r : Record Nat} {top : Nat} (h : StateStack.peek r 0 = some top) :
    ∃ below, r.entries.map (·.node) = top :: below := by
  rw [peek_record] at h
  exact exists_drop_eq_cons h

/-- There is always a topmost state. -/
theorem Growth.exists_top (hs : p.Growth taken c trees) : ∃ top below,
    c.stack.entries.map (·.node) = top :: below ∧ StateStack.peek c.stack 0 = some top := by
  obtain ⟨top, below, hnodes⟩ := List.exists_cons_of_ne_nil hs.grown.path.ne_nil
  refine ⟨top, below, hnodes, ?_⟩
  rw [peek_record, hnodes]
  rfl

/-- The tokens that a record and a buffer stand for, after a token has been
shifted. -/
theorem leaves_shift {token : Token} {rest : List Token}
    (h : Tree.leavesOfAll trees.reverse ++ token :: rest = taken) :
    Tree.leavesOfAll (.leaf token :: trees).reverse ++ rest = taken := by
  rw [List.reverse_cons, Tree.leavesOfAll_append, List.append_assoc]
  exact h

/-- Making a node out of the topmost trees does not change their leaves. -/
theorem leaves_reduce (count label : Nat) :
    Tree.leavesOfAll (Tree.node label (trees.take count).reverse :: trees.drop count).reverse =
      Tree.leavesOfAll trees.reverse := by
  have hnode : Tree.leavesOfAll [Tree.node label (trees.take count).reverse] =
      Tree.leavesOfAll (trees.take count).reverse := by
    rw [Tree.leavesOfAll, Tree.leavesOfAll, Tree.leaves, List.append_nil]
  rw [List.reverse_cons, Tree.leavesOfAll_append, hnode, ← Tree.leavesOfAll_append,
    ← List.reverse_append, List.take_append_drop]

namespace Compiled

/-- What the machine consults is an entry of the trie, if it is not the reduction
that needs no lookahead. -/
theorem entry_of_consults {top : Nat} {action : Action Nat (Trie Decision)}
    (h : Machine.Consults p.table c top action) (hr : ∀ index, action ≠ .reduce index) :
    ∃ token entry, c.buffer[c.cursor.depth]? = some token ∧
      c.cursor.level.find? token.symbol = some entry ∧ actionOf entry = action := by
  cases h with
  | always => exact absurd rfl (hr _)
  | @found token action _ hb hf =>
      obtain ⟨entry, hentry, hact⟩ := Option.map_eq_some_iff.1 (Except.ok.inj hf)
      exact ⟨token, entry, hb, hentry, hact⟩

variable (hp : p.Compiled start)

include hp

/-- A shift puts the leaf of the token on the stack. -/
theorem growth_shift (hs : p.Growth taken c trees) {top target : Nat} {predict : Bool}
    {token : Token} {rest : List Token} {root : Trie Decision}
    (htop : StateStack.peek c.stack 0 = some top)
    (hc : Machine.Consults p.table c top (.shift target predict))
    (hb : c.buffer = token :: rest) (hroot : p.table.root target = .ok root)
    (hna : c.stack.accepted = false) :
    p.Growth taken ⟨StateStack.shift c.stack token ⟨target, predict⟩, rest, ⟨root, 0⟩⟩
      (.leaf token :: trees) := by
  obtain ⟨under, entry, hunder, hentry, hact⟩ := entry_of_consults hc fun _ => nofun
  obtain ⟨root', hroot', hwalk⟩ := hs.cursor top htop
  obtain rfl : entry = .settled (.shift target predict) := actionOf_injective hact
  obtain ⟨first, hfirst, hterm, hshift, -⟩ := hp.shift_of_walk hroot' hwalk hentry
  have hword : (c.buffer.take c.cursor.depth).map (·.symbol) ++ [under.symbol] =
      (c.buffer.take (c.cursor.depth + 1)).map (·.symbol) := by
    rw [List.take_add_one, hunder, List.map_append]
    rfl
  have hsym : token.symbol = first := by
    rw [hword, hb, List.take_succ_cons, List.map_cons, List.head?_cons, Option.some.injEq] at hfirst
    exact hfirst
  subst hsym
  obtain ⟨e, he, hes, rfl⟩ := (hp.realises.shift_eq_some_iff hterm).1 hshift
  obtain ⟨below, hbelow⟩ := exists_nodes_of_peek htop
  have hgrown := hs.grown
  rw [hbelow] at hgrown
  refine .of_root ?_ (hs.traces.shift token _) (leaves_shift (hb ▸ hs.leaves)) rfl hroot hna
  change p.automaton.Grown p.productions (e.target :: c.stack.entries.map (·.node)) _
  rw [hbelow]
  exact hgrown.push (.token he hes hterm)

/-- The reduction that is performed belongs to a complete item of the topmost
state, and the topmost trees fit its slots. -/
theorem children_of_property (hs : p.Growth taken c trees) {top index : Nat}
    {property : ReductionProperty} (htop : StateStack.peek c.stack 0 = some top)
    (hproperty : p.table.property top index = .ok property) :
    ∃ r below, (p.automaton.reductions top)[index]? = some r ∧
      c.stack.entries.map (·.node) = top :: below ∧
      property = p.productions.property r.production ∧
      property.count = p.productions.length r.production ∧
      r.production < p.productions.count ∧
      (⟨r.production, p.productions.length r.production⟩ : Item) ∈ p.automaton.items top ∧
      property.count ≤ trees.length ∧
      ∀ i (t : Tree Nat), ((trees.take property.count).reverse)[i]? = some t →
        p.productions.Fits r.production i t := by
  obtain ⟨r, hr, rfl⟩ := hp.property_eq_ok.1 hproperty
  obtain ⟨below, hbelow⟩ := exists_nodes_of_peek htop
  have hitem := (hp.realises.mem_reductions_iff.1 (List.mem_of_getElem? hr)).1
  have hlt : r.production < p.productions.count := (hp.realises.holds hitem).1
  have hcount := p.productions.count_property hlt
  have hgrown := hs.grown
  rw [hbelow] at hgrown
  obtain ⟨hle, hfits⟩ := hgrown.fits hp.realises hitem
  rw [← hcount] at hle hfits
  exact ⟨r, below, hr, hbelow, rfl, hcount, hlt, hitem, hle, hfits⟩

/-- A reduction puts the topmost trees under a new node. -/
theorem growth_reduce (hs : p.Growth taken c trees) {top index last : Nat}
    {property : ReductionProperty} {landing : Landing Nat} {root : Trie Decision}
    (htop : StateStack.peek c.stack 0 = some top)
    (hproperty : p.table.property top index = .ok property)
    (hlast : StateStack.peek c.stack property.count = some last)
    (hlanding : p.table.landing top index last = .ok (some landing))
    (hroot : p.table.root landing.target = .ok root) (hna : c.stack.accepted = false) :
    ∃ trees', p.Growth taken
      ⟨StateStack.reduce c.stack property landing, c.buffer, ⟨root, 0⟩⟩ trees' := by
  obtain ⟨r, below, hr, hbelow, hprop, hcount, -, hitem, hle, hfits⟩ :=
    hp.children_of_property hs htop hproperty
  obtain ⟨r', hr', htuple, -⟩ := hp.landing_eq_ok.1 hlanding
  rw [hr, Option.some.injEq] at hr'
  subst hr'
  rw [(hp.realises.mem_reductions_iff.1 (List.mem_of_getElem? hr)).2] at htuple
  obtain ⟨head, hhead, hne, -, -, -⟩ := Automaton.mem_reductionTuples.1 htuple
  have hterm : head.isTerminal = false := hp.wellFormed.isTerminal_of_head? hhead hne
  obtain ⟨e, he, htarget, hes, hkernel⟩ := hp.realises.edge_of_tuple hhead hterm htuple
  have hgrown := hs.grown.drop hle
  rw [peek_record] at hlast
  obtain ⟨under, hunder⟩ := exists_drop_eq_cons hlast
  refine ⟨.node r.production (trees.take property.count).reverse :: trees.drop property.count,
    .of_root ?_ (hs.traces.reduce hprop.symm hle landing) ?_ rfl hroot hna⟩
  · change p.automaton.Grown p.productions
      (landing.target :: (c.stack.entries.drop property.count).map (·.node)) _
    rw [List.map_drop, hunder]
    rw [hunder] at hgrown
    refine hgrown.push ?_
    rw [← htarget] at hkernel ⊢
    refine .production he hes hterm hhead hkernel ?_ hfits
    rw [List.length_reverse, List.length_take, Nat.min_eq_left hle, hcount]
  · rw [leaves_reduce]
    exact hs.leaves

/-- **Every move keeps the invariant.** -/
theorem growth_step (hs : p.Growth taken c trees)
    (h : Machine.step p.table c = .ok (.moved c')) : ∃ trees', p.Growth taken c' trees' := by
  obtain ⟨hna, top, action, htop, hc, hm⟩ := Machine.step_eq_moved.1 h
  have hna' : c.stack.accepted = false := hna
  cases hm with
  | @descend level =>
      obtain ⟨token, entry, hb, hentry, hact⟩ := entry_of_consults hc fun _ => nofun
      obtain rfl : entry = .deeper level := actionOf_injective hact
      have hlt : c.cursor.depth < c.buffer.length := (List.getElem?_eq_some_iff.1 hb).1
      refine ⟨trees, hs.grown, hs.traces, hs.leaves, fun top' htop' => ?_, hlt, hs.accepted⟩
      obtain ⟨root, hroot, hwalk⟩ := hs.cursor top' htop'
      refine ⟨root, hroot, ?_⟩
      rw [List.take_add_one, hb, List.map_append]
      exact Trie.walk_append hwalk hentry
  | shift hb hroot => exact ⟨_, hp.growth_shift hs htop hc hb hroot hna'⟩
  | accept hproperty hacc =>
      obtain ⟨r, below, -, hbelow, hprop, -, hlt, hitem, -, -⟩ :=
        hp.children_of_property hs htop hproperty
      rw [hprop, hp.wellFormed.property_accepts_iff hlt] at hacc
      rw [hacc] at hitem
      have hgrown := hs.grown
      rw [hbelow] at hgrown
      exact ⟨trees, hs.grown, ⟨hs.traces.length_entries, hs.traces.steps_eq,
        hs.traces.offset_eq⟩, hs.leaves, hs.cursor, hs.depth_le,
        fun _ => hgrown.sentence hp.realises hp.wellFormed hitem⟩
  | reduce hproperty _ hlast hlanding hroot =>
      exact hp.growth_reduce hs htop hproperty hlast hlanding hroot hna'

/-- A run keeps the invariant. -/
theorem growth_run {moves : Nat} {stall : Option Stall} (hs : ∃ trees, p.Growth taken c trees)
    (h : Machine.run p.table moves c = .ok (c', stall)) :
    (∃ trees, p.Growth taken c' trees) ∧ Machine.Ends p.table c' stall :=
  Machine.run_keeps (P := fun c => ∃ trees, p.Growth taken c trees)
    (fun _ _ ⟨_, hs⟩ h => hp.growth_step hs h) hs h

end Compiled

/-- One more token in the buffer is one more token taken. -/
theorem Growth.withToken (hs : p.Growth taken c trees) (token : Token) :
    p.Growth (taken ++ [token]) (Session.withToken c token) trees := by
  refine ⟨hs.grown, hs.traces, ?_, fun top htop => ?_, ?_, hs.accepted⟩
  · rw [Session.withToken, ← List.append_assoc, hs.leaves]
  · obtain ⟨root, hroot, hwalk⟩ := hs.cursor top htop
    refine ⟨root, hroot, ?_⟩
    rw [Session.withToken, List.take_append_of_le_length hs.depth_le]
    exact hwalk
  · rw [Session.withToken, List.length_append]
    exact Nat.le_add_right_of_le hs.depth_le

/-- A parse begins with an empty stack of trees. -/
theorem growth_start {root : Trie Decision} (h : p.table.root p.table.startup = .ok root) :
    p.Growth [] ⟨Record.start p.table.startup, [], ⟨root, 0⟩⟩ [] :=
  .of_root .start (.start _ _) rfl rfl h rfl

end Parser

/-! ## Soundness -/

/-- **A session that takes the end of input** has found a derivation tree of the tokens
that it has taken, and has recorded its trace. -/
theorem Parser.Growth.sentence_of_endOfInput {moves : Nat} {fed s : Session Nat (Trie Decision)}
    (hp : p.Compiled start) (hs : p.Growth taken fed.configuration trees)
    (h : fed.endOfInput p.table moves = .ok (s, .ok ())) :
    ∃ tree, p.productions.Sentence tree ∧ tree.leaves = taken ∧
      s.steps.map Step.unflagged = tree.trace p.productions.property := by
  obtain ⟨hend, haccepted⟩ := Session.endOfInput_eq_ok.1 h
  obtain ⟨-, hlast, -⟩ := Session.consume_eq_ok.1 hend
  obtain ⟨⟨trees, hs⟩, hends⟩ := hp.growth_run ⟨trees, hs.withToken _⟩ hlast
  have hbuffer : s.configuration.buffer = [] := by
    cases hends with
    | waiting hwait =>
        rw [Machine.step_of_accepted haccepted] at hwait
        split at hwait
        · rename_i hempty
          exact List.isEmpty_iff.1 hempty
        · cases hwait
  obtain ⟨tree, token, rfl, hsentence, hsym⟩ := hs.accepted haccepted
  refine ⟨tree, hsentence, ?_, ?_⟩
  · have hleaves := hs.leaves
    rw [hbuffer, List.append_nil] at hleaves
    have hsplit : tree.leaves ++ [token] = taken ++ [⟨.endOfInput, fed.next⟩] := by
      rw [← hleaves]
      simp only [List.reverse_cons, List.reverse_nil, List.nil_append, List.singleton_append,
        Tree.leavesOfAll, Tree.leaves]
    exact (List.append_inj' hsplit rfl).1
  · have htrace := hs.traces.steps_eq
    rw [Tree.stackedTrace_cons, Tree.stackedTrace_cons, Tree.trace, Tree.shiftStep,
      if_pos hsym, List.append_nil] at htrace
    exact htrace

/-- **Soundness.**  Whenever a parser compiled from a grammar accepts an input, the
input is a sentence of the grammar: there is a derivation tree of which the tokens
that have been fed are the leaves, and the recorded steps are the trace of this
tree. -/
theorem Session.sentence_of_parse {grammar : Grammar} {bound moves : Nat} {tokens : List Token}
    {s : Session Nat (Trie Decision)} (hp : grammar.compile bound = .ok p)
    (h : parse p.table moves tokens = .ok (s, .ok ())) :
    grammar.normalize = .ok p.productions ∧ ∃ tree, p.productions.Sentence tree ∧
      tree.leaves = tokens ∧
      s.steps.map Step.unflagged = tree.trace p.productions.property := by
  obtain ⟨hnormal, hcompiled⟩ := Grammar.compiled_of_compile hp
  refine ⟨hnormal, ?_⟩
  obtain ⟨first, hstart, h⟩ := bind_eq_ok.1 h
  obtain ⟨⟨fed, answer⟩, hfeed, h⟩ := bind_eq_ok.1 h
  cases answer with
  | error rejection => cases h
  | ok u =>
      obtain ⟨-, root, stall, hroot, hrun⟩ := start_eq_ok.1 hstart
      have hfirst := (hcompiled.growth_run ⟨_, Parser.growth_start hroot⟩ hrun).1
      obtain ⟨trees, hfed⟩ := feed_keeps (P := fun taken c => ∃ trees, p.Growth taken c trees)
        (fun taken c token c' ⟨trees, hs⟩ hrun =>
          (hcompiled.growth_run ⟨trees, hs.withToken token⟩ hrun).1) hfirst hfeed
      exact hfed.sentence_of_endOfInput hcompiled h

/-! ## A grammar that has to look ahead -/

/-- Two rules whose first elements look alike until the symbol behind them is
read.  The first rule asks for an announcement. -/
def Grammar.forked : Grammar where
  start := .nonTerminal 0
  rules :=
    [⟨.nonTerminal 0, [.symbol (.nonTerminal 1), .symbol (.terminal 0)], 7, true⟩,
      ⟨.nonTerminal 0, [.symbol (.nonTerminal 2), .symbol (.terminal 1)], 0, false⟩,
      ⟨.nonTerminal 1, [.symbol (.terminal 2)], 0, false⟩,
      ⟨.nonTerminal 2, [.symbol (.terminal 2)], 0, false⟩,
      ⟨.nonTerminal 2, [.symbol (.terminal 3), .symbol (.nonTerminal 2)], 0, false⟩]
  priorities := []

/-- Whether a grammar compiles, and the compiled grammar accepts an input. -/
def Grammar.parses (grammar : Grammar) (bound moves : Nat) (tokens : List Token) : Bool :=
  yields (grammar.compile bound) fun p =>
    yields (Session.parse p.table moves tokens) fun (_, answer) => yields answer fun _ => true

theorem Grammar.exists_of_parses {grammar : Grammar} {bound moves : Nat} {tokens : List Token}
    (h : grammar.parses bound moves tokens = true) : ∃ p s, grammar.compile bound = .ok p ∧
      Session.parse p.table moves tokens = .ok (s, .ok ()) := by
  obtain ⟨p, hp, h⟩ := exists_of_yields h
  obtain ⟨⟨s, answer⟩, hs, h⟩ := exists_of_yields h
  obtain ⟨⟨⟩, rfl, -⟩ := exists_of_yields h
  exact ⟨p, s, hp, hs⟩

/-- Whether a grammar compiles, and a fresh session of the compiled grammar passes a
test. -/
def Grammar.passes (grammar : Grammar) (bound moves : Nat)
    (test : Parser → Session Nat (Trie Decision) → Bool) : Bool :=
  yields (grammar.compile bound) fun p => yields (Session.start p.table moves) (test p)

theorem Grammar.exists_of_passes {grammar : Grammar} {bound moves : Nat}
    {test : Parser → Session Nat (Trie Decision) → Bool}
    (h : grammar.passes bound moves test = true) : ∃ p s, grammar.compile bound = .ok p ∧
      Session.start p.table moves = .ok s ∧ test p s = true := by
  obtain ⟨p, hp, h⟩ := exists_of_yields h
  obtain ⟨s, hs, h⟩ := exists_of_yields h
  exact ⟨p, s, hp, hs, h⟩

/-- Whether a session takes some tokens, and passes a test then. -/
def Session.takes (p : Parser) (moves : Nat) (tokens : List Token)
    (test : Session Nat (Trie Decision) → Bool) (s : Session Nat (Trie Decision)) : Bool :=
  yields (s.feed p.table moves tokens) fun (after, answer) => yields answer fun _ => test after

theorem Session.exists_of_takes {p : Parser} {moves : Nat} {tokens : List Token}
    {test : Session Nat (Trie Decision) → Bool} {s : Session Nat (Trie Decision)}
    (h : takes p moves tokens test s = true) :
    ∃ after, s.feed p.table moves tokens = .ok (after, .ok ()) ∧ test after = true := by
  obtain ⟨⟨after, answer⟩, hfeed, h⟩ := exists_of_yields h
  obtain ⟨⟨⟩, rfl, htest⟩ := exists_of_yields h
  exact ⟨after, hfeed, htest⟩

/-- The first rule of the forked grammar, parsed behind an announcement. -/
theorem Session.sentence_of_parse_forked : ∃ p s, Grammar.forked.compile 1 = .ok p ∧
    parse p.table 9 [⟨.terminal 2, 0⟩, ⟨.terminal 0, 1⟩] = .ok (s, .ok ()) ∧
    Grammar.forked.normalize = .ok p.productions ∧ ∃ tree, p.productions.Sentence tree ∧
      tree.leaves = [⟨.terminal 2, 0⟩, ⟨.terminal 0, 1⟩] ∧
      s.steps.map Step.unflagged = tree.trace p.productions.property := by
  obtain ⟨p, s, hp, hs⟩ := Grammar.exists_of_parses
    (show Grammar.forked.parses 1 9 [⟨.terminal 2, 0⟩, ⟨.terminal 0, 1⟩] = true by decide +kernel)
  exact ⟨p, s, hp, hs, sentence_of_parse hp hs⟩

end BoundedLR
