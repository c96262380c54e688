import BoundedLR.Proofs.Completeness
import BoundedLR.Proofs.Completions

/-!
# Every stack can be brought to an end

If the slots of a grammar can be filled, then every stack that is a path through the
automaton can carry out some turns that lead it to the state that accepts
(`Automaton.Path.finishes`).  An item of the topmost state shows the way.  The slots
behind its dot are filled; then its production is reduced, which fills the slot of the
item that has opened it, and so on down to the synthetic production.

A stack that has grown from trees grows on along such turns (`Automaton.Grown.follows`),
and what stands on the stack at the end is a sentence.  In a grammar that compiles no two
sentences have the same leaves.  So turns that shift nothing never lead a stack back to
itself, except if there are none (`Parser.Compiled.eq_nil_of_follows_self`).
-/

namespace BoundedLR

variable {a : Automaton} {g : Productions} {start : Symbol} {p d top : Nat}
  {stack between : List Nat} {turns : List Turn} {trees : List (Tree Nat)} {i j : Item}

/-! ## To the state that accepts -/

namespace Automaton

/-- Some turns lead a stack to the state in which the input is accepted. -/
def Finishes (a : Automaton) (g : Productions) (stack : List Nat) : Prop :=
  ∃ turns top below, a.Follows g stack turns (top :: below) ∧
    (⟨0, g.length 0⟩ : Item) ∈ a.items top

theorem Finishes.of_follows (h : a.Finishes g between) (hrun : a.Follows g stack turns between) :
    a.Finishes g stack := by
  obtain ⟨more, top, below, hmore, htop⟩ := h
  exact ⟨turns ++ more, top, below, hrun.trans hmore, htop⟩

/-- **The slots behind the dot can be filled** on top of the stack. -/
theorem Path.exists_filled (ha : a.Realises g) (hg : g.WellFormed start) (hprod : g.Productive)
    (h : a.Path (top :: stack)) (hi : (⟨p, d⟩ : Item) ∈ a.items top) :
    ∃ turns last rest, a.Follows g (top :: stack) turns (last :: rest) ∧ a.Path (last :: rest) ∧
      (⟨p, g.length p⟩ : Item) ∈ a.items last ∧
      (last :: rest).drop (g.length p) = (top :: stack).drop d := by
  have hd : d ≤ g.length p := (ha.holds hi).2
  induction hn : g.length p - d generalizing top stack d with
  | zero =>
      obtain rfl : d = g.length p := by omega
      exact ⟨[], top, stack, .done, h, hi, rfl⟩
  | succ n ih =>
      have hlt : d < (g.slots p).length := by
        show d < g.length p
        omega
      obtain ⟨t, ht⟩ := hprod.exists_fits (p := p) (List.getElem?_eq_getElem hlt)
      obtain ⟨next, hturns, hpath, hitem⟩ := ht.follows ha hg top stack h hi
      obtain ⟨turns, last, rest, hrun, hlast, hcomplete, hdrop⟩ := ih hpath hitem hlt (by omega)
      exact ⟨_, last, rest, hturns.trans hrun, hlast, hcomplete, hdrop⟩

end Automaton

/-- Whatever stack has filled the slots behind the dot of an item, on top of a given
stack, can be brought to an end. -/
def Item.Finishes (a : Automaton) (g : Productions) (stack : List Nat) (i : Item) : Prop :=
  ∀ last rest, a.Path (last :: rest) →
    (⟨i.production, g.length i.production⟩ : Item) ∈ a.items last →
    (last :: rest).drop (g.length i.production) = stack.drop i.dot → a.Finishes g (last :: rest)

namespace Item.Finishes

/-- **An opened production** is reduced once its slots are filled.  That fills the slot of
the item that has opened it, and the slots behind that one can be filled, too. -/
theorem opened (ha : a.Realises g) (hg : g.WellFormed start) (hprod : g.Productive)
    (h : i.Finishes a g (top :: stack)) (hi : i ∈ a.items top) (hj : j ∈ g.openings i) :
    j.Finishes a g (top :: stack) := by
  obtain ⟨s, c, hs, hc, had, rfl⟩ := Productions.mem_openings.1 hj
  obtain ⟨slot, hslot, rfl⟩ := Option.map_eq_some_iff.1 hs
  have hne := hg.ne_zero_of_head?_slot hslot hc
  intro last rest hpath hcomplete hdrop
  change (last :: rest).drop (g.length c) = top :: stack at hdrop
  obtain ⟨first, target, hfirst, htuple⟩ := hpath.exists_tuple ha hg hne hcomplete
  obtain rfl : first = top := by
    rw [← Nat.add_zero (g.length c), ← List.getElem?_drop, hdrop] at hfirst
    exact (Option.some.inj hfirst).symm
  obtain ⟨e, -, -, -, hkernel⟩ := ha.edge_of_tuple hc (hg.isTerminal_of_head? hc hne) htuple
  have hpath' := Automaton.Follows.path_reduce ha hg hpath hfirst htuple
  have hreduce : a.Follows g (last :: rest) [.reduce c] (target :: first :: stack) := by
    refine .reduce hne hcomplete hfirst htuple ?_
    rw [hdrop]
    exact .done
  rw [hdrop] at hpath'
  have hadvanced : i.advance ∈ a.items target := by
    refine ha.mem_items_of_kernel hpath' ?_
    rw [hkernel]
    exact Productions.mem_kernelOver.2 ⟨i, Productions.mem_before.2 ⟨hi, hs⟩, had, rfl⟩
  obtain ⟨turns, last', rest', hrun, hlast, hfilled, hdrop'⟩ :=
    hpath'.exists_filled ha hg hprod hadvanced
  exact (h last' rest' hlast hfilled hdrop').of_follows (hreduce.trans hrun)

/-- An item with its dot further on ends like the initial item below what stands for the
slots before the dot. -/
theorem advanced (h : (Item.initial p).Finishes a g (stack.drop d)) :
    (Item.mk p d).Finishes a g stack := h

end Item.Finishes

namespace Automaton

/-- Every item of the topmost state shows the way. -/
theorem Path.item_finishes (ha : a.Realises g) (hg : g.WellFormed start) (hprod : g.Productive)
    (h : a.Path (top :: stack)) (hi : i ∈ a.items top) : i.Finishes a g (top :: stack) := by
  induction hn : stack.length using Nat.strong_induction_on generalizing top stack i with
  | _ n ih =>
  subst hn
  have hreach : g.Reaches (a.kernel top) i := by
    rw [ha.items_eq (h.lt_count ha)] at hi
    exact Productions.mem_closure_iff.1 hi
  induction hreach with
  | @seed i hk =>
      obtain ⟨p, d⟩ := i
      cases d with
      | zero =>
          -- the synthetic production is complete
          obtain ⟨-, rfl⟩ := ha.eq_zero_of_initial_mem_kernel hk
          exact fun last rest _ hcomplete _ => ⟨[], last, rest, .done, hcomplete⟩
      | succ d =>
          obtain ⟨first, hfirst, hopen, -⟩ := h.unwind ha hi
          obtain ⟨below, hbelow⟩ := exists_drop_eq_cons hfirst
          have hlt := (List.getElem?_eq_some_iff.1 hfirst).1
          have hdrop := h.drop hlt
          have hlen := congrArg List.length hbelow
          rw [List.length_drop, List.length_cons, List.length_cons] at hlen
          rw [hbelow] at hdrop
          refine .advanced ?_
          rw [hbelow]
          exact ih _ (by omega) hdrop hopen rfl
  | @opened j i hj ho ihj =>
      have hmem : j ∈ a.items top := by
        rw [ha.items_eq (h.lt_count ha)]
        exact Productions.mem_closure_iff.2 hj
      exact (ihj hmem).opened ha hg hprod hmem ho

/-- **Every stack can be brought to an end.** -/
theorem Path.finishes (ha : a.Realises g) (hg : g.WellFormed start) (hprod : g.Productive)
    (h : a.Path stack) : a.Finishes g stack := by
  obtain ⟨top, below, rfl⟩ := List.exists_cons_of_ne_nil h.ne_nil
  obtain ⟨i, hi⟩ := h.exists_item ha
  obtain ⟨turns, last, rest, hrun, hlast, hfilled, hdrop⟩ := h.exists_filled ha hg hprod hi
  exact (h.item_finishes ha hg hprod hi last rest hlast hfilled hdrop).of_follows hrun

end Automaton

/-! ## Growing on -/

namespace Tree

theorem turnsOfAll_shift (token : Token) (trees : List (Tree Nat)) :
    turnsOfAll (leaf token :: trees).reverse =
      turnsOfAll trees.reverse ++ [.shift token.symbol] := by
  rw [List.reverse_cons, turnsOfAll_append]
  rfl

/-- Making a node out of the topmost trees is one more turn. -/
theorem turnsOfAll_reduce (count q : Nat) (trees : List (Tree Nat)) :
    turnsOfAll (node q (trees.take count).reverse :: trees.drop count).reverse =
      turnsOfAll trees.reverse ++ [.reduce q] := by
  rw [List.reverse_cons, turnsOfAll_append, turnsOfAll, turnsOfAll, turns, List.append_nil,
    ← List.append_assoc, ← turnsOfAll_append, ← List.reverse_append, List.take_append_drop]

end Tree

namespace Automaton.Grown

/-- A reduction puts the topmost trees under a new node. -/
theorem reduce (ha : a.Realises g) (hg : g.WellFormed start) {first target : Nat}
    (h : a.Grown g (top :: stack) trees) (hi : (⟨p, g.length p⟩ : Item) ∈ a.items top)
    (hf : (top :: stack)[g.length p]? = some first)
    (ht : (first, target) ∈ a.reductionTuples g top p) :
    a.Grown g (target :: (top :: stack).drop (g.length p))
      (.node p (trees.take (g.length p)).reverse :: trees.drop (g.length p)) := by
  obtain ⟨head, hhead, hne, -, -, -⟩ := mem_reductionTuples.1 ht
  have hterm := hg.isTerminal_of_head? hhead hne
  obtain ⟨e, he, rfl, hes, hkernel⟩ := ha.edge_of_tuple hhead hterm ht
  obtain ⟨hle, hfits⟩ := h.fits ha hi
  have hdrop := h.drop hle
  obtain ⟨under, hunder⟩ := exists_drop_eq_cons hf
  rw [hunder] at hdrop ⊢
  refine hdrop.push (.production he hes hterm hhead hkernel ?_ hfits)
  rw [List.length_reverse, List.length_take, Nat.min_eq_left hle]

/-- **A stack of trees grows on along turns**, and its trees stand for these turns and for
the tokens that they shift. -/
theorem follows (ha : a.Realises g) (hg : g.WellFormed start) {final : List Nat}
    {tokens : List Token} (h : a.Grown g stack trees) (hrun : a.Follows g stack turns final)
    (htokens : tokens.map (·.symbol) = Turn.word turns) :
    ∃ trees', a.Grown g final trees' ∧
      Tree.turnsOfAll trees'.reverse = Tree.turnsOfAll trees.reverse ++ turns ∧
      Tree.leavesOfAll trees'.reverse = Tree.leavesOfAll trees.reverse ++ tokens := by
  induction hrun generalizing trees tokens with
  | done =>
      obtain rfl : tokens = [] := List.map_eq_nil_iff.1 htokens
      exact ⟨trees, h, (List.append_nil _).symm, (List.append_nil _).symm⟩
  | @shift top stack final turns e he hterm _ ih =>
      rw [Turn.word_shift, List.map_eq_cons_iff] at htokens
      obtain ⟨token, rest, rfl, hsym, hrest⟩ := htokens
      obtain ⟨trees', hgrown, hturns, hleaves⟩ :=
        ih (h.push (.token he hsym.symm (hsym ▸ hterm))) hrest
      refine ⟨trees', hgrown, ?_, ?_⟩
      · rw [hturns, Tree.turnsOfAll_shift, hsym, List.append_assoc]
        rfl
      · exact hleaves.trans (Parser.leaves_shift rfl)
  | @reduce top p first target stack final turns hp hi hf htuple _ ih =>
      obtain ⟨trees', hgrown, hturns, hleaves⟩ := ih (h.reduce ha hg hi hf htuple) htokens
      refine ⟨trees', hgrown, ?_, ?_⟩
      · rw [hturns, Tree.turnsOfAll_reduce, List.append_assoc]
        rfl
      · rw [hleaves, Parser.leaves_reduce]

end Automaton.Grown

/-! ## No way back -/

namespace Parser.Compiled

variable {p : Parser}

/-- No two sentences have the same leaves. -/
theorem sentence_eq_of_leaves_eq (hp : p.Compiled start) {tree other : Tree Nat}
    (h : p.productions.Sentence tree) (h' : p.productions.Sentence other)
    (heq : tree.leaves = other.leaves) : tree = other := by
  obtain ⟨least, s, hsteps, hparse⟩ := hp.parse_leaves h
  obtain ⟨least', s', hsteps', hparse'⟩ := hp.parse_leaves h'
  have hboth := hparse (max least least') (Nat.le_max_left _ _)
  rw [heq, hparse' _ (Nat.le_max_right _ _)] at hboth
  obtain rfl : s' = s := congrArg Prod.fst (Except.ok.inj hboth)
  exact h.eq_of_trace_eq hp.wellFormed h' (hsteps.symm.trans hsteps')

/-- Turns that lead a stack of trees to its end complete a sentence. -/
theorem exists_sentence_of_follows (hp : p.Compiled start) {last : Nat} {rest : List Nat}
    {tokens : List Token} (h : p.automaton.Grown p.productions stack trees)
    (hrun : p.automaton.Follows p.productions stack turns (last :: rest))
    (hlast : (⟨0, p.productions.length 0⟩ : Item) ∈ p.automaton.items last)
    (htokens : tokens.map (·.symbol) = Turn.word turns) :
    ∃ tree token, p.productions.Sentence tree ∧
      tree.turns ++ [.shift .endOfInput] = Tree.turnsOfAll trees.reverse ++ turns ∧
      tree.leaves ++ [token] = Tree.leavesOfAll trees.reverse ++ tokens := by
  obtain ⟨trees', hgrown, hturns, hleaves⟩ := h.follows hp.realises hp.wellFormed hrun htokens
  obtain ⟨tree, token, rfl, htree, hsym⟩ := hgrown.sentence hp.realises hp.wellFormed hlast
  refine ⟨tree, token, htree, ?_, ?_⟩
  · rw [← hturns, Tree.turnsOfAll_shift, hsym]
    simp only [List.reverse_cons, List.reverse_nil, List.nil_append, Tree.turnsOfAll,
      List.append_nil]
  · rw [← hleaves]
    simp only [List.reverse_cons, List.reverse_nil, List.nil_append, List.singleton_append,
      Tree.leavesOfAll, Tree.leaves]

/-- **Turns that shift nothing never lead back.**  With them and without them the stack can
be brought to the same end, and the two sentences would have the same leaves. -/
theorem eq_nil_of_follows_self (hp : p.Compiled start) (hprod : p.productions.Productive)
    (h : p.automaton.Grown p.productions stack trees)
    (hrun : p.automaton.Follows p.productions stack turns stack) (hword : Turn.word turns = []) :
    turns = [] := by
  obtain ⟨more, last, rest, hmore, hlast⟩ := h.path.finishes hp.realises hp.wellFormed hprod
  have htokens : ((Turn.word more).map (Token.mk · 0)).map (·.symbol) = Turn.word more := by
    rw [List.map_map]
    exact List.map_id _
  obtain ⟨tree, token, htree, hturns, hleaves⟩ :=
    hp.exists_sentence_of_follows h hmore hlast htokens
  obtain ⟨other, token', hother, hturns', hleaves'⟩ :=
    hp.exists_sentence_of_follows h (hrun.trans hmore) hlast (by
      rw [htokens, Turn.word_append, hword, List.nil_append])
  obtain rfl : tree = other := hp.sentence_eq_of_leaves_eq htree hother
    (List.append_inj' (hleaves.trans hleaves'.symm) rfl).1
  have hsame := List.append_cancel_left (hturns.symm.trans hturns')
  exact List.self_eq_append_left.1 hsame

end Parser.Compiled
end BoundedLR
