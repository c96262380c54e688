import BoundedLR.Proofs.Soundness

/-!
# Completing a stack of trees

A stack that has grown from trees is on the way to a sentence if the slots that are
still empty can be filled.  `Productions.Productive` says that they can: every slot
fits some tree.  Then any item of the topmost state shows how to go on.  Its own
slots are filled first; that makes a node, which fills a slot of the item that has
opened the production, and so on up to the synthetic production
(`Automaton.Grown.exists_sentence`).

The argument follows how the item has come into its state: an opened item is
reduced to the item that has opened it, in the same state, and an item with its dot
further on to the initial item below the trees in front of the dot.  Lookahead plays
no part in it.
-/

namespace BoundedLR

variable {a : Automaton} {g : Productions} {start : Symbol} {p e d depth top : Nat}
  {stack : List Nat} {rest trees : List (Tree Nat)} {i j : Item}

/-! ## Filling slots -/

namespace Productions

/-- Every slot for a non-terminal accepts a production that derives some tokens. -/
def Productive (g : Productions) : Prop :=
  ∀ p e slot, g.slot? p e = some slot → slot.symbol.isTerminal = false → ∃ t, g.Fits p e t

theorem Productive.exists_fits (hprod : g.Productive) {slot : Slot}
    (hslot : g.slot? p e = some slot) : ∃ t, g.Fits p e t := by
  by_cases hterm : slot.symbol.isTerminal = true
  · exact ⟨.leaf ⟨slot.symbol, 0⟩, .token hslot rfl hterm⟩
  · exact hprod p e slot hslot (Bool.eq_false_iff.2 hterm)

/-- Trees that fill the slots of a body from a place on. -/
def FillFrom (g : Productions) (p d : Nat) (rest : List (Tree Nat)) : Prop :=
  d + rest.length = g.length p ∧ ∀ k (t : Tree Nat), rest[k]? = some t → g.Fits p (d + k) t

theorem FillFrom.cons {t : Tree Nat} (ht : g.Fits p d t) (h : g.FillFrom p (d + 1) rest) :
    g.FillFrom p d (t :: rest) := by
  refine ⟨?_, fun k u hu => ?_⟩
  · rw [List.length_cons, ← h.1]
    omega
  · cases k with
    | zero =>
        cases hu
        exact ht
    | succ k =>
        rw [show d + (k + 1) = d + 1 + k by omega]
        exact h.2 k u hu

/-- Trees in front of the place fill the slots before it. -/
theorem FillFrom.append {front : List (Tree Nat)} (hlen : front.length = d)
    (hfront : ∀ k (t : Tree Nat), front[k]? = some t → g.Fits p k t) (h : g.FillFrom p d rest) :
    g.FillFrom p 0 (front ++ rest) := by
  refine ⟨?_, fun k t ht => ?_⟩
  · rw [List.length_append, ← h.1]
    omega
  · rw [Nat.zero_add]
    by_cases hk : k < front.length
    · rw [List.getElem?_append_left hk] at ht
      exact hfront k t ht
    · rw [List.getElem?_append_right (by omega)] at ht
      have hfit := h.2 _ t ht
      rwa [show d + (k - front.length) = k by omega] at hfit

/-- **The slots behind any dot can be filled.** -/
theorem Productive.exists_fillFrom (hprod : g.Productive) (hd : d ≤ g.length p) :
    ∃ rest, g.FillFrom p d rest := by
  induction hn : g.length p - d generalizing d with
  | zero =>
      refine ⟨[], ?_, fun k t ht => ?_⟩
      · rw [List.length_nil]
        omega
      · cases ht
  | succ n ih =>
      have hlt : d < (g.slots p).length := by
        show d < g.length p
        omega
      obtain ⟨t, ht⟩ := hprod.exists_fits (p := p) (List.getElem?_eq_getElem hlt)
      obtain ⟨rest, hrest⟩ := ih (d := d + 1) hlt (by omega)
      exact ⟨t :: rest, hrest.cons ht⟩

/-- What fills the synthetic production is a sentence and the end of input. -/
theorem WellFormed.exists_of_fillFrom_zero (hg : g.WellFormed start) (h : g.FillFrom 0 0 rest) :
    ∃ tree token, rest = [tree, .leaf token] ∧ g.Sentence tree ∧ token.symbol = .endOfInput := by
  obtain ⟨hlen, hfits⟩ := h
  rw [hg.length_zero, Nat.zero_add] at hlen
  obtain ⟨tree, last, rfl⟩ := List.length_eq_two.1 hlen
  obtain ⟨token, rfl, hsym⟩ := hg.exists_token_of_fits_end (hfits 1 last rfl)
  exact ⟨tree, token, rfl, hfits 0 tree rfl, hsym⟩

/-! ## Finding out whether the slots can be filled -/

/-- Whether a slot can be filled with a tree of bounded height. -/
def fillable (g : Productions) : Nat → Nat → Nat → Bool
  | 0, _, _ => false
  | depth + 1, p, e =>
    match g.slot? p e with
    | none => false
    | some slot =>
      slot.symbol.isTerminal || (g.derives slot.symbol).any fun c =>
        slot.accepts c && (List.range (g.length c)).all fun i => g.fillable depth c i

theorem exists_fits_of_fillable (h : g.fillable depth p e = true) : ∃ t, g.Fits p e t := by
  induction depth generalizing p e with
  | zero => cases h
  | succ depth ih =>
      rw [fillable] at h
      split at h
      · cases h
      · rename_i slot hslot
        rw [Bool.or_eq_true, List.any_eq_true] at h
        rcases h with hterm | ⟨c, hc, h⟩
        · exact ⟨.leaf ⟨_, 0⟩, .token hslot rfl hterm⟩
        · rw [Bool.and_eq_true, List.all_eq_true] at h
          have hchild : ∀ i : Fin (g.length c), ∃ t, g.Fits c i t := fun i =>
            ih (h.2 i (List.mem_range.2 i.isLt))
          choose child hfits using hchild
          refine ⟨.node c (List.ofFn child), .production hslot (mem_derives.1 hc) h.1
            List.length_ofFn fun i t ht => ?_⟩
          obtain ⟨hi, rfl⟩ := List.getElem?_eq_some_iff.1 ht
          rw [List.length_ofFn] at hi
          rw [List.getElem_ofFn]
          exact hfits ⟨i, hi⟩

/-- Whether all slots can be filled with trees of bounded height. -/
def fillsAll (g : Productions) (depth : Nat) : Bool :=
  (List.range g.count).all fun p => (List.range (g.length p)).all fun e => g.fillable depth p e

theorem productive_of_fillsAll (h : g.fillsAll depth = true) : g.Productive := by
  intro p e slot hslot _
  have he : e < g.length p := (List.getElem?_eq_some_iff.1 hslot).1
  have hp : p < g.count := by
    by_contra hp
    rw [length, slots, Array.getElem?_eq_none (Nat.le_of_not_lt hp)] at he
    exact Nat.not_lt_zero e he
  simp only [fillsAll, List.all_eq_true, List.mem_range] at h
  exact exists_fits_of_fillable (h p hp e he)

end Productions

/-! ## Going on from an item -/

/-- A stack of trees can be completed from an item: whatever fills the slots behind
its dot, more tokens can be found that make up a whole input together with the
stack. -/
def Item.Completes (g : Productions) (trees : List (Tree Nat)) (i : Item) : Prop :=
  ∀ rest, g.FillFrom i.production i.dot rest → ∃ children more, g.FillFrom 0 0 children ∧
    Tree.leavesOfAll children = Tree.leavesOfAll trees.reverse ++ Tree.leavesOfAll rest ++ more

namespace Item.Completes

/-- The synthetic production is a whole input. -/
theorem synthetic : (Item.initial 0).Completes g [] := by
  intro rest hrest
  refine ⟨rest, [], hrest, ?_⟩
  rw [List.append_nil]
  rfl

/-- **An opened production** becomes a tree in the slot of the item that has opened
it, and the slots behind that one can be filled, too. -/
theorem opened (hprod : g.Productive) (h : i.Completes g trees) (hj : j ∈ g.openings i) :
    j.Completes g trees := by
  obtain ⟨s, c, hs, hc, had, rfl⟩ := Productions.mem_openings.1 hj
  obtain ⟨slot, hslot, rfl⟩ := Option.map_eq_some_iff.1 hs
  intro rest hrest
  have hnode : g.Fits i.production i.dot (.node c rest) := by
    rw [Productions.admits, Productions.accepts, hslot] at had
    refine .production hslot hc had ?_ fun k t ht => ?_
    · simpa [initial] using hrest.1
    · simpa [initial] using hrest.2 k t ht
  have hlt : i.dot < g.length i.production := (List.getElem?_eq_some_iff.1 hslot).1
  obtain ⟨behind, hbehind⟩ := hprod.exists_fillFrom (p := i.production) (d := i.dot + 1) hlt
  obtain ⟨children, more, hchildren, hleaves⟩ := h _ (hbehind.cons hnode)
  refine ⟨children, Tree.leavesOfAll behind ++ more, hchildren, ?_⟩
  rw [hleaves, Tree.leavesOfAll, Tree.leaves]
  simp only [List.append_assoc]

/-- **The trees in front of the dot** fill the slots before it, so the production can
be begun anew below them. -/
theorem advanced (hd : d ≤ trees.length)
    (hfits : ∀ k (t : Tree Nat), ((trees.take d).reverse)[k]? = some t → g.Fits p k t)
    (h : (Item.initial p).Completes g (trees.drop d)) : (Item.mk p d).Completes g trees := by
  intro rest hrest
  have hlen : (trees.take d).reverse.length = d := by
    rw [List.length_reverse, List.length_take, Nat.min_eq_left hd]
  obtain ⟨children, more, hchildren, hleaves⟩ := h _ (hrest.append hlen hfits)
  refine ⟨children, more, hchildren, ?_⟩
  rw [hleaves, Tree.leavesOfAll_append, ← List.append_assoc, ← Tree.leavesOfAll_append,
    ← List.reverse_append, List.take_append_drop]

end Item.Completes

namespace Automaton

/-- Every state on a path is there because of some item. -/
theorem Path.exists_item (ha : a.Realises g) (h : a.Path (top :: stack)) :
    ∃ i, i ∈ a.items top := by
  obtain ⟨i, hi⟩ : ∃ i, i ∈ a.kernel top := by
    cases h with
    | start => exact ⟨.initial 0, by rw [ha.kernel_zero]; exact List.mem_singleton_self _⟩
    | @push n stack e hp he =>
        obtain ⟨m, hm, -, -, -, hk⟩ := ha.exists_move he
        rw [hk]
        refine List.exists_mem_of_ne_nil _ (Productions.kernel_of_mem_moves ?_ hm).2
        rw [ha.items_eq (hp.lt_count ha)]
        exact Productions.isAscending_closure g _
  exact ⟨i, ha.kernel_subset (h.lt_count ha) hi⟩

namespace Grown

/-- **A stack of trees can be completed from every item** of its topmost state. -/
theorem completes (ha : a.Realises g) (hprod : g.Productive)
    (h : a.Grown g (top :: stack) trees) (hi : i ∈ a.items top) : i.Completes g trees := by
  induction hn : trees.length using Nat.strong_induction_on generalizing top stack trees i with
  | _ n ih =>
  subst hn
  have hreach : g.Reaches (a.kernel top) i := by
    rw [ha.items_eq (h.path.lt_count ha)] at hi
    exact Productions.mem_closure_iff.1 hi
  induction hreach with
  | @seed i hk =>
      obtain ⟨p, d⟩ := i
      by_cases hd : d = 0
      · subst hd
        obtain ⟨rfl, rfl⟩ := ha.eq_zero_of_initial_mem_kernel hk
        have hnil := h.path.eq_nil_of_zero ha
        have hlen := h.length_eq
        rw [hnil, List.length_singleton] at hlen
        obtain rfl : trees = [] := List.length_eq_zero_iff.1 (by omega)
        exact .synthetic
      · -- the trees in front of the dot are taken off the stack
        obtain ⟨hle, hfits⟩ := h.fits ha hi
        obtain ⟨first, hfirst, hopen, -⟩ := h.path.unwind ha hi
        have hdrop := h.drop hle
        obtain ⟨below, hbelow⟩ := exists_drop_eq_cons hfirst
        rw [hbelow] at hdrop
        refine .advanced hle hfits (ih _ ?_ hdrop hopen rfl)
        rw [List.length_drop]
        omega
  | @opened j i hj ho ihj =>
      refine .opened hprod (ihj ?_) ho
      rw [ha.items_eq (h.path.lt_count ha)]
      exact Productions.mem_closure_iff.2 hj

/-- **A stack of trees is the beginning of a sentence**, if no end of input has been
put on it. -/
theorem exists_sentence (ha : a.Realises g) (hg : g.WellFormed start) (hprod : g.Productive)
    (h : a.Grown g stack trees)
    (hend : ∀ token ∈ Tree.leavesOfAll trees.reverse, token.symbol ≠ .endOfInput) :
    ∃ tree rest, g.Sentence tree ∧ tree.leaves = Tree.leavesOfAll trees.reverse ++ rest := by
  obtain ⟨top, below, rfl⟩ := List.exists_cons_of_ne_nil h.path.ne_nil
  obtain ⟨i, hi⟩ := h.path.exists_item ha
  obtain ⟨behind, hbehind⟩ := hprod.exists_fillFrom (ha.holds hi).2
  obtain ⟨children, more, hchildren, hleaves⟩ := h.completes ha hprod hi behind hbehind
  obtain ⟨tree, token, rfl, htree, hsym⟩ := hg.exists_of_fillFrom_zero hchildren
  rw [List.append_assoc] at hleaves
  generalize Tree.leavesOfAll behind ++ more = tail at hleaves
  have hall : Tree.leavesOfAll [tree, .leaf token] = tree.leaves ++ [token] := by
    simp only [Tree.leavesOfAll, Tree.leaves, List.append_nil]
  rw [hall] at hleaves
  rcases List.eq_nil_or_concat tail with rfl | ⟨rest, last, rfl⟩
  · -- the end of input would be on the stack
    refine absurd hsym (hend token ?_)
    rw [List.append_nil] at hleaves
    rw [← hleaves]
    exact List.mem_append_right _ (List.mem_singleton_self _)
  · rw [List.concat_eq_append, ← List.append_assoc] at hleaves
    exact ⟨tree, rest, htree, (List.append_inj' hleaves rfl).1⟩

end Grown
end Automaton

end BoundedLR
