import Mathlib.Algebra.Order.BigOperators.Group.List
import Mathlib.Order.WellFounded
import BoundedLR.Proofs.FinishedStacks

/-!
# Reductions come to an end

A reduction need not make the stack lower, so nothing in the stack itself bounds the number
of reductions between two shifts.  What bounds it is that the grammar has compiled.

Suppose that reductions go on forever.  Either some state on the way is contested.  Then its
reductions have been followed when its trie was built, and the search has succeeded: it has
explored finitely many stacks, one of which covers each of the stacks on the way.  So these
do not become arbitrarily high, and one of them comes back.  But reductions shift nothing,
and turns that shift nothing never lead a stack back to itself.  Or no state on the way is
contested.  Then each of them can do nothing but this one reduction, and the turns that bring
the first stack to its end would have to be these reductions, without an end.

So the relation between a stack and what one reduction makes of it has no infinite chain
(`Parser.Compiled.acc_reduces`).
-/

namespace BoundedLR

variable {a : Automaton} {g : Productions} {start : Symbol} {q top : Nat}
  {stack next final : List Nat} {turns : List Turn} {trees : List (Tree Nat)}

namespace Automaton

/-- One reduction leads from a stack to the next. -/
def Reduces (a : Automaton) (g : Productions) (stack next : List Nat) : Prop :=
  ∃ q, a.Follows g stack [.reduce q] next

/-- A complete item is reduced. -/
theorem Realises.mem_reductions (ha : a.Realises g)
    (hi : (⟨q, g.length q⟩ : Item) ∈ a.items top) :
    ⟨q, a.reductionTuples g top q⟩ ∈ a.reductions top :=
  ha.mem_reductions_iff.2 ⟨hi, rfl⟩

/-- If there is only one reduction, it is the one of every complete item. -/
theorem Realises.eq_production (ha : a.Realises g) {r : Reduction} (hone : a.reductions top = [r])
    (hi : (⟨q, g.length q⟩ : Item) ∈ a.items top) : q = r.production := by
  have hmem := ha.mem_reductions hi
  rw [hone, List.mem_singleton] at hmem
  exact congrArg Reduction.production hmem

/-- What a reduction leads to is determined by its production. -/
theorem Follows.of_reduce (h : a.Follows g stack [.reduce q] next)
    (hrun : a.Follows g stack (.reduce q :: turns) final) : a.Follows g next turns final := by
  cases h with
  | reduce _ _ hf htuple hdone =>
      cases hdone
      cases hrun with
      | reduce _ _ hf' htuple' hrest =>
          obtain rfl := Option.some.inj (hf.symm.trans hf')
          rw [target_eq_of_mem_reductionTuples htuple htuple']
          exact hrest

theorem Grown.reduces (ha : a.Realises g) (hg : g.WellFormed start) (h : a.Grown g stack trees)
    (hr : a.Reduces g stack next) : ∃ trees', a.Grown g next trees' := by
  obtain ⟨q, hq⟩ := hr
  have htokens : ([] : List Token).map (·.symbol) = Turn.word [.reduce q] := rfl
  obtain ⟨trees', hgrown, -, -⟩ := h.follows ha hg hq htokens
  exact ⟨trees', hgrown⟩

/-! ## Endless reductions -/

/-- Each stack is a reduction of the one before. -/
def Endless (a : Automaton) (g : Productions) (f : Nat → List Nat) : Prop :=
  ∀ n, a.Reduces g (f n) (f (n + 1))

namespace Endless

variable {f : Nat → List Nat}

theorem shift (h : a.Endless g f) (k : Nat) : a.Endless g fun n => f (k + n) :=
  fun n => h (k + n)

/-- Every stack on the way has grown from trees. -/
theorem grown (ha : a.Realises g) (hg : g.WellFormed start) (h : a.Endless g f)
    (h0 : a.Grown g (f 0) trees) (n : Nat) : ∃ trees', a.Grown g (f n) trees' := by
  induction n with
  | zero => exact ⟨trees, h0⟩
  | succ n ih =>
      obtain ⟨trees', hn⟩ := ih
      exact hn.reduces ha hg (h n)

/-- Later stacks are reached by turns that shift nothing. -/
theorem follows (h : a.Endless g f) (i n : Nat) : ∃ turns, turns.length = n ∧
    a.Follows g (f i) turns (f (i + n)) ∧ Turn.word turns = [] := by
  induction n with
  | zero => exact ⟨[], rfl, .done, rfl⟩
  | succ n ih =>
      obtain ⟨turns, hlen, hrun, hword⟩ := ih
      obtain ⟨q, hq⟩ := h (i + n)
      refine ⟨turns ++ [.reduce q], ?_, hrun.trans hq, ?_⟩
      · rw [List.length_append, hlen]
        rfl
      · rw [Turn.word_append, hword]
        rfl

end Endless
end Automaton

/-! ## Chains that have been searched -/

/-- Stacks of limited height over finitely many states repeat. -/
theorem exists_eq_of_shelf {count : Nat} (height : Nat) (hpos : 0 < count) {f : Nat → List Nat}
    (h : ∀ n, Shelf count height (f n)) : ∃ i j, i < j ∧ f i = f j := by
  by_contra hno
  have hinj : Function.Injective f := by
    intro i j hij
    rcases Nat.lt_trichotomy i j with hlt | heq | hlt
    · exact absurd ⟨i, j, hlt, hij⟩ hno
    · exact heq
    · exact absurd ⟨j, i, hlt, hij.symm⟩ hno
  have hlength : ((List.range ((count + 1) ^ height + 1)).map f).length ≤ (count + 1) ^ height := by
    refine length_le_of_shelf hpos (List.nodup_range.map hinj) fun w hw => ?_
    obtain ⟨n, -, rfl⟩ := List.mem_map.1 hw
    exact h n
  rw [List.length_map, List.length_range] at hlength
  omega

namespace Contest

variable {k : Contest} {choice : Choice} {survey : Survey} {hidden : Nat}

/-- A stack that has been explored on the part that is known, below which there lies no more
than a given number of states. -/
def Survey.Reaches (survey : Survey) (hidden : Nat) (stack : List Nat) : Prop :=
  ∃ c : PartialStack, c.Covers stack ∧ c.states ∈ survey.explored ∧
    stack.length ≤ hidden + c.states.length

/-- A reduction that pops below the known part uncovers one more state, and so the part that
is not known becomes smaller. -/
theorem Survey.Reaches.reduces (ha : k.automaton.Realises k.productions)
    (hs : ∀ w ∈ survey.explored, survey.Expands k choice w) (hp : k.automaton.Path stack)
    (h : survey.Reaches hidden stack) (hr : k.automaton.Reduces k.productions stack next) :
    survey.Reaches hidden next := by
  obtain ⟨c, hc, hmem, hlen⟩ := h
  obtain ⟨q, hq⟩ := hr
  cases hq with
  | @reduce top _ first target stack _ _ hq hi hf htuple hdone =>
      cases hdone
      obtain ⟨d, hd, hcovers⟩ := PartialStack.covers_reduce ha hc hp hi hf htuple
      refine ⟨d, hcovers, ?_, ?_⟩
      · refine (hs _ hmem).reductions c d q rfl ?_ hd
        rw [reducible, hc.head?_eq]
        exact List.mem_filter.2
          ⟨List.mem_map.2 ⟨_, ha.mem_reductions hi, rfl⟩, decide_eq_true hq⟩
      · have hlt := (List.getElem?_eq_some_iff.1 hf).1
        obtain ⟨_, -, ⟨hin, hstates⟩ | ⟨hout, _, -, hstates⟩⟩ :=
          PartialStack.mem_reduce_cases ha hd
        · rw [hstates, List.length_cons, List.length_cons, List.length_drop, List.length_drop]
          omega
        · rw [hstates, List.length_cons, List.length_cons, List.length_drop]
          omega

/-- **What has been searched is not endless**, unless a stack comes back. -/
theorem exists_eq_of_reaches (ha : k.automaton.Realises k.productions)
    (hs : ∀ w ∈ survey.explored, survey.Expands k choice w) {f : Nat → List Nat}
    (hpath : ∀ n, k.automaton.Path (f n)) (h : k.automaton.Endless k.productions f)
    (h0 : survey.Reaches hidden (f 0)) : ∃ i j, i < j ∧ f i = f j := by
  have hreaches : ∀ n, survey.Reaches hidden (f n) := by
    intro n
    induction n with
    | zero => exact h0
    | succ n ih => exact ih.reduces ha hs (hpath n) (h n)
  refine exists_eq_of_shelf (hidden + (survey.explored.map List.length).sum) ha.count_pos
    fun n => ⟨fun m hm => (hpath n).lt_count_of_mem ha hm, ?_⟩
  obtain ⟨c, -, hmem, hlen⟩ := hreaches n
  have hle := List.le_sum_of_mem (List.mem_map_of_mem (f := List.length) hmem)
  exact Nat.le_trans hlen (Nat.add_le_add_left hle hidden)

/-- The search of a contested state has met what the first reduction leads to. -/
theorem exists_survey_of_settle (ha : k.automaton.Realises k.productions)
    (hg : k.productions.WellFormed start) {trie : Trie Decision} (h : k.settle = .ok trie)
    (hp : k.automaton.Path (k.state :: stack))
    (hr : k.automaton.Reduces k.productions (k.state :: stack) next) :
    ∃ choice, ∃ survey : Survey, (∀ w ∈ survey.explored, survey.Expands k choice w) ∧
      survey.Reaches next.length next := by
  obtain ⟨levels, found, -, hfound, -⟩ := settle_eq_ok h
  obtain ⟨q, hrun⟩ := hr
  cases hrun with
  | @reduce _ _ first target _ _ _ hq hi hf htuple hdone =>
      cases hdone
      obtain ⟨index, hindex⟩ := List.mem_iff_getElem?.1 (ha.mem_reductions hi)
      have hzip : (k.automaton.reductions k.state).zipIdx[index]? =
          some (⟨q, k.automaton.reductionTuples k.productions k.state q⟩, index) := by
        rw [List.getElem?_zipIdx, hindex, Option.map_some, Nat.zero_add]
      obtain ⟨_, -, hfollowed⟩ := forall₂_getElem?_left hfound hzip
      rw [followReduction, if_neg hq] at hfollowed
      obtain ⟨lists, hlists, -⟩ := bind_eq_ok.1 hfollowed
      have hsingle : (PartialStack.single k.state).Covers (k.state :: stack) :=
        ⟨List.cons_ne_nil _ _, ⟨stack, rfl⟩⟩
      obtain ⟨c, hc, hcovers⟩ := PartialStack.covers_reduce ha hsingle hp hi hf htuple
      obtain ⟨list, -, hfollow⟩ := forall₂_mem_left (mapM_eq_ok.1 hlists) hc
      have hpath := Automaton.Follows.path_reduce ha hg hp hf htuple
      obtain ⟨survey, -, hmem, hexpands⟩ := follow_spec ha hcovers.ne_nil
        (fun n hn => hpath.lt_count_of_mem ha (hcovers.known.subset hn)) hfollow
      exact ⟨.reduce index, survey, hexpands, c, hcovers, hmem, Nat.le_add_right _ _⟩

end Contest

/-! ## No chain is endless -/

namespace Parser.Compiled

variable {p : Parser} {f : Nat → List Nat}

/-- Endless reductions do not come to a contested state. -/
theorem not_endless_of_settle (hp : p.Compiled start) (hprod : p.productions.Productive)
    {trie : Trie Decision} (hsettle : (p.contest top).settle = .ok trie)
    (h : p.automaton.Endless p.productions f) (htop : f 0 = top :: stack)
    (hgrown : ∀ n, ∃ trees, p.automaton.Grown p.productions (f n) trees) : False := by
  have hpath : ∀ n, p.automaton.Path (f n) := fun n => (hgrown n).choose_spec.path
  have hfirst := hpath 0
  have hreduces := h 0
  rw [htop] at hfirst hreduces
  obtain ⟨choice, survey, hexpands, hreaches⟩ := Contest.exists_survey_of_settle
    (k := p.contest top) hp.realises hp.wellFormed hsettle hfirst hreduces
  obtain ⟨i, j, hlt, heq⟩ := Contest.exists_eq_of_reaches (k := p.contest top) hp.realises hexpands
    (fun n => hpath (1 + n)) (h.shift 1) hreaches
  obtain ⟨turns, hlen, hrun, hword⟩ := (h.shift 1).follows i (j - i)
  rw [Nat.add_sub_cancel' (Nat.le_of_lt hlt)] at hrun
  obtain ⟨trees, hi⟩ := hgrown (1 + i)
  rw [← heq] at hrun
  rw [hp.eq_nil_of_follows_self hprod hi hrun hword, List.length_nil] at hlen
  omega

/-- Endless reductions of states that can do nothing else would have to come to the state that
accepts. -/
theorem not_endless_of_forced (hp : p.Compiled start) (h : p.automaton.Endless p.productions f)
    (hforced : ∀ n top stack, f n = top :: stack → (∃ r, p.automaton.reductions top = [r]) ∧
      p.automaton.terminalEdges top = [])
    {n : Nat} (hfinishes : p.automaton.Finishes p.productions (f n)) : False := by
  obtain ⟨turns, last, rest, hrun, hlast⟩ := hfinishes
  induction turns generalizing n with
  | nil =>
      obtain ⟨q, hq⟩ := h n
      generalize hn : f n = stack at hrun hq
      cases hrun with
      | done =>
          obtain ⟨⟨r, hone⟩, -⟩ := hforced n last rest hn
          cases hq with
          | reduce hne hi _ _ _ =>
              exact hne ((hp.realises.eq_production hone hi).trans
                (hp.realises.eq_production hone hlast).symm)
  | cons turn turns ih =>
      obtain ⟨q, hq⟩ := h n
      generalize hn : f n = stack at hrun hq
      cases hrun with
      | @shift top stack _ _ e he hterm _ =>
          obtain ⟨-, hnone⟩ := hforced n top stack hn
          have hmem := Automaton.Realises.mem_terminalEdges.2 ⟨he, hterm⟩
          rw [hnone] at hmem
          exact List.not_mem_nil hmem
      | @reduce top q' _ _ stack _ _ hne hi hf htuple hrest =>
          obtain ⟨⟨r, hone⟩, -⟩ := hforced n top stack hn
          obtain rfl : q = q' := by
            cases hq with
            | reduce _ hi' _ _ _ =>
                exact (hp.realises.eq_production hone hi').trans
                  (hp.realises.eq_production hone hi).symm
          exact ih (hq.of_reduce (.reduce hne hi hf htuple hrest))

/-- **Reductions come to an end** on every stack of trees. -/
theorem acc_reduces (hp : p.Compiled start) (hprod : p.productions.Productive)
    (h : p.automaton.Grown p.productions stack trees) :
    Acc (fun next stack => p.automaton.Reduces p.productions stack next) stack := by
  by_contra hacc
  obtain ⟨f, rfl, hf⟩ := not_acc_iff_exists_descending_chain.1 hacc
  have hendless : p.automaton.Endless p.productions f := hf
  have hgrown := hendless.grown hp.realises hp.wellFormed h
  by_cases hcontested : ∃ n top stack trie, f n = top :: stack ∧ (p.contest top).settle = .ok trie
  · obtain ⟨n, top, stack, trie, htop, hsettle⟩ := hcontested
    exact hp.not_endless_of_settle hprod hsettle (hendless.shift n) htop fun m => hgrown (n + m)
  · refine hp.not_endless_of_forced hendless (fun n top stack htop => ?_)
      (h.path.finishes hp.realises hp.wellFormed hprod)
    obtain ⟨trees', hn⟩ := hgrown n
    obtain ⟨q, hq⟩ := hendless n
    rw [htop] at hn hq
    obtain ⟨node, -, hfor, -⟩ := hp.exists_node (hn.path.lt_count hp.realises)
    cases hfor with
    | reduces hone hnoedge _ _ => exact ⟨⟨_, hone⟩, hnoedge⟩
    | shifts hnone _ _ =>
        cases hq with
        | reduce _ hi _ _ _ =>
            have hmem := hp.realises.mem_reductions hi
            rw [hnone] at hmem
            exact absurd hmem List.not_mem_nil
    | settled _ _ hsettle => exact absurd ⟨n, top, stack, node.trie, htop, hsettle⟩ hcontested

end Parser.Compiled
end BoundedLR
