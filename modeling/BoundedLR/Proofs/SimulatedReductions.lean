import BoundedLR.Proofs.StackRuns
import BoundedLR.Proofs.PartialStacks

/-!
# One simulated reduction stands for every real one

A parser has a whole stack, and a reduction makes one stack of it: the elements of the
production are popped, and the tuple for the state that this uncovers says which state is
entered.  Whoever simulates the parser has the top part of its stack only, and a reduction
may make several such parts of it.  This module says that the simulation never misses what
the parser does.

`Automaton.Arises` are the stacks that a parser can come to have, by shifting terminals and
by reductions, in any order that the automaton permits.  On such a stack every reduction of
the topmost state but the accepting one has exactly one result.  However much of the stack is
known, one of the simulated outcomes is the top part of this result, and where the known part
has been extended downwards its base is lowered by as many states
(`Grammar.reductions_simulated`).
-/

namespace BoundedLR

/-- What a reduction makes of a whole stack, the topmost state first. -/
def Reduction.Makes (r : Reduction) (g : Productions) (stack after : List Nat) : Prop :=
  ∃ uncovered target, stack[g.length r.production]? = some uncovered ∧
    (uncovered, target) ∈ r.tuples ∧ after = target :: stack.drop (g.length r.production)

namespace Automaton

/-- The stacks that a parser can come to have, the topmost state first. -/
inductive Arises (a : Automaton) (g : Productions) : List Nat → Prop where
  | start : Arises a g [0]
  | shift {top : Nat} {stack : List Nat} {e : Edge} :
      Arises a g (top :: stack) → e ∈ a.edges top → e.symbol.isTerminal = true →
      Arises a g (e.target :: top :: stack)
  | reduce {top : Nat} {stack after : List Nat} {r : Reduction} :
      Arises a g (top :: stack) → r ∈ a.reductions top → r.Makes g (top :: stack) after →
      Arises a g after

variable {a : Automaton} {g : Productions} {start : Symbol} {top : Nat}
  {stack after : List Nat} {r : Reduction}

/-- A reduction leads from a path to a path. -/
theorem Path.makes (ha : a.Realises g) (hg : g.WellFormed start) (hp : a.Path (top :: stack))
    (hr : r ∈ a.reductions top) (hm : r.Makes g (top :: stack) after) : a.Path after := by
  obtain ⟨uncovered, target, hget, htuple, rfl⟩ := hm
  rw [(ha.mem_reductions_iff.1 hr).2] at htuple
  exact Follows.path_reduce ha hg hp hget htuple

/-- **Every stack that arises is a path.** -/
theorem Arises.path (ha : a.Realises g) (hg : g.WellFormed start) (h : a.Arises g stack) :
    a.Path stack := by
  induction h with
  | start => exact .start
  | shift _ he _ ih => exact ih.push he
  | reduce _ hr hm ih => exact ih.makes ha hg hr hm

/-- **A reduction has exactly one result on a path**, unless it accepts the input. -/
theorem Path.existsUnique_makes (ha : a.Realises g) (hg : g.WellFormed start)
    (hp : a.Path (top :: stack)) (hr : r ∈ a.reductions top) (hne : r.production ≠ 0) :
    ∃! after, r.Makes g (top :: stack) after := by
  obtain ⟨hitem, htuples⟩ := ha.mem_reductions_iff.1 hr
  obtain ⟨first, target, hfirst, htuple⟩ := hp.exists_tuple ha hg hne hitem
  refine ⟨_, ⟨first, target, hfirst, htuples ▸ htuple, rfl⟩, ?_⟩
  rintro _ ⟨first', target', hfirst', htuple', rfl⟩
  obtain rfl := Option.some.inj (hfirst.symm.trans hfirst')
  rw [htuples] at htuple'
  rw [target_eq_of_mem_reductionTuples htuple htuple']

/-- The result is covered by an outcome on every top part of the path. -/
theorem Path.exists_extends (ha : a.Realises g) (hp : a.Path (top :: stack))
    (hr : r ∈ a.reductions top) (hm : r.Makes g (top :: stack) after) {c : PartialStack}
    {hidden : List Nat} (hne : c.states ≠ []) (hc : c.states ++ hidden = top :: stack) :
    ∃ next ∈ c.reduce a g r.production, next.Extends c hidden after := by
  obtain ⟨hitem, htuples⟩ := ha.mem_reductions_iff.1 hr
  obtain ⟨uncovered, target, hget, htuple, rfl⟩ := hm
  rw [htuples] at htuple
  exact PartialStack.exists_extends_of_reduce ha hne hc hp hitem hget htuple

end Automaton

/-- **One simulated reduction stands for every real one.**  On a stack that arises, a reduction
other than accepting has exactly one result, and whatever top part of the stack is known, one of
the outcomes there is a top part of the result; its base is lowered by the number of states by
which the known part has been extended downwards. -/
theorem Grammar.reductions_simulated {grammar : Grammar} {g : Productions}
    (h : grammar.normalize = .ok g) {top : Nat} {stack : List Nat}
    (hs : g.automaton.Arises g (top :: stack)) {r : Reduction}
    (hr : r ∈ g.automaton.reductions top) (hne : r.production ≠ 0) :
    (∃! after, r.Makes g (top :: stack) after) ∧
      ∀ after, r.Makes g (top :: stack) after →
        ∀ (c : PartialStack) (hidden : List Nat), c.states ≠ [] →
          c.states ++ hidden = top :: stack →
            ∃ next ∈ c.reduce g.automaton g r.production, next.Extends c hidden after := by
  have hg := wellFormed_of_normalize h
  have ha := Productions.automaton_realises hg
  have hp := hs.path ha hg
  exact ⟨hp.existsUnique_makes ha hg hr hne,
    fun _ hm _ _ hknown hc => hp.exists_extends ha hr hm hknown hc⟩

/-- Any number of brackets around a terminal. -/
def Grammar.bracketed : Grammar where
  start := .nonTerminal 0
  rules :=
    [⟨.nonTerminal 0,
        [.symbol (.terminal 0), .symbol (.nonTerminal 0), .symbol (.terminal 1)], 0, false⟩,
      ⟨.nonTerminal 0, [.symbol (.terminal 2)], 0, false⟩]
  priorities := []

/-- Behind the closing bracket of an inner pair two outcomes are possible if only the topmost
state is known: the pair may have been the outermost.  The second stands for what happens. -/
theorem Grammar.reductions_simulated_bracketed : ∃ g, bracketed.normalize = .ok g ∧
    g.automaton.Arises g [6, 4, 1, 1, 0] ∧
    (PartialStack.single 6).reduce g.automaton g 1 = [⟨-3, [3, 0]⟩, ⟨-3, [4, 1]⟩] ∧
    ∃ next ∈ (PartialStack.single 6).reduce g.automaton g 1,
      next.Extends (.single 6) [4, 1, 1, 0] [4, 1, 0] := by
  obtain ⟨g, hg, hfacts⟩ := map_eq_ok.1 (show bracketed.normalize.map (fun g => decide (
      g.length 1 = 3 ∧ g.length 2 = 1 ∧
      ⟨.terminal 0, 1, .all⟩ ∈ g.automaton.edges 0 ∧
      ⟨.terminal 0, 1, .all⟩ ∈ g.automaton.edges 1 ∧
      ⟨.terminal 2, 2, .all⟩ ∈ g.automaton.edges 1 ∧
      ⟨.terminal 1, 6, .all⟩ ∈ g.automaton.edges 4 ∧
      ⟨2, [(0, 3), (1, 4)]⟩ ∈ g.automaton.reductions 2 ∧
      ⟨1, [(0, 3), (1, 4)]⟩ ∈ g.automaton.reductions 6 ∧
      (PartialStack.single 6).reduce g.automaton g 1 = [⟨-3, [3, 0]⟩, ⟨-3, [4, 1]⟩])) =
    .ok true by decide +kernel)
  obtain ⟨hlength, hatom, hopen, hinner, hterminal, hclose, hr', hr, houtcomes⟩ :=
    of_decide_eq_true hfacts
  have hwaiting : g.automaton.Arises g [2, 1, 1, 0] :=
    ((Automaton.Arises.start.shift hopen rfl).shift hinner rfl).shift hterminal rfl
  have hfilled : g.automaton.Arises g [4, 1, 1, 0] :=
    hwaiting.reduce hr' ⟨1, 4, by rw [hatom]; rfl, by decide, by rw [hatom]; rfl⟩
  have harises : g.automaton.Arises g [6, 4, 1, 1, 0] := hfilled.shift hclose rfl
  refine ⟨g, hg, harises, houtcomes, ?_⟩
  exact (reductions_simulated hg harises hr (by decide)).2 [4, 1, 0]
    ⟨1, 4, by rw [hlength]; rfl, by decide, by rw [hlength]; rfl⟩ (.single 6) [4, 1, 1, 0]
    (List.cons_ne_nil _ _) rfl

end BoundedLR
