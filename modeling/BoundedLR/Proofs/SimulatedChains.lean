import Mathlib.Logic.Relation
import BoundedLR.Proofs.Surveys

/-!
# Chains of simulated reductions

Following a choice means to perform, on a partial stack, every reduction that can come
next without input, and every reduction after that.  This module says what the chains of
reductions are that could go on forever, without regard to how the search looks for them:
a chain either comes back to one of its stacks without lying deeper, or stacks one of the
states that it has pushed on top of itself (`Contest.Endless`).

Both kinds really are endless.  For the first this is plain.  For the second it is so
because a reduction looks no further down than it pops: as long as the lower of the two
states stays on the stack, what the chain has done on top of it can be done on top of
anything else.  So it can be done again, and the stack grows without bound
(`Chain.exists_longer`).

The search never complains without reason: whenever it gives up, there is such a chain
(`endless_of_visit`).
-/

namespace BoundedLR

open Relation

/-! ## What a reduction looks at -/

namespace PartialStack

variable {a : Automaton} {g : Productions} {c c' next : PartialStack} {p : Nat}

/-- A reduction never leads up: the lowest known state stays where it is, or lies deeper. -/
theorem base_le_of_mem_reduce (h : next ∈ c.reduce a g p) : next.base ≤ c.base := by
  rw [reduce] at h
  split at h
  · split at h
    · exact absurd h List.not_mem_nil
    · dsimp only at h
      split at h
      · obtain ⟨_, -, rfl⟩ := List.mem_map.1 h
        exact Int.le_refl _
      · obtain ⟨_, -, rfl⟩ := List.mem_map.1 h
        dsimp only
        omega
  · exact absurd h List.not_mem_nil

/-- Every outcome has a topmost state. -/
theorem exists_head?_of_mem_reduce (ha : a.Realises g) (h : next ∈ c.reduce a g p) :
    ∃ target, next.states.head? = some target := by
  obtain ⟨target, -, ⟨-, hstates⟩ | ⟨-, last, -, hstates⟩⟩ := mem_reduce_cases ha h
  · exact ⟨target, by rw [hstates]; rfl⟩
  · exact ⟨target, by rw [hstates]; rfl⟩

/-- A reduction inside the known part can be performed on every stack that agrees with
this one down to the state that is uncovered. -/
theorem exists_mem_reduce_of_take_eq (h : next ∈ c.reduce a g p)
    (hlen : g.length p < c.states.length)
    (htake : c'.states.take (g.length p + 1) = c.states.take (g.length p + 1)) :
    ∃ target, next.states = target :: c.states.drop (g.length p) ∧
      ⟨c'.base, target :: c'.states.drop (g.length p)⟩ ∈ c'.reduce a g p := by
  have hget : ∀ n ≤ g.length p, c'.states[n]? = c.states[n]? := by
    intro n hn
    rw [← List.getElem?_take_of_lt (Nat.lt_succ_of_le hn), htake,
      List.getElem?_take_of_lt (Nat.lt_succ_of_le hn)]
  have hhead : c'.states.head? = c.states.head? := by
    rw [List.head?_eq_getElem?, List.head?_eq_getElem?, hget 0 (Nat.zero_le _)]
  rw [reduce] at h
  split at h
  · rename_i top bottom htop hbottom
    split at h
    · exact absurd h List.not_mem_nil
    · rename_i r hr
      dsimp only at h
      rw [List.getElem?_eq_getElem hlen] at h
      obtain ⟨⟨last, target⟩, ht, rfl⟩ := List.mem_map.1 h
      have hne : c'.states ≠ [] := by
        intro hnil
        rw [hnil, htop] at hhead
        cases hhead
      refine ⟨target, rfl, ?_⟩
      rw [reduce, hhead, htop, List.getLast?_eq_some_getLast hne]
      dsimp only
      rw [hr]
      dsimp only
      rw [hget _ (Nat.le_refl _), List.getElem?_eq_getElem hlen]
      exact List.mem_map.2 ⟨(last, target), ht, rfl⟩
  · exact absurd h List.not_mem_nil

/-- **A reduction looks no further down than it pops.**  If a state stays on the stack,
whatever lies under it may be replaced. -/
theorem exists_mem_reduce_above {popped above below : List Nat} {state : Nat}
    (h : next ∈ c.reduce a g p) (hpopped : popped.length = g.length p)
    (hstates : c.states = popped ++ (above ++ state :: below)) (base : Int) (rest : List Nat) :
    ∃ target, next.states.head? = some target ∧ ⟨base, target :: (above ++ state :: rest)⟩ ∈
      reduce a g ⟨base, popped ++ (above ++ state :: rest)⟩ p := by
  have htake : ∀ under : List Nat, (popped ++ (above ++ state :: under)).take (g.length p + 1) =
      (popped ++ (above ++ [state])).take (g.length p + 1) := by
    intro under
    have hlen : g.length p + 1 ≤ (popped ++ (above ++ [state])).length := by
      simp only [List.length_append, List.length_singleton]
      omega
    rw [← @List.take_append_of_le_length _ _ under _ hlen]
    simp only [List.append_assoc, List.singleton_append]
  have hlen : g.length p < c.states.length := by
    rw [hstates]
    simp only [List.length_append, List.length_cons]
    omega
  have hsame : (⟨base, popped ++ (above ++ state :: rest)⟩ : PartialStack).states.take
      (g.length p + 1) = c.states.take (g.length p + 1) := by
    rw [hstates]
    exact (htake rest).trans (htake below).symm
  obtain ⟨target, hnext, hmem⟩ := exists_mem_reduce_of_take_eq h hlen hsame
  dsimp only at hmem
  rw [List.drop_left' hpopped] at hmem
  exact ⟨target, by rw [hnext]; rfl, hmem⟩

end PartialStack

/-! ## Chains -/

namespace Contest

variable {k : Contest} {origin c next : PartialStack} {trail : List PartialStack}
  {pushed older : List Nat} {top p : Nat}

/-- One reduction on a partial stack, other than accepting the input. -/
def Reduces (k : Contest) (c next : PartialStack) : Prop :=
  ∃ p ∈ k.reducible c, next ∈ c.reduce k.automaton k.productions p

instance : Decidable (k.Reduces c next) :=
  inferInstanceAs (Decidable (∃ p ∈ k.reducible c, next ∈ c.reduce k.automaton k.productions p))

/-- A chain of reductions: the stacks before the last, the latest first, then the states
that the chain has pushed and not popped, the topmost first, and the last stack. -/
inductive Chain (k : Contest) (origin : PartialStack) :
    List PartialStack → List Nat → PartialStack → Prop where
  | start : Chain k origin [] [] origin
  | reduce {trail : List PartialStack} {pushed : List Nat} {c next : PartialStack}
      {p target : Nat} : Chain k origin trail pushed c → p ∈ k.reducible c →
      next ∈ c.reduce k.automaton k.productions p → next.states.head? = some target →
      Chain k origin (c :: trail) (target :: pushed.drop (k.productions.length p)) next

/-- A chain comes back to one of its stacks, at the same depth or higher up. -/
def Repeats (k : Contest) (origin : PartialStack) : Prop :=
  ∃ trail pushed c, Chain k origin trail pushed c ∧
    ∃ earlier ∈ trail, earlier.states = c.states ∧ earlier.base ≤ c.base

/-- A chain stacks a state that it has pushed on top of itself. -/
def Grows (k : Contest) (origin : PartialStack) : Prop :=
  ∃ trail top older c, Chain k origin trail (top :: older) c ∧ top ∈ older

/-- Some chain of reductions could go on forever. -/
def Endless (k : Contest) (origin : PartialStack) : Prop := k.Repeats origin ∨ k.Grows origin

theorem Reduces.base_le (h : k.Reduces c next) : next.base ≤ c.base := by
  obtain ⟨p, -, hn⟩ := h
  exact PartialStack.base_le_of_mem_reduce hn

theorem base_le_of_leads (h : ReflTransGen k.Reduces c next) : next.base ≤ c.base := by
  induction h with
  | refl => exact Int.le_refl _
  | tail _ hstep ih => exact Int.le_trans hstep.base_le ih

/-- What can be reduced is seen from the topmost state. -/
theorem reducible_of_head?_eq (h : c.states.head? = next.states.head?) :
    k.reducible c = k.reducible next := by
  rw [reducible, reducible, h]

namespace Chain

theorem leads (h : k.Chain origin trail pushed c) : ReflTransGen k.Reduces origin c := by
  induction h with
  | start => exact .refl
  | reduce _ hp hn _ ih => exact ih.tail ⟨_, hp, hn⟩

/-- Wherever reductions lead to from its end, the chain can go. -/
theorem exists_of_leads (ha : k.automaton.Realises k.productions)
    (h : k.Chain origin trail pushed c) (hleads : ReflTransGen k.Reduces c next) :
    ∃ trail' pushed', k.Chain origin trail' pushed' next ∧ trail ⊆ trail' := by
  induction hleads with
  | refl => exact ⟨trail, pushed, h, List.Subset.refl _⟩
  | tail _ hstep ih =>
      obtain ⟨trail', pushed', hchain, hsub⟩ := ih
      obtain ⟨p, hp, hn⟩ := hstep
      obtain ⟨target, hhead⟩ := PartialStack.exists_head?_of_mem_reduce ha hn
      exact ⟨_, _, hchain.reduce hp hn hhead, fun x hx => List.mem_cons_of_mem _ (hsub hx)⟩

/-- The chain leads on from each of its stacks. -/
theorem leads_of_mem (h : k.Chain origin trail pushed c) {earlier : PartialStack}
    (he : earlier ∈ trail) : ReflTransGen k.Reduces origin earlier ∧
      TransGen k.Reduces earlier c := by
  induction h with
  | start => exact absurd he List.not_mem_nil
  | @reduce trail pushed c next p target hchain hp hn _ ih =>
      have hstep : k.Reduces c next := ⟨p, hp, hn⟩
      rcases List.mem_cons.1 he with rfl | he
      · exact ⟨hchain.leads, .single hstep⟩
      · exact ⟨(ih he).1, (ih he).2.tail hstep⟩

/-- The states that the chain has pushed lie on top. -/
theorem pushed_prefix (ha : k.automaton.Realises k.productions)
    (h : k.Chain origin trail pushed c) : pushed <+: c.states := by
  induction h with
  | start => exact List.nil_prefix
  | @reduce trail pushed c next p target hchain hp hn hhead ih =>
      obtain ⟨t, -, ⟨-, hstates⟩ | ⟨hlen, last, -, hstates⟩⟩ := PartialStack.mem_reduce_cases ha hn
      · rw [hstates, List.head?_cons, Option.some.injEq] at hhead
        rw [hstates, hhead]
        exact (List.prefix_cons_inj target).2 (ih.drop _)
      · rw [hstates, List.head?_cons, Option.some.injEq] at hhead
        rw [List.drop_eq_nil_of_le (Nat.le_trans ih.length_le hlen), hstates, hhead]
        exact ⟨[last], rfl⟩

/-- **What a chain does on top of a state that it has pushed, it can do on top of that
state on every stack.** -/
theorem leads_above (ha : k.automaton.Realises k.productions)
    (h : k.Chain origin trail pushed c) {above older : List Nat} {state : Nat}
    (hpushed : pushed = above ++ state :: older) (base : Int) (rest : List Nat) :
    ReflTransGen k.Reduces ⟨base, state :: rest⟩ ⟨base, above ++ state :: rest⟩ := by
  induction h generalizing above with
  | start => exact absurd hpushed.symm (List.append_ne_nil_of_right_ne_nil _ (List.cons_ne_nil _ _))
  | @reduce trail pushed c next p target hchain hp hn hhead ih =>
      cases above with
      | nil =>
          rw [List.nil_append]
      | cons t above =>
          rw [List.cons_append, List.cons.injEq] at hpushed
          obtain ⟨rfl, hdrop⟩ := hpushed
          -- what stays has been on the stack before, under the states that are popped now
          have hsplit : pushed =
              (pushed.take (k.productions.length p) ++ above) ++ state :: older := by
            rw [List.append_assoc, ← hdrop, List.take_append_drop]
          have hpopped : (pushed.take (k.productions.length p)).length =
              k.productions.length p := by
            have hne : pushed.drop (k.productions.length p) ≠ [] := by
              rw [hdrop]
              exact List.append_ne_nil_of_right_ne_nil _ (List.cons_ne_nil _ _)
            rw [List.length_take,
              Nat.min_eq_left (Nat.le_of_lt (List.length_lt_of_drop_ne_nil hne))]
          obtain ⟨below, hbelow⟩ := hchain.pushed_prefix ha
          rw [hsplit, List.append_assoc, List.append_assoc, List.cons_append] at hbelow
          obtain ⟨target, htarget, hmem⟩ :=
            PartialStack.exists_mem_reduce_above hn hpopped hbelow.symm base rest
          rw [hhead, Option.some.injEq] at htarget
          subst htarget
          have hleads := ih hsplit
          rw [List.append_assoc] at hleads
          refine hleads.tail ⟨p, ?_, hmem⟩
          have htop : c.states.head? = (⟨base, pushed.take (k.productions.length p) ++
              (above ++ state :: rest)⟩ : PartialStack).states.head? := by
            dsimp only
            rw [← hbelow]
            simp only [List.head?_append, List.head?_cons]
          exact reducible_of_head?_eq htop ▸ hp

/-- **A state stacked on itself can be stacked again**, and so without end. -/
theorem exists_longer (ha : k.automaton.Realises k.productions)
    (h : k.Chain origin trail (top :: older) c) (hmem : top ∈ older) (n : Nat) :
    ∃ below, ReflTransGen k.Reduces origin ⟨c.base, top :: below⟩ ∧ n ≤ below.length := by
  obtain ⟨between, under, rfl⟩ := List.append_of_mem hmem
  induction n with
  | zero =>
      obtain ⟨below, hbelow⟩ := h.pushed_prefix ha
      refine ⟨between ++ top :: under ++ below, ?_, Nat.zero_le _⟩
      have hc : c = ⟨c.base, top :: (between ++ top :: under ++ below)⟩ := by
        rw [← List.cons_append, hbelow]
      exact hc ▸ h.leads
  | succ n ih =>
      obtain ⟨below, hleads, hlen⟩ := ih
      have hagain : ReflTransGen k.Reduces ⟨c.base, top :: below⟩
          ⟨c.base, top :: between ++ top :: below⟩ := h.leads_above ha rfl c.base below
      refine ⟨between ++ top :: below, hleads.trans hagain, ?_⟩
      rw [List.length_append, List.length_cons]
      omega

end Chain

/-- A chain that comes back without lying deeper comes back to the very same stack. -/
theorem repeats_iff (ha : k.automaton.Realises k.productions) : k.Repeats origin ↔
    ∃ x, ReflTransGen k.Reduces origin x ∧ TransGen k.Reduces x x := by
  constructor
  · rintro ⟨trail, pushed, c, hchain, earlier, hmem, hsame, hle⟩
    obtain ⟨hearlier, hback⟩ := hchain.leads_of_mem hmem
    have hbase : earlier.base = c.base :=
      Int.le_antisymm hle (base_le_of_leads hback.to_reflTransGen)
    have heq : earlier = c := by
      obtain ⟨base, states⟩ := c
      obtain ⟨base', states'⟩ := earlier
      dsimp only at hbase hsame
      rw [hbase, hsame]
    exact ⟨earlier, hearlier, heq ▸ hback⟩
  · rintro ⟨x, hx, hcycle⟩
    obtain ⟨y, hstep, hback⟩ := TransGen.head'_iff.1 hcycle
    obtain ⟨p, hp, hn⟩ := hstep
    obtain ⟨trail, pushed, hchain, -⟩ := Chain.start.exists_of_leads ha hx
    obtain ⟨target, hhead⟩ := PartialStack.exists_head?_of_mem_reduce ha hn
    obtain ⟨trail', pushed', hchain', hsub⟩ :=
      (hchain.reduce hp hn hhead).exists_of_leads ha hback
    exact ⟨trail', pushed', x, hchain', x, hsub List.mem_cons_self, rfl, Int.le_refl _⟩

/-! ## The search complains with reason -/

/-- The states that a chain has pushed are those above the settled ones. -/
theorem pushed_eq_take (ha : k.automaton.Realises k.productions) {settled target : Nat}
    (hpushed : pushed = c.states.take (c.states.length - settled))
    (hn : next ∈ c.reduce k.automaton k.productions p) (hhead : next.states.head? = some target) :
    target :: pushed.drop (k.productions.length p) = next.states.take
      (next.states.length - c.settledAfter settled (k.productions.length p)) := by
  obtain ⟨t, -, ⟨hlen, hstates⟩ | ⟨hlen, last, -, hstates⟩⟩ := PartialStack.mem_reduce_cases ha hn
  · rw [hstates, List.head?_cons, Option.some.injEq] at hhead
    subst hhead
    rw [PartialStack.settledAfter, if_pos hlen, hstates, List.length_cons, List.length_drop,
      hpushed, List.drop_take,
      show c.states.length - k.productions.length p + 1 -
          min settled (c.states.length - k.productions.length p) =
        c.states.length - settled - k.productions.length p + 1 by omega, List.take_succ_cons]
  · rw [hstates, List.head?_cons, Option.some.injEq] at hhead
    subst hhead
    rw [PartialStack.settledAfter, if_neg (Nat.not_lt_of_le hlen), hstates, hpushed,
      List.drop_eq_nil_of_le (by rw [List.length_take]; omega)]
    rfl

/-- What the search takes for a state stacked on itself is one that the chain has
pushed. -/
theorem exists_of_stacksItself {settled : Nat}
    (hpushed : pushed = c.states.take (c.states.length - settled))
    (h : c.stacksItself settled = true) : ∃ top older, pushed = top :: older ∧ top ∈ older := by
  rw [PartialStack.stacksItself] at h
  split at h
  · cases h
  · rename_i top below hstates
    have hmem := List.contains_iff_mem.1 h
    have hpos : settled < below.length := by
      by_contra hge
      rw [Nat.sub_eq_zero_of_le (Nat.le_of_not_lt hge)] at hmem
      exact List.not_mem_nil hmem
    rw [hstates, List.length_cons, Nat.succ_sub (Nat.le_of_lt hpos), List.take_succ_cons] at hpushed
    exact ⟨top, _, hpushed, hmem⟩

/-- **Whenever the search gives up, there is an endless chain.** -/
theorem endless_of_visit (ha : k.automaton.Realises k.productions) {choice : Choice}
    {depth settled : Nat} {reduced blamed : List Nat} {survey : Survey}
    (hchain : k.Chain origin trail pushed c)
    (hpushed : pushed = c.states.take (c.states.length - settled))
    (h : k.visit choice depth trail reduced settled c survey = .error blamed) :
    k.Endless origin := by
  induction depth generalizing trail reduced settled c survey pushed with
  | zero => cases h
  | succ depth ih =>
      rw [visit] at h
      split at h
      · rename_i hloop
        rcases Bool.or_eq_true_iff.1 hloop with hrepeats | hstacks
        · obtain ⟨earlier, hmem, hsame⟩ := List.any_eq_true.1 hrepeats
          rw [Bool.and_eq_true, beq_iff_eq, decide_eq_true_iff] at hsame
          exact .inl ⟨trail, pushed, c, hchain, earlier, hmem, hsame⟩
        · obtain ⟨top, older, rfl, hmem⟩ := exists_of_stacksItself hpushed hstacks
          exact .inr ⟨trail, top, older, c, hchain, hmem⟩
      · split at h
        · cases h
        · obtain ⟨p, hp, t, h⟩ := exists_of_foldlM_eq_error h
          obtain ⟨next, hn, u, h⟩ := exists_of_foldlM_eq_error h
          obtain ⟨target, hhead⟩ := PartialStack.exists_head?_of_mem_reduce ha hn
          exact ih (hchain.reduce hp hn hhead) (pushed_eq_take ha hpushed hn hhead) h

end Contest
end BoundedLR
