import BoundedLR.Proofs.ShiftDecisions
import BoundedLR.Proofs.Surveys

/-!
# Tries decide as the tree demands

Suppose that a stack can carry out some turns, the last of which shifts the end of
input.  These turns are the future of a parse that succeeds.  The trie of the
topmost state is read along the symbols that they shift, and comes to a decision:
the first of the turns (`Parser.Compiled.decides`).

The reason is that one of the continuations on each level *foretells* the turns.
It belongs to the choice that the first turn makes, it begins with the next symbol
to be shifted, and its stack covers the one that the turns lead to.  Following it
finds a continuation that foretells the rest.  So the right choice is never lost
from a level, and a level that leaves only one choice leaves the right one.
-/

namespace BoundedLR

/-- Reading a trie along a word comes to a decision, perhaps before the end of the
word. -/
inductive Trie.Decides {α : Type} : Trie α → List Symbol → α → Prop where
  | here {t : Trie α} {s : Symbol} {word : List Symbol} {action : α} :
      t.find? s = some (.settled action) → Decides t (s :: word) action
  | deeper {t below : Trie α} {s : Symbol} {word : List Symbol} {action : α} :
      t.find? s = some (.deeper below) → Decides below word action →
      Decides t (s :: word) action

theorem Automaton.Path.lt_count_of_mem {a : Automaton} {g : Productions} (ha : a.Realises g)
    {stack : List Nat} (h : a.Path stack) {n : Nat} (hn : n ∈ stack) : n < a.count := by
  induction h with
  | start =>
      rw [List.mem_singleton.1 hn]
      exact ha.count_pos
  | push hp he ih =>
      rcases List.mem_cons.1 hn with rfl | hn
      · exact ha.target_lt he
      · exact ih hn

namespace Contest

variable {k : Contest} {start : Symbol} {choice : Choice} {stack final : List Nat}
  {turns : List Turn} {word path : List Symbol} {trie : Trie Decision} {decision : Decision}

/-- A continuation foretells what a stack will shift: it begins with the next
symbol, and covers the stack after that. -/
inductive Foretells (k : Contest) (c : Continuation) : List Symbol → Prop where
  | intro {stack final : List Nat} {turns : List Turn} :
      (⟨0, c.stack.reverse⟩ : PartialStack).Covers stack → k.automaton.Path stack →
      k.automaton.Follows k.productions stack turns final →
      Foretells k c (c.symbol :: Turn.word turns)

/-- **A survey misses no continuation.** -/
theorem foretells_of_survey (ha : k.automaton.Realises k.productions)
    (hg : k.productions.WellFormed start) {survey : Survey}
    (hs : ∀ w ∈ survey.explored, survey.Expands k choice w) {c : PartialStack}
    (hc : c.Covers stack) (hmem : c.states ∈ survey.explored) (hp : k.automaton.Path stack)
    (hrun : k.automaton.Follows k.productions stack turns final) (hne : Turn.word turns ≠ []) :
    ∃ d ∈ survey.found, d.choice = choice ∧ k.Foretells d (Turn.word turns) := by
  induction hrun generalizing c with
  | done => exact absurd rfl hne
  | @shift top stack final turns e he hterm hrest ih =>
      refine ⟨⟨choice, e.symbol, (c.push e.target).states.reverse⟩, ?_, rfl, ?_⟩
      · refine (hs _ hmem).shifts c rfl ?_
        rw [shifts, hc.head?_eq]
        exact List.mem_map.2 ⟨e, Automaton.Realises.mem_terminalEdges.2 ⟨he, hterm⟩, rfl⟩
      · rw [Turn.word_shift]
        refine .intro ⟨?_, ?_⟩ (hp.push he) hrest
        · rw [List.reverse_reverse]
          exact List.cons_ne_nil _ _
        · rw [List.reverse_reverse]
          exact (List.prefix_cons_inj e.target).2 hc.known
  | @reduce top q first target stack final turns hq hi hf htuple hrest ih =>
      obtain ⟨next, hnext, hcovers⟩ := PartialStack.covers_reduce ha hc hp hi hf htuple
      refine ih hcovers ?_ (Automaton.Follows.path_reduce ha hg hp hf htuple) hne
      refine (hs _ hmem).reductions c next q rfl ?_ hnext
      rw [reducible, hc.head?_eq]
      have hr : (⟨q, k.automaton.reductionTuples k.productions top q⟩ : Reduction) ∈
          k.automaton.reductions top := ha.mem_reductions_iff.2 ⟨hi, rfl⟩
      exact List.mem_filter.2 ⟨List.mem_map.2 ⟨_, hr, rfl⟩, decide_eq_true hq⟩

/-- Following a stack finds a continuation that foretells what comes next. -/
theorem foretells_of_follow (ha : k.automaton.Realises k.productions)
    (hg : k.productions.WellFormed start) {lookahead : List Symbol} {via : List Nat}
    {c : PartialStack} {found : List Continuation}
    (h : k.follow lookahead choice via c = .ok found) (hc : c.Covers stack)
    (hp : k.automaton.Path stack)
    (hrun : k.automaton.Follows k.productions stack turns final) (hne : Turn.word turns ≠ []) :
    ∃ d ∈ found, d.choice = choice ∧ k.Foretells d (Turn.word turns) := by
  obtain ⟨survey, rfl, hmem, hexpands⟩ := follow_spec ha hc.ne_nil
    (fun n hn => hp.lt_count_of_mem ha (hc.known.subset hn)) h
  exact foretells_of_survey ha hg hexpands hc hmem hp hrun hne

/-- The symbol behind one that is not the end of input. -/
theorem word_ne_nil_of_getLast? {s : Symbol} (hend : (s :: word).getLast? = some .endOfInput)
    (hs : s ≠ .endOfInput) : word ≠ [] ∧ word.getLast? = some .endOfInput := by
  cases word with
  | nil => exact absurd (Option.some.inj hend) hs
  | cons r word =>
      refine ⟨List.cons_ne_nil _ _, ?_⟩
      rw [List.getLast?_cons_cons] at hend
      exact hend

/-- **The right choice is never lost.**  If one of the continuations foretells a
word that the end of input closes, the trie decides for the choice of this
continuation. -/
theorem decides_of_split (ha : k.automaton.Realises k.productions)
    (hg : k.productions.WellFormed start) {levels : Nat} {continuations : List Continuation}
    (h : k.split levels path continuations = .ok trie) {c : Continuation}
    (hc : c ∈ continuations) (hf : k.Foretells c word)
    (hend : word.getLast? = some .endOfInput)
    (hdecision : ∀ here, here.head? = (path ++ word).head? →
      k.decision? here c.choice = some decision) : trie.Decides word decision := by
  induction levels using Nat.strongRecOn generalizing path continuations trie c word with
  | ind levels ih =>
      obtain @⟨stack, final, turns, hcovers, hpath, hrun⟩ := hf
      have hsays := find?_split h c.symbol
      generalize hentry : trie.find? c.symbol = entry at hsays
      have hin : c.choice ∈ remaining continuations c.symbol := mem_remaining.2 ⟨c, hc, rfl, rfl⟩
      cases hsays with
      | absent hnone => exact absurd rfl (hnone c hc)
      | impossible hone hd =>
          rw [hone, List.mem_singleton] at hin
          rw [← hin, hdecision _ (by cases path <;> rfl)] at hd
          cases hd
      | settled hone hd =>
          rw [hone, List.mem_singleton] at hin
          rw [← hin, hdecision _ (by cases path <;> rfl)] at hd
          rw [← Option.some.inj hd] at hentry
          exact .here hentry
      | deeper hlevels hs _ _ hnext hsplit =>
          subst hlevels
          obtain ⟨hne, hend'⟩ := word_ne_nil_of_getLast? hend hs
          obtain ⟨found, hfound, hfollow⟩ :=
            forall₂_mem_left (mapM_eq_ok.1 hnext) (mem_group.2 ⟨hc, rfl⟩)
          obtain ⟨d, hd, hchoice, hforetells⟩ :=
            foretells_of_follow ha hg hfollow hcovers hpath hrun hne
          refine .deeper hentry (ih _ (Nat.lt_succ_self _) hsplit
            (List.mem_flatten.2 ⟨found, hfound, hd⟩) hforetells hend' fun here hhead => ?_)
          rw [hchoice]
          refine hdecision here (hhead.trans ?_)
          rw [List.append_assoc]
          rfl

end Contest

/-! ## Nodes -/

/-- A decision is carried out by a turn. -/
inductive Decision.Performs (p : Parser) (n : Nat) : Decision → Turn → Prop where
  | shift {s : Symbol} {target : Nat} : p.automaton.shift n s = some target →
      Performs p n (.shift target (p.announces target)) (.shift s)
  | reduce {index : Nat} {r : Reduction} : (p.automaton.reductions n)[index]? = some r →
      Performs p n (.reduce index) (.reduce r.production)

namespace Parser
namespace Compiled

variable {p : Parser} {start : Symbol} {top : Nat} {stack final : List Nat} {turn : Turn}
  {turns : List Turn} {trie : Trie Decision}

/-- The trie of a contest decides for the first turn of any run that ends with the
end of input. -/
theorem decides_of_settle (hp : p.Compiled start) (h : (p.contest top).settle = .ok trie)
    (hpath : p.automaton.Path (top :: stack))
    (hrun : p.automaton.Follows p.productions (top :: stack) (turn :: turns) final)
    (hend : (Turn.word (turn :: turns)).getLast? = some .endOfInput) :
    ∃ decision, decision.Performs p top turn ∧
      trie.Decides (Turn.word (turn :: turns)) decision := by
  obtain ⟨levels, found, -, hfound, hsplit⟩ := Contest.settle_eq_ok h
  have hsingle : (PartialStack.single top).Covers (top :: stack) :=
    ⟨List.cons_ne_nil _ _, ⟨stack, rfl⟩⟩
  cases hrun with
  | @shift _ _ _ _ e he hterm hrest =>
      refine ⟨_, .shift ((hp.realises.shift_eq_some_iff hterm).2 ⟨e, he, rfl, rfl⟩), ?_⟩
      refine Contest.decides_of_split hp.realises hp.wellFormed hsplit
        (c := ⟨.shift, e.symbol, [top, e.target]⟩) (List.mem_append_left _ ?_)
        (.intro ⟨List.cons_ne_nil _ _, ⟨stack, rfl⟩⟩ (hpath.push he) hrest) hend ?_
      · exact List.mem_map.2 ⟨e, Automaton.Realises.mem_terminalEdges.2 ⟨he, hterm⟩, rfl⟩
      · intro here hhead
        rw [List.nil_append, Turn.word_shift, List.head?_cons] at hhead
        rw [Contest.decision?, hhead]
        dsimp only
        rw [show (p.contest top).automaton.shift (p.contest top).state e.symbol = some e.target from
          (hp.realises.shift_eq_some_iff hterm).2 ⟨e, he, rfl, rfl⟩]
        rfl
  | @reduce _ q first target _ _ _ hq hi hf htuple hrest =>
      have hr : (⟨q, p.automaton.reductionTuples p.productions top q⟩ : Reduction) ∈
          p.automaton.reductions top := hp.realises.mem_reductions_iff.2 ⟨hi, rfl⟩
      obtain ⟨index, hindex⟩ := List.mem_iff_getElem?.1 hr
      refine ⟨.reduce index, .reduce hindex, ?_⟩
      have hzip : (p.automaton.reductions top).zipIdx[index]? =
          some (⟨q, p.automaton.reductionTuples p.productions top q⟩, index) := by
        rw [List.getElem?_zipIdx, hindex, Option.map_some, Nat.zero_add]
      obtain ⟨here, hhere, hfollowed⟩ := forall₂_getElem?_left hfound hzip
      rw [Contest.followReduction, if_neg hq] at hfollowed
      obtain ⟨lists, hlists, hflat⟩ := bind_eq_ok.1 hfollowed
      obtain ⟨next, hnext, hcovers⟩ :=
        PartialStack.covers_reduce hp.realises hsingle hpath hi hf htuple
      obtain ⟨list, hlist, hfollow⟩ := forall₂_mem_left (mapM_eq_ok.1 hlists) hnext
      have hne : Turn.word turns ≠ [] := by
        intro hnil
        rw [Turn.word_reduce, hnil] at hend
        cases hend
      obtain ⟨d, hd, hchoice, hforetells⟩ := Contest.foretells_of_follow hp.realises hp.wellFormed
        hfollow hcovers (Automaton.Follows.path_reduce hp.realises hp.wellFormed hpath hf htuple)
        hrest hne
      refine Contest.decides_of_split hp.realises hp.wellFormed hsplit (c := d)
        (List.mem_append_right _ ?_) hforetells hend ?_
      · rw [← Except.ok.inj hflat] at hhere
        exact List.mem_flatten.2 ⟨_, List.mem_of_getElem? hhere,
          List.mem_flatten.2 ⟨list, hlist, hd⟩⟩
      · intro here _
        rw [hchoice]
        rfl

/-- A node that reduces without looking at the input can do nothing else. -/
theorem performs_of_reduces (hp : p.Compiled start) {r : Reduction}
    (hone : p.automaton.reductions top = [r]) (hnoedge : p.automaton.terminalEdges top = [])
    (hrun : p.automaton.Follows p.productions (top :: stack) (turn :: turns) final) :
    (Decision.reduce 0).Performs p top turn := by
  cases hrun with
  | @shift _ _ _ _ e he hterm _ =>
      have hmem := Automaton.Realises.mem_terminalEdges.2 ⟨he, hterm⟩
      rw [hnoedge] at hmem
      exact absurd hmem List.not_mem_nil
  | @reduce _ q _ _ _ _ _ _ hi _ _ _ =>
      have hr : (⟨q, p.automaton.reductionTuples p.productions top q⟩ : Reduction) ∈
          p.automaton.reductions top := hp.realises.mem_reductions_iff.2 ⟨hi, rfl⟩
      have hzero : (p.automaton.reductions top)[0]? =
          some ⟨q, p.automaton.reductionTuples p.productions top q⟩ := by
        rw [hone, List.mem_singleton] at hr
        rw [hone, hr]
        rfl
      exact .reduce hzero

/-- A node that can only shift has an entry for the terminal of each of its edges. -/
theorem decides_of_shifts (hp : p.Compiled start) (hnone : p.automaton.reductions top = [])
    (hrun : p.automaton.Follows p.productions (top :: stack) (turn :: turns) final) :
    ∃ decision, decision.Performs p top turn ∧
      (shiftTrie (p.automaton.announcing p.productions)
        (p.automaton.terminalEdges top)).Decides (Turn.word (turn :: turns)) decision := by
  cases hrun with
  | @shift _ _ _ _ e he hterm _ =>
      have hshift : p.automaton.shift top e.symbol = some e.target :=
        (hp.realises.shift_eq_some_iff hterm).2 ⟨e, he, rfl, rfl⟩
      refine ⟨_, .shift hshift, ?_⟩
      rw [Turn.word_shift]
      refine .here ?_
      have hmem := Automaton.Realises.mem_terminalEdges.2 ⟨he, hterm⟩
      obtain ⟨e', hfind⟩ : ∃ e', (p.automaton.terminalEdges top).find?
          (·.symbol == e.symbol) = some e' :=
        Option.isSome_iff_exists.1 (List.find?_isSome.2 ⟨e, hmem, beq_self_eq_true _⟩)
      have hsym : e'.symbol = e.symbol := by simpa using List.find?_some hfind
      have he' := (Automaton.Realises.mem_terminalEdges.1 (List.mem_of_find?_eq_some hfind)).1
      have htarget := hp.realises.target_eq_of_terminal he he' hsym hterm
      rw [find?_shiftTrie, hfind, Option.map_some, htarget]
      rfl
  | @reduce _ q _ _ _ _ _ _ hi _ _ _ =>
      have hr : (⟨q, p.automaton.reductionTuples p.productions top q⟩ : Reduction) ∈
          p.automaton.reductions top := hp.realises.mem_reductions_iff.2 ⟨hi, rfl⟩
      rw [hnone] at hr
      exact absurd hr List.not_mem_nil

/-- **A node decides for the right turn**: with its trie, or without looking at the
input if it can do nothing else. -/
theorem decides (hp : p.Compiled start) (hpath : p.automaton.Path (top :: stack))
    (hrun : p.automaton.Follows p.productions (top :: stack) (turn :: turns) final)
    (hend : (Turn.word (turn :: turns)).getLast? = some .endOfInput) :
    ∃ node decision, p.node top = .ok node ∧ decision.Performs p top turn ∧
      ((∃ index, node.always = some index ∧ decision = .reduce index) ∨
        (node.always = none ∧ node.trie.Decides (Turn.word (turn :: turns)) decision)) := by
  obtain ⟨node, hnode, hfor, -⟩ := hp.exists_node (hpath.lt_count hp.realises)
  cases hfor with
  | reduces hone hnoedge halways _ =>
      exact ⟨node, _, hnode, hp.performs_of_reduces hone hnoedge hrun, .inl ⟨0, halways, rfl⟩⟩
  | shifts hnone halways htrie =>
      obtain ⟨decision, hperforms, hdecides⟩ := hp.decides_of_shifts hnone hrun
      rw [← htrie] at hdecides
      exact ⟨node, decision, hnode, hperforms, .inr ⟨halways, hdecides⟩⟩
  | settled _ halways hsettle =>
      obtain ⟨decision, hperforms, hdecides⟩ := hp.decides_of_settle hsettle hpath hrun hend
      exact ⟨node, decision, hnode, hperforms, .inr ⟨halways, hdecides⟩⟩

end Compiled
end Parser
end BoundedLR
