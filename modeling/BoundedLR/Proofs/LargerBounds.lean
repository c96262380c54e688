import BoundedLR.Proofs.Soundness

/-!
# What a larger bound cannot change

The bound on the lookahead is looked at in one place only: where a level of a trie
would have to be built below the last one that is allowed.  There the construction
gives up, and complains that the lookahead is exhausted.  So a larger bound lets it
go on where it has given up, and changes nothing before that point.

`Stands` compares a computation with the same computation under another bound.  A
result stands, and so does a complaint, apart from the bound that it quotes; only
the complaint that the lookahead is exhausted may give way to anything.  This is
kept by sequencing, so it passes from the search of a single choice to a level, from
there to a trie and to the list of all nodes.  Every complaint names the state that
is being compiled, and the states are compiled in order; therefore a complaint that
a larger bound brings up is never about an earlier state.
-/

namespace BoundedLR

/-- The same complaint, with another bound quoted in it. -/
def Conflict.withBound (c : Conflict) (bound : Nat) : Conflict := { c with bound := bound }

/-- The same complaint, with another bound quoted in it if it quotes one. -/
def GrammarError.withBound (bound : Nat) : GrammarError → GrammarError
  | .conflict c => .conflict (c.withBound bound)
  | e => e

/-- What comes of a computation about a state stands if the bound is changed to the
given one: the second computation comes to the same, unless the first one has run out
of lookahead. -/
inductive Stands {α : Type} (state bound : Nat) :
    Except Conflict α → Except Conflict α → Prop where
  | ok (a : α) : Stands state bound (.ok a) (.ok a)
  | complaint {c : Conflict} : c.state = state →
      Stands state bound (.error c) (.error (c.withBound bound))
  | exhausted {c : Conflict} {y : Except Conflict α} : c.state = state →
      c.kind = .lookaheadExhausted → Stands state bound (.error c) y

namespace Stands

variable {α β : Type} {state bound : Nat} {x y : Except Conflict α} {c : Conflict}

theorem bind {f g : α → Except Conflict β} (h : Stands state bound x y)
    (hfg : ∀ a, Stands state bound (f a) (g a)) : Stands state bound (x >>= f) (y >>= g) := by
  cases h with
  | ok a => exact hfg a
  | complaint hc => exact .complaint hc
  | exhausted hc hk => exact .exhausted hc hk

theorem mapM {f g : α → Except Conflict β} (hfg : ∀ a, Stands state bound (f a) (g a))
    (xs : List α) : Stands state bound (xs.mapM f) (xs.mapM g) := by
  induction xs with
  | nil => exact .ok []
  | cons x xs ih =>
      rw [List.mapM_cons, List.mapM_cons]
      exact (hfg x).bind fun b => ih.bind fun bs => .ok (b :: bs)

theorem eq_ok {a : α} (h : Stands state bound x y) (hx : x = .ok a) : y = .ok a := by
  cases h <;> simp_all

theorem eq_error (h : Stands state bound x y) (hx : x = .error c)
    (hk : c.kind ≠ .lookaheadExhausted) : y = .error (c.withBound bound) := by
  cases h <;> simp_all

/-- The complaint is about the state. -/
theorem state_eq (h : Stands state bound x y) (hx : x = .error c) : c.state = state := by
  cases h <;> simp_all

end Stands

namespace Contest

variable {k : Contest} {bound : Nat}

/-- The same contest under another bound. -/
def withBound (k : Contest) (bound : Nat) : Contest := { k with bound := bound }

/-! ## Following a choice -/

/-- How far a choice is followed has nothing to do with the bound. -/
theorem visit_withBound (choice : Choice) (depth : Nat) (trail : List PartialStack)
    (reduced : List Nat) (settled : Nat) (c : PartialStack) (survey : Survey) :
    (k.withBound bound).visit choice depth trail reduced settled c survey =
      k.visit choice depth trail reduced settled c survey := by
  induction depth generalizing trail reduced settled c survey with
  | zero => rfl
  | succ depth ih =>
      rw [visit, visit]
      simp only [ih]
      rfl

theorem follow_stands (lookahead : List Symbol) (choice : Choice) (via : List Nat)
    (c : PartialStack) : Stands k.state bound (k.follow lookahead choice via c)
      ((k.withBound bound).follow lookahead choice via c) := by
  have hdepth : (k.withBound bound).depthBound = k.depthBound := rfl
  rw [follow, follow, visit_withBound, hdepth]
  cases k.visit choice (k.depthBound c.states.length) [] via c.states.length c ⟨[], []⟩ with
  | ok survey => exact .ok survey.found
  | error reduced => exact .complaint rfl

/-! ## Tries -/

/-- A level stands if the levels below it do. -/
theorem level_stands {below below' : List Symbol → List Choice → List Continuation →
      Except Conflict (Trie Decision)}
    (hbelow : ∀ path choices group,
      Stands k.state bound (below path choices group) (below' path choices group))
    (path : List Symbol) (continuations : List Continuation) (symbols : List Symbol) :
    Stands k.state bound (k.level below path continuations symbols)
      ((k.withBound bound).level below' path continuations symbols) := by
  induction symbols with
  | nil => exact .ok _
  | cons s rest ih =>
      rw [level, level]
      dsimp only
      -- What is decided once a single choice is left does not depend on the bound.
      have hdecision : ∀ here choice,
          (k.withBound bound).decision? here choice = k.decision? here choice :=
        fun here choice => by cases choice <;> rfl
      simp only [hdecision]
      split
      · split
        · exact ih.bind fun below => .ok _
        · exact ih
      · split
        · exact .complaint rfl
        · exact (hbelow _ _ _).bind fun deeper => ih.bind fun below => .ok _

/-- **A trie stands if more levels are allowed.**  Below the last level that is allowed
the lookahead is exhausted. -/
theorem split_stands {levels more : Nat} (h : levels ≤ more) (path : List Symbol)
    (continuations : List Continuation) :
    Stands k.state bound (k.split levels path continuations)
      ((k.withBound bound).split more path continuations) := by
  induction levels generalizing more path continuations with
  | zero =>
      rw [split]
      cases more <;> exact level_stands (fun _ _ _ => .exhausted rfl rfl) _ _ _
  | succ levels ih =>
      obtain ⟨more, rfl⟩ : ∃ fewer, more = fewer + 1 := ⟨more - 1, by omega⟩
      rw [split, split]
      refine level_stands (fun here _ group => ?_) _ _ _
      exact (Stands.mapM (fun c => follow_stands _ _ _ _) group).bind fun next =>
        ih (by omega) _ _

theorem followReduction_stands (index p : Nat) : Stands k.state bound
    (k.followReduction index p) ((k.withBound bound).followReduction index p) := by
  rw [followReduction, followReduction]
  split
  · exact .ok []
  · exact (Stands.mapM (fun c => follow_stands _ _ _ c) _).bind fun found => .ok _

theorem settle_stands (h : k.bound ≤ bound) :
    Stands k.state bound k.settle (k.withBound bound).settle := by
  rw [settle, settle]
  split
  · exact .exhausted rfl rfl
  · rename_i levels hlevels
    obtain ⟨more, rfl⟩ : ∃ fewer, bound = fewer + 1 := ⟨bound - 1, by omega⟩
    refine (Stands.mapM (fun x => followReduction_stands _ _) _).bind fun reductions => ?_
    exact split_stands (by omega) _ _

/-! ## Nodes -/

theorem node_stands (h : k.bound ≤ bound) (s : State) :
    Stands k.state bound (k.node s) ((k.withBound bound).node s) := by
  have hreductions : (k.withBound bound).nodeReductions s = k.nodeReductions s := rfl
  rw [node, node, hreductions]
  split
  · exact .ok _
  · exact .ok _
  · exact (settle_stands h).bind fun trie => .ok _

end Contest

/-- **All nodes stand**, up to the first state whose lookahead is exhausted. -/
theorem compileNodes_of_le (g : Productions) (a : Automaton) {bound larger : Nat}
    (h : bound ≤ larger) :
    (∀ nodes, compileNodes g a bound = .ok nodes → compileNodes g a larger = .ok nodes) ∧
    (∀ c, compileNodes g a bound = .error c → c.kind ≠ .lookaheadExhausted →
      compileNodes g a larger = .error (c.withBound larger)) ∧
    ∀ c c', compileNodes g a bound = .error c → compileNodes g a larger = .error c' →
      c.state ≤ c'.state := by
  have hnode : ∀ (bound : Nat), bound ≤ larger → ∀ x : State × Nat, Stands x.2 larger
      (Contest.node ⟨g, a, a.announcing g, x.2, bound⟩ x.1)
      (Contest.node ⟨g, a, a.announcing g, x.2, larger⟩ x.1) :=
    fun bound hle x => Contest.node_stands (k := ⟨g, a, a.announcing g, x.2, bound⟩) hle x.1
  -- The number of a state tells how many states have been compiled before it.
  have hnumber : ∀ {before after : List (State × Nat)} {x : State × Nat},
      a.states.toList.zipIdx = before ++ x :: after → x.2 = before.length := by
    intro before after x hsplit
    have hx : a.states.toList.zipIdx[before.length]? = some x := by simp [hsplit]
    rw [List.getElem?_zipIdx, Option.map_eq_some_iff] at hx
    obtain ⟨s, -, rfl⟩ := hx
    exact Nat.zero_add _
  refine ⟨fun nodes hnodes => ?_, fun c hc hk => ?_, fun c c' hc hc' => ?_⟩
  · refine mapM_eq_ok.2 ((mapM_eq_ok.1 hnodes).imp fun x node hx => ?_)
    exact (hnode bound h x).eq_ok hx
  · obtain ⟨before, x, after, hsplit, hbefore, hx⟩ := mapM_eq_error.1 hc
    refine mapM_eq_error.2 ⟨before, x, after, hsplit, fun y hy => ?_, ?_⟩
    · obtain ⟨node, hy⟩ := hbefore y hy
      exact ⟨node, (hnode bound h y).eq_ok hy⟩
    · exact (hnode bound h x).eq_error hx hk
  · obtain ⟨before, x, after, hsplit, hbefore, hx⟩ := mapM_eq_error.1 hc
    obtain ⟨before', x', after', hsplit', -, hx'⟩ := mapM_eq_error.1 hc'
    rw [(hnode bound h x).state_eq hx, (hnode larger (Nat.le_refl _) x').state_eq hx',
      hnumber hsplit, hnumber hsplit']
    by_contra hlt
    -- Otherwise the later complaint would be about a state that has been compiled.
    have hmem : x' ∈ before := by
      have hget : (before ++ x :: after)[before'.length]? = some x' := by simp [← hsplit, hsplit']
      rw [List.getElem?_append_left (by omega)] at hget
      exact List.mem_of_getElem? hget
    obtain ⟨node, hnode'⟩ := hbefore x' hmem
    cases hx'.symm.trans ((hnode bound h x').eq_ok hnode')

/-! ## Compiling a grammar -/

namespace Grammar

variable {grammar : Grammar} {bound : Nat}

theorem compile_eq_ok {p : Parser} : grammar.compile bound = .ok p ↔ ∃ g nodes,
    grammar.normalize = .ok g ∧ compileNodes g g.automaton bound = .ok nodes ∧
      p = ⟨g, g.automaton, nodes.toArray, bound⟩ := by
  rw [compile, bind_eq_ok]
  constructor
  · rintro ⟨g, hg, h⟩
    dsimp only at h
    split at h
    · rename_i nodes hnodes
      exact ⟨g, nodes, hg, hnodes, (Except.ok.inj h).symm⟩
    · cases h
  · rintro ⟨g, nodes, hg, hnodes, rfl⟩
    refine ⟨g, hg, ?_⟩
    dsimp only
    rw [hnodes]
    rfl

theorem compile_eq_error {e : GrammarError} : grammar.compile bound = .error e ↔
    grammar.normalize = .error e ∨ ∃ g c, grammar.normalize = .ok g ∧
      compileNodes g g.automaton bound = .error c ∧ e = .conflict c := by
  rw [compile, bind_eq_error]
  refine or_congr_right ⟨?_, ?_⟩
  · rintro ⟨g, hg, h⟩
    dsimp only at h
    split at h
    · cases h
    · rename_i c hc
      exact ⟨g, c, hg, hc, (Except.error.inj h).symm⟩
  · rintro ⟨g, c, hg, hc, rfl⟩
    refine ⟨g, hg, ?_⟩
    dsimp only
    rw [hc]
    rfl

theorem ne_conflict_of_blameRule {α : Type} {rule : Nat} {x : Except RuleFault α}
    {e : GrammarError} (h : blameRule rule x = .error e) (c : Conflict) : e ≠ .conflict c := by
  cases x with
  | ok a => cases h
  | error fault =>
      cases h
      nofun

/-- Before there is an automaton there are no conflicts. -/
theorem ne_conflict_of_normalize {e : GrammarError} (h : grammar.normalize = .error e)
    (c : Conflict) : e ≠ .conflict c := by
  unfold normalize at h
  by_cases hstart : grammar.start.kind ≠ .nonTerminal
  · rw [if_pos hstart] at h
    cases h
    nofun
  rw [if_neg hstart] at h
  obtain h | ⟨rules, -, h⟩ := bind_eq_error.1 h
  · obtain ⟨-, x, -, -, -, hx⟩ := mapM_eq_error.1 h
    obtain hx | ⟨body, -, hx⟩ := bind_eq_error.1 hx
    · exact ne_conflict_of_blameRule hx c
    · cases hx
  cases hclash : priorityClash? grammar.priorities with
  | some clash =>
      rw [hclash] at h
      cases h
      nofun
  | none =>
      rw [hclash] at h
      obtain h | ⟨productions, -, h⟩ := bind_eq_error.1 h
      · obtain ⟨-, x, -, -, -, hx⟩ := mapM_eq_error.1 h
        exact ne_conflict_of_blameRule hx c
      · cases h

/-- **A larger bound changes no outcome that has been settled.**  A grammar that
compiles still does, and its nodes are the same.  A complaint stays the same, apart
from the bound that it quotes.  Only if the lookahead was exhausted in some state may
the outcome be another one, and then no conflict is in an earlier state. -/
theorem compile_of_bound_le (grammar : Grammar) {bound larger : Nat} (h : bound ≤ larger) :
    (∀ p, grammar.compile bound = .ok p →
      grammar.compile larger = .ok { p with bound := larger }) ∧
    (∀ e, grammar.compile bound = .error e →
      (∀ c, e = .conflict c → c.kind ≠ .lookaheadExhausted) →
      grammar.compile larger = .error (e.withBound larger)) ∧
    ∀ c c', grammar.compile bound = .error (.conflict c) → c.kind = .lookaheadExhausted →
      grammar.compile larger = .error (.conflict c') → c.state ≤ c'.state := by
  refine ⟨fun p hp => ?_, fun e he hk => ?_, fun c c' hc _ hc' => ?_⟩
  · obtain ⟨g, nodes, hg, hnodes, rfl⟩ := compile_eq_ok.1 hp
    exact compile_eq_ok.2 ⟨g, nodes, hg, (compileNodes_of_le g _ h).1 nodes hnodes, rfl⟩
  · rcases compile_eq_error.1 he with hg | ⟨g, c, hg, hc, rfl⟩
    · have hsame : e.withBound larger = e := by
        cases e with
        | conflict c => exact absurd rfl (ne_conflict_of_normalize hg c)
        | _ => rfl
      rw [hsame]
      exact compile_eq_error.2 (.inl hg)
    · have hstands := (compileNodes_of_le g _ h).2.1 c hc (hk c rfl)
      exact compile_eq_error.2 (.inr ⟨g, _, hg, hstands, rfl⟩)
  · rcases compile_eq_error.1 hc with hg | ⟨g, d, hg, hd, he⟩
    · exact absurd rfl (ne_conflict_of_normalize hg c)
    rcases compile_eq_error.1 hc' with hg' | ⟨g', d', hg', hd', he'⟩
    · cases hg.symm.trans hg'
    cases hg.symm.trans hg'
    cases he
    cases he'
    exact (compileNodes_of_le g _ h).2.2 c c' hd hd'

/-- Two pairs of rules compete.  The first can be told apart by the symbol that
follows, the second cannot be told apart at all. -/
def twofold : Grammar where
  start := .nonTerminal 0
  rules :=
    [⟨.nonTerminal 0, [.symbol (.nonTerminal 1), .symbol (.terminal 0)], 0, false⟩,
      ⟨.nonTerminal 0, [.symbol (.nonTerminal 2), .symbol (.terminal 1)], 0, false⟩,
      ⟨.nonTerminal 0, [.symbol (.nonTerminal 3)], 0, false⟩,
      ⟨.nonTerminal 0, [.symbol (.nonTerminal 4)], 0, false⟩,
      ⟨.nonTerminal 1, [.symbol (.terminal 2)], 0, false⟩,
      ⟨.nonTerminal 2, [.symbol (.terminal 2)], 0, false⟩,
      ⟨.nonTerminal 3, [.symbol (.terminal 3)], 0, false⟩,
      ⟨.nonTerminal 4, [.symbol (.terminal 3)], 0, false⟩]
  priorities := []

/-- The forked grammar compiles with one symbol of lookahead and with more.  The
twofold grammar runs out of lookahead if there is none, and with one symbol or more
the complaint is about a later state. -/
theorem compile_of_bound_le_twofold :
    (∃ p, forked.compile 1 = .ok p ∧ forked.compile 5 = .ok { p with bound := 5 }) ∧
    ∃ c c', twofold.compile 0 = .error (.conflict c) ∧ c.kind = .lookaheadExhausted ∧
      twofold.compile 1 = .error (.conflict c') ∧ c'.kind = .ambiguity ∧
      twofold.compile 5 = .error (.conflict (c'.withBound 5)) ∧ c.state ≤ c'.state := by
  obtain ⟨p, -, hp, -⟩ := exists_of_parses
    (show forked.parses 1 9 [⟨.terminal 2, 0⟩, ⟨.terminal 0, 1⟩] = true by decide +kernel)
  have hnone : twofold.compile 0 = .error (.conflict
      ⟨.lookaheadExhausted, 0, 1, [4, 5], [], [.reduce 4, .reduce 5], []⟩) := by decide +kernel
  have hone : twofold.compile 1 = .error (.conflict
      ⟨.ambiguity, 1, 2, [6, 7], [.endOfInput], [.reduce 6, .reduce 7], []⟩) := by
    decide +kernel
  refine ⟨⟨p, hp, (compile_of_bound_le forked (by decide)).1 p hp⟩, _, _, hnone, rfl, hone,
    rfl, ?_, ?_⟩
  · refine (compile_of_bound_le twofold (by decide)).2.1 _ hone fun c hc => ?_
    cases hc
    nofun
  · exact (compile_of_bound_le twofold (Nat.zero_le 1)).2.2 _ _ hnone rfl hone

end Grammar
end BoundedLR
