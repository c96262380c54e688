import BoundedLR.Proofs.EndlessReductions
import BoundedLR.Proofs.LargerBounds
import BoundedLR.Proofs.LeastClosures
import BoundedLR.Proofs.SearchMachine

/-!
# Compiling always comes to an end

That a definition returns is nothing to be proved.  What there is to prove is that compiling
a grammar would return if nothing but the grammar stopped it.  Two kinds of function do not
simply walk over their argument.

Loops that go on until nothing is left to be done have been run to their end: the closure and
the marks, as work lists in `LeastClosures` and `Worklists` and in rounds in `EndingLoops`,
the states in `EndingLoops`, and the search for continuations in `SearchMachine`.

The levels of a trie are built by a function that calls itself for every terminal that
several choices share.  It counts down how many levels may lie below the one that it fills.
`Contest.Splits` describes the same recursion without a count: it compares the length of the
path with the bound, and the number in it tells how deep its calls are nested.  So
`Contest.settles_settle` says that the recursion comes to what `settle` comes to, and is
nested no deeper than the bound.

`Grammar.compile_finishes` puts this together for every grammar and every bound.
-/

namespace BoundedLR

open Relation

/-! ## Steps that may fail -/

section Outcomes

variable {ε α β : Type}

/-- The outcome of a step and of what is done with its result; a complaint ends it. -/
def Thereupon (first : Except ε α) (rest : α → Except ε β → Prop) : Except ε β → Prop :=
  match first with
  | .ok a => rest a
  | .error e => fun outcome => outcome = .error e

theorem Thereupon.bind {rest : α → Except ε β → Prop} {f : α → Except ε β} {first : Except ε α}
    (h : ∀ a, first = .ok a → rest a (f a)) : Thereupon first rest (first >>= f) := by
  cases first with
  | ok a => exact h a rfl
  | error e => rfl

/-- The outcome of asking for all members of a list one after the other, up to the first
complaint; the relation says what the answers are. -/
def Answered (asks : α → Except ε β → Prop) (xs : List α) (outcome : Except ε (List β)) : Prop :=
  ∃ answer : α → Except ε β, (∀ x ∈ xs, asks x (answer x)) ∧ outcome = xs.mapM answer

end Outcomes

namespace Contest

variable {k : Contest} {c : PartialStack} {choice : Choice} {lookahead : List Symbol}
  {via : List Nat}

/-! ## Searches -/

/-- What is made of the outcome of a search. -/
def answer (k : Contest) (lookahead : List Symbol) (choice : Choice) :
    Except (List Nat) Survey → Except Conflict (List Continuation)
  | .ok survey => .ok survey.found
  | .error reduced => .error (k.complaint .endlessReduction lookahead [choice]
      (reduced.filterMap ruleOfProduction?))

theorem follow_eq_answer : k.follow lookahead choice via c = k.answer lookahead choice
    (k.visit choice (k.depthBound c.states.length) [] via c.states.length c ⟨[], []⟩) := by
  rw [follow]
  cases k.visit choice (k.depthBound c.states.length) [] via c.states.length c ⟨[], []⟩ <;> rfl

/-- What holds of the search for the continuations of a stack, at every step. -/
structure Bounded (k : Contest) (c : PartialStack) (s : Search) : Prop where
  /-- No stack has been expanded twice. -/
  nodup : s.survey.explored.Nodup
  /-- The states that a chain has pushed and not popped differ from one another.  Only where
  the search is going to complain of the chain the topmost may be among the others. -/
  distinct : ∀ v ∈ s.waiting, ∃ productions pushed,
    k.SpelledChain c productions v.trail pushed v.stack ∧ pushed.tail.Nodup ∧
      (v.endless = false → pushed.Nodup)
  /-- No stack is higher than the first by more than the number of states and one. -/
  height : ∀ v ∈ s.waiting, v.stack.states.length ≤ c.states.length + k.automaton.count + 1

theorem Search.Orderly.bounded {s : Search} (h : s.Orderly k c via) : k.Bounded c s := by
  refine ⟨h.nodup, fun v hv => ?_, fun v hv => (h.waiting v hv).met.length_le⟩
  obtain ⟨productions, -, hchain⟩ := (h.waiting v hv).chain
  have hmet := (h.waiting v hv).met
  exact ⟨productions, _, hchain, hmet.nodup_tail_pushed, fun hendless =>
    hmet.nodup_pushed (Bool.or_eq_false_iff.1 hendless).2⟩

/-- The search for the continuations of a stack stops with the given outcome, and is bounded
until then. -/
structure Follows (k : Contest) (lookahead : List Symbol) (choice : Choice) (via : List Nat)
    (c : PartialStack) (outcome : Except Conflict (List Continuation)) : Prop where
  ends : ∃ n result, EndsIn (k.searchStep choice) n (searchFrom via c) result ∧
    outcome = k.answer lookahead choice result
  bounded : ∀ s, ReflTransGen (k.Searches choice) (searchFrom via c) s → k.Bounded c s

theorem follows_follow (ha : k.automaton.Realises k.productions)
    (hc : c.Within k.automaton.count) :
    k.Follows lookahead choice via c (k.follow lookahead choice via c) := by
  obtain ⟨n, hends⟩ := @search_ends k c choice via ha hc
  exact ⟨⟨n, _, hends, follow_eq_answer⟩, fun s hs => (orderly_of_searches ha hc hs).bounded⟩

/-! ## Levels -/

/-- A terminal that several choices share, and that does not stop the construction at once. -/
structure Shared (continuations : List Continuation) (s : Symbol) : Prop where
  mem : s ∈ terminals continuations
  contested : ∀ choice, remaining continuations s ≠ [choice]
  ne_endOfInput : s ≠ .endOfInput
  apart : collides (group continuations s) = false

/-- What is done about a shared terminal at the end of a path: if the path may not be longer
the lookahead is exhausted; otherwise the stacks of the group are followed, and the level
below is built from what they find. -/
def Deepens (k : Contest)
    (splits : List Symbol → List Continuation → Except Conflict (Trie Decision) → Prop)
    (path : List Symbol) (choices : List Choice) (group : List Continuation)
    (outcome : Except Conflict (Trie Decision)) : Prop :=
  (k.bound ≤ path.length ∧ outcome = .error (k.complaint .lookaheadExhausted path choices [])) ∨
  (path.length < k.bound ∧ ∃ found,
    Answered (fun d => k.Follows path d.choice [] ⟨0, d.stack.reverse⟩) group found ∧
    Thereupon found (fun next => splits path next.flatten) outcome)

/-- The trie for the continuations behind a path comes to an outcome, with calls nested no
deeper than the given number. -/
def Splits (k : Contest) :
    Nat → List Symbol → List Continuation → Except Conflict (Trie Decision) → Prop
  | 0, _, _, _ => False
  | depth + 1, path, continuations, outcome =>
    ∃ below, outcome = k.level below path continuations (terminals continuations) ∧
      ∀ s, Shared continuations s → k.Deepens (Splits k depth) (path ++ [s])
        (remaining continuations s) (group continuations s)
        (below (path ++ [s]) (remaining continuations s) (group continuations s))

/-- **A trie is built with calls nested as deep as there may be levels.** -/
theorem splits_split (ha : k.automaton.Realises k.productions) {levels : Nat}
    {path : List Symbol} {continuations : List Continuation}
    (hlength : path.length + levels + 1 = k.bound)
    (hwithin : ∀ d ∈ continuations, d.behind.Within k.automaton.count) :
    k.Splits (levels + 1) path continuations (k.split levels path continuations) := by
  induction levels generalizing path continuations with
  | zero =>
      refine ⟨_, rfl, fun s _ => .inl ⟨?_, rfl⟩⟩
      rw [List.length_append, List.length_singleton]
      omega
  | succ levels ih =>
      refine ⟨_, rfl, fun s _ => .inr ⟨?_, _, ⟨_, fun d hd => ?_, rfl⟩, .bind fun next hnext => ?_⟩⟩
      · rw [List.length_append, List.length_singleton]
        omega
      · exact follows_follow ha (hwithin d (mem_group.1 hd).1)
      · refine ih ?_ fun d hd => ?_
        · rw [List.length_append, List.length_singleton]
          omega
        · obtain ⟨found, hfound, hd⟩ := List.mem_flatten.1 hd
          obtain ⟨origin, horigin, hfollow⟩ := forall₂_mem_right (mapM_eq_ok.1 hnext) hfound
          exact (yields_of_follow ha (hwithin origin (mem_group.1 horigin).1) hfollow hd).within

/-! ## States -/

/-- The continuations of a reduction of the state are found. -/
def FollowsReduction (k : Contest) (index p : Nat)
    (outcome : Except Conflict (List Continuation)) : Prop :=
  if p = 0 then outcome = .ok [] else
    ∃ found, Answered (k.Follows [] (.reduce index) [p])
      ((PartialStack.single k.state).reduce k.automaton k.productions p) found ∧
      Thereupon found (fun found outcome => outcome = .ok found.flatten) outcome

/-- The choices of the state are told apart, or complained of. -/
def Settles (k : Contest) (outcome : Except Conflict (Trie Decision)) : Prop :=
  (k.bound = 0 ∧ outcome = .error (k.complaint .lookaheadExhausted [] k.choices [])) ∨
  (0 < k.bound ∧ ∃ found,
    Answered (fun x => k.FollowsReduction x.2 x.1.production)
      (k.automaton.reductions k.state).zipIdx found ∧
    Thereupon found (fun found =>
      k.Splits k.bound [] (k.shifts .shift (.single k.state) ++ found.flatten)) outcome)

theorem followsReduction_followReduction (ha : k.automaton.Realises k.productions)
    (hk : k.state < k.automaton.count) (index p : Nat) :
    k.FollowsReduction index p (k.followReduction index p) := by
  rw [FollowsReduction, followReduction]
  split
  · rfl
  · refine ⟨_, ⟨_, fun next hn => ?_, rfl⟩, .bind fun found _ => rfl⟩
    exact follows_follow ha ((PartialStack.Within.single hk).reduce ha hn)

/-- **Settling a state comes to an end**, with calls nested no deeper than the bound. -/
theorem settles_settle (ha : k.automaton.Realises k.productions)
    (hk : k.state < k.automaton.count) : k.Settles k.settle := by
  rw [settle]
  split
  · rename_i hzero
    exact .inl ⟨hzero, rfl⟩
  · rename_i levels hlevels
    refine .inr ⟨by omega, _, ⟨_, fun x _ => ?_, rfl⟩, .bind fun found hfound => ?_⟩
    · exact followsReduction_followReduction ha hk _ _
    · rw [hlevels]
      refine splits_split ha ?_ (exact_of_settle ha hk (mapM_eq_ok.1 hfound)).within
      rw [hlevels, List.length_nil, Nat.zero_add]

/-- A state that reduces something, and not one production alone without any shift, has
several choices. -/
theorem two_le_length_choices (hne : k.automaton.reductions k.state ≠ [])
    (hone : ∀ r, k.automaton.reductions k.state = [r] → k.automaton.terminalEdges k.state ≠ []) :
    2 ≤ k.choices.length := by
  rw [choices, List.length_append, List.length_map, List.length_range]
  rcases hlist : k.automaton.reductions k.state with _ | ⟨r, _ | ⟨r', rest⟩⟩
  · exact absurd hlist hne
  · rw [List.isEmpty_eq_false_iff.2 (hone r hlist)]
    exact Nat.le_refl 2
  · rw [List.length_cons, List.length_cons]
    omega

/-- What is wrong with the node for a state is that its choices cannot be told apart. -/
theorem settle_of_node_eq_error {s : State} {conflict : Conflict}
    (hs : k.automaton.states[k.state]? = some s) (h : k.node s = .error conflict) :
    2 ≤ k.choices.length ∧ k.settle = .error conflict := by
  have hreductions : k.automaton.reductions k.state = s.reductions := by
    rw [Automaton.reductions, hs]
  have hedges : k.automaton.terminalEdges k.state = s.terminalEdges := by
    rw [Automaton.terminalEdges, hs]
  rw [node] at h
  split at h
  · cases h
  · cases h
  · rename_i hnone hone
    refine ⟨two_le_length_choices (fun hnil => ?_) fun r hr hnil => ?_, ?_⟩
    · exact hnone (List.map_eq_nil_iff.2 (hreductions.symm.trans hnil))
    · refine hone _ (congrArg (List.map _) (hreductions.symm.trans hr)) ?_
      exact List.any_eq_false.2 (List.filter_eq_nil_iff.1 (hedges.symm.trans hnil))
    · rcases bind_eq_error.1 h with h | ⟨trie, -, h⟩
      · exact h
      · cases h

end Contest

/-! ## Grammars -/

/-- There is a node for every state, unless the choices of one of them cannot be told apart. -/
theorem compileNodes_cases (g : Productions) (bound : Nat) :
    (∃ nodes, compileNodes g g.automaton bound = .ok nodes ∧ nodes.length = g.automaton.count) ∨
    ∃ state < g.automaton.count, ∃ conflict, 2 ≤ (g.contest state bound).choices.length ∧
      (g.contest state bound).settle = .error conflict ∧
      compileNodes g g.automaton bound = .error conflict := by
  cases hnodes : compileNodes g g.automaton bound with
  | ok nodes =>
      have hlength := (mapM_eq_ok.1 hnodes).length_eq
      rw [List.length_zipIdx, Array.length_toList] at hlength
      exact .inl ⟨nodes, rfl, hlength.symm⟩
  | error conflict =>
      obtain ⟨before, ⟨s, state⟩, after, hsplit, -, hnode⟩ := mapM_eq_error.1 hnodes
      have hmem : (s, state) ∈ g.automaton.states.toList.zipIdx :=
        hsplit ▸ List.mem_append_right before List.mem_cons_self
      have hs : g.automaton.states[state]? = some s := by
        rw [← Array.getElem?_toList]
        exact List.mem_zipIdx_iff_getElem?.1 hmem
      obtain ⟨hchoices, hsettle⟩ :=
        Contest.settle_of_node_eq_error (k := g.contest state bound) hs hnode
      exact .inr ⟨state, (Array.getElem?_eq_some_iff.1 hs).1, conflict, hchoices, hsettle, rfl⟩

/-- All that is done to compile a grammar in normal form comes to an end. -/
structure Productions.Finishes (g : Productions) (bound : Nat) : Prop where
  /-- A closure is worked out by taking up each of its items once. -/
  closures : ∀ seeds, EndsIn g.takeUp (g.closure seeds).length (.ofSeeds seeds) (g.closure seeds)
  /-- In rounds, it grows for as many as there are productions at the most. -/
  closure_rounds : ∀ seeds, ∃ n ≤ g.count, EndsIn g.grow n (ascending seeds) (g.closure seeds)
  /-- Each step of the work on the states makes one, and there are no more of them than sets
  of items. -/
  states : g.automaton.count ≤ 2 ^ g.itemCount ∧
    EndsIn g.workThrough g.automaton.count (#[startCore], #[]) g.skeleton.states
  /-- The marks are worked out by taking up each marked state once. -/
  marks : (g.automaton.marked g).length ≤ g.automaton.count ∧
    EndsIn (Expansion.takeUp g.automaton.sources) (g.automaton.marked g).length
      (.ofSeeds (g.automaton.predicted g)) (g.automaton.marked g)
  /-- In rounds, they spread for as many as there are states at the most. -/
  mark_rounds : ∃ n ≤ g.automaton.count,
    EndsIn (Automaton.spread ((Array.range g.automaton.count).map g.automaton.successors)) n
      ((Array.range g.automaton.count).map (g.automaton.reducesPredicted g))
      (g.automaton.announcing g)
  /-- Every state is settled, by searches that stop and are bounded until then, and by calls
  that are nested no deeper than the bound. -/
  settles : ∀ state < g.automaton.count,
    (g.contest state bound).Settles (g.contest state bound).settle

theorem Productions.finishes {g : Productions} {start : Symbol} (hg : g.WellFormed start)
    (bound : Nat) : g.Finishes bound where
  closures := g.takeUp_ends
  closure_rounds := g.closure_ends
  states := Productions.skeleton_ends hg
  marks := g.automaton.marked_ends g
  mark_rounds := g.automaton.announcing_ends g
  settles state hstate := by
    have ha := Productions.automaton_realises hg
    exact Contest.settles_settle (k := g.contest state bound) ha hstate

/-- **Compiling a grammar always comes to an end**: with what is wrong with a rule, with a
node for every state, or with the complaint about a state that cannot be settled. -/
theorem Grammar.compile_finishes (grammar : Grammar) (bound : Nat) :
    (∃ e, grammar.normalize = .error e ∧ grammar.compile bound = .error e) ∨
    ∃ g, grammar.normalize = .ok g ∧ g.Finishes bound ∧
      ((∃ nodes, nodes.size = g.automaton.count ∧
        grammar.compile bound = .ok ⟨g, g.automaton, nodes, bound⟩) ∨
      ∃ state < g.automaton.count, ∃ conflict,
        (g.contest state bound).settle = .error conflict ∧
        grammar.compile bound = .error (.conflict conflict)) := by
  cases hg : grammar.normalize with
  | error e => exact .inl ⟨e, rfl, compile_eq_error.2 (.inl hg)⟩
  | ok g =>
      refine .inr ⟨g, rfl, Productions.finishes (wellFormed_of_normalize hg) bound, ?_⟩
      rcases compileNodes_cases g bound with
        ⟨nodes, hnodes, hlength⟩ | ⟨state, hstate, conflict, -, hsettle, hnodes⟩
      · refine .inl ⟨nodes.toArray, ?_, compile_eq_ok.2 ⟨g, nodes, hg, hnodes, rfl⟩⟩
        rw [List.size_toArray, hlength]
      · refine .inr ⟨state, hstate, conflict, hsettle, ?_⟩
        exact compile_eq_error.2 (.inr ⟨g, conflict, hg, hnodes, rfl⟩)

end BoundedLR
