import BoundedLR.Proofs.Arrivals
import BoundedLR.Proofs.ComplaintTerms
import BoundedLR.Proofs.ExactTries
import BoundedLR.Proofs.FinishedCompilation

/-!
# Complaints tell the truth

A complaint about a state is put together at three places, from what the search happens to
have in its hands when it gives up.  This module says what a complaint tells whoever reads
it, in terms of the simulation alone (`Contest.Truthful`).

If it is that the choices cannot be told apart, the lookahead is a word that several choices
allow, the listed ones and no other, and there is a reason why it does not go on: nothing
can come behind it, two of the choices have arrived at the same stack on it, or it is as long
as the bound permits.  If it is about an endless reduction, then a single choice is listed;
its reductions are those of a chain that begins where the choice arrives on the lookahead,
and ends in a stack that the chain has met before or with a state that it has stacked on
itself.

The proof goes through the construction once (`complains_of_settle`).  On the way down to a
level its continuations are exactly those of the choices that allow the way, and they hold
stacks at which these choices have arrived; that the search stops at the end of a chain is
read off the machine that runs it.
-/

namespace BoundedLR

open Relation

namespace Contest

variable {k : Contest} {origin c : PartialStack} {choice : Choice} {path lookahead : List Symbol}
  {s : Symbol} {continuations : List Continuation} {conflict : Conflict}
  {via productions : List Nat}

/-! ## What is complained of -/

/-- The choices that allow a word, of which there are several. -/
structure Undecided (k : Contest) (word : List Symbol) (choices : List Choice) : Prop where
  ascending : IsAscending choices
  mem_iff : ∀ choice, choice ∈ choices ↔ choice.Allows k.automaton k.productions k.state word
  several : 2 ≤ choices.length

/-- Two choices arrive at the same stack. -/
def Meet (k : Contest) (word : List Symbol) (one other : Choice) : Prop :=
  one ≠ other ∧ ∃ states, one.Arrives k.automaton k.productions k.state word states ∧
    other.Arrives k.automaton k.productions k.state word states

/-- The productions of a chain, the latest first, that comes back to one of its stacks, at the
same depth or higher up, or stacks a state that it has pushed on top of itself. -/
def EndlessChain (k : Contest) (origin : PartialStack) (productions : List Nat) : Prop :=
  ∃ trail pushed last, k.SpelledChain origin productions trail pushed last ∧
    ((∃ earlier ∈ trail, earlier.states = last.states ∧ earlier.base ≤ last.base) ∨
      ∃ top older, pushed = top :: older ∧ top ∈ older)

/-- The complaints that may come up about a state, and what each of them is about. -/
inductive Complains (k : Contest) : Conflict → Prop where
  /-- No symbol may be read. -/
  | blind : k.bound = 0 → Complains k (k.complaint .lookaheadExhausted [] k.choices [])
  /-- No further symbol may be read. -/
  | exhausted {path : List Symbol} {s : Symbol} {choices : List Choice} :
      k.Undecided (path ++ [s]) choices → (path ++ [s]).length = k.bound →
      Complains k (k.complaint .lookaheadExhausted (path ++ [s]) choices [])
  /-- Nothing can come behind the end of input. -/
  | ended {path : List Symbol} {choices : List Choice} :
      k.Undecided (path ++ [Symbol.endOfInput]) choices →
      (path ++ [Symbol.endOfInput]).length ≤ k.bound →
      Complains k (k.complaint .ambiguity (path ++ [.endOfInput]) choices [])
  /-- The same will come behind two of the choices. -/
  | merged {path : List Symbol} {s : Symbol} {choices : List Choice} {one other : Choice} :
      k.Undecided (path ++ [s]) choices → (path ++ [s]).length ≤ k.bound →
      k.Meet (path ++ [s]) one other →
      Complains k (k.complaint .ambiguity (path ++ [s]) choices [])
  /-- Reductions follow the one that is chosen without end. -/
  | endlessAtOnce {index : Nat} {r : Reduction} {origin : PartialStack} {productions : List Nat} :
      (k.automaton.reductions k.state)[index]? = some r → r.production ≠ 0 →
      origin ∈ (PartialStack.single k.state).reduce k.automaton k.productions r.production →
      k.EndlessChain origin productions →
      Complains k (k.complaint .endlessReduction [] [.reduce index]
        ((r.production :: productions.reverse).filterMap ruleOfProduction?))
  /-- Reductions follow a symbol that is shifted without end. -/
  | endlessBehind {path : List Symbol} {s : Symbol} {choice : Choice} {origin : PartialStack}
      {productions : List Nat} :
      choice.Arrives k.automaton k.productions k.state (path ++ [s]) origin.states →
      k.EndlessChain origin productions →
      Complains k (k.complaint .endlessReduction (path ++ [s]) [choice]
        (productions.reverse.filterMap ruleOfProduction?))

/-- A complaint names the state that it is about. -/
theorem Complains.state_eq (h : k.Complains conflict) : conflict.state = k.state := by
  cases h <;> rfl

/-! ## Endless chains -/

/-- The search is stopped by a visit at the end of an endless chain. -/
theorem exists_endless_of_search (ha : k.automaton.Realises k.productions)
    (hc : c.Within k.automaton.count) {n : Nat} {blamed : List Nat}
    (h : EndsIn (k.searchStep choice) n (searchFrom via c) (.error blamed)) :
    ∃ productions, k.EndlessChain c productions ∧ blamed = (productions ++ via).reverse := by
  obtain ⟨last, hleads, hstop⟩ := h.exists_last
  have horderly := orderly_of_searches ha hc hleads
  rw [searchStep] at hstop
  split at hstop
  · cases hstop
  · rename_i v rest hwaiting
    split at hstop
    · rename_i hendless
      cases hstop
      obtain ⟨productions, hreduced, hchain⟩ :=
        (horderly.waiting v (hwaiting ▸ List.mem_cons_self)).chain
      refine ⟨productions, ⟨_, _, _, hchain, ?_⟩, congrArg List.reverse hreduced⟩
      rcases Bool.or_eq_true_iff.1 hendless with hrepeats | hstacks
      · obtain ⟨earlier, hmem, hsame⟩ := List.any_eq_true.1 hrepeats
        rw [Bool.and_eq_true, beq_iff_eq, decide_eq_true_iff] at hsame
        exact .inl ⟨earlier, hmem, hsame⟩
      · exact .inr (exists_of_stacksItself rfl hstacks)
    · split at hstop <;> cases hstop

/-- **Following a stack fails with the reductions of an endless chain.** -/
theorem exists_endless_of_follow (ha : k.automaton.Realises k.productions)
    (hc : c.Within k.automaton.count)
    (h : k.follow lookahead choice via c = .error conflict) :
    ∃ productions, k.EndlessChain c productions ∧
      conflict = k.complaint .endlessReduction lookahead [choice]
        ((productions ++ via).reverse.filterMap ruleOfProduction?) := by
  obtain ⟨n, hends⟩ := @search_ends k c choice via ha hc
  rw [follow_eq_answer] at h
  cases hresult : k.visit choice (k.depthBound c.states.length) [] via c.states.length c
      ⟨[], []⟩ with
  | ok survey =>
      rw [hresult] at h
      cases h
  | error blamed =>
      rw [hresult] at h hends
      obtain ⟨productions, hendless, rfl⟩ := exists_endless_of_search ha hc hends
      exact ⟨productions, hendless, (Except.error.inj h).symm⟩

/-! ## Levels -/

/-- A level fails at a terminal that several choices share: nothing tells them apart there,
or the level below fails. -/
structure FailsAt (k : Contest) (below : List Symbol → List Choice → List Continuation →
      Except Conflict (Trie Decision))
    (path : List Symbol) (continuations : List Continuation) (conflict : Conflict) (s : Symbol) :
    Prop where
  contested : ∀ choice, remaining continuations s ≠ [choice]
  reason : ((s = .endOfInput ∨ collides (group continuations s) = true) ∧
      conflict = k.complaint .ambiguity (path ++ [s]) (remaining continuations s) []) ∨
    below (path ++ [s]) (remaining continuations s) (group continuations s) = .error conflict

theorem level_eq_error {below : List Symbol → List Choice → List Continuation →
      Except Conflict (Trie Decision)} {symbols : List Symbol}
    (h : k.level below path continuations symbols = .error conflict) :
    ∃ s ∈ symbols, k.FailsAt below path continuations conflict s := by
  induction symbols with
  | nil => cases h
  | cons r symbols ih =>
      have hlater : k.level below path continuations symbols = .error conflict →
          ∃ s ∈ r :: symbols, k.FailsAt below path continuations conflict s := by
        intro h
        obtain ⟨s, hs, hfails⟩ := ih h
        exact ⟨s, List.mem_cons_of_mem _ hs, hfails⟩
      rw [level_cons] at h
      split at h
      · split at h
        · rcases bind_eq_error.1 h with h | ⟨rest, -, h⟩
          · exact hlater h
          · cases h
        · exact hlater h
      · rename_i hcontested
        split at h
        · rename_i hstuck
          rw [Bool.or_eq_true, decide_eq_true_eq] at hstuck
          exact ⟨r, List.mem_cons_self, hcontested, .inl ⟨hstuck, (Except.error.inj h).symm⟩⟩
        · rcases bind_eq_error.1 h with h | ⟨deeper, -, h⟩
          · exact ⟨r, List.mem_cons_self, hcontested, .inr h⟩
          · rcases bind_eq_error.1 h with h | ⟨rest, -, h⟩
            · exact hlater h
            · cases h

/-- A terminal that leaves several choices. -/
theorem Exact.undecided (h : k.Exact path continuations) (hs : s ∈ terminals continuations)
    (hcontested : ∀ choice, remaining continuations s ≠ [choice]) :
    k.Undecided (path ++ [s]) (remaining continuations s) := by
  refine ⟨IsAscending.ascending _, fun choice => h.allows_iff_remaining.symm, ?_⟩
  obtain ⟨d, hd, hsymbol⟩ := mem_terminals.1 hs
  have hmem : d.choice ∈ remaining continuations s := mem_remaining.2 ⟨d, hd, hsymbol, rfl⟩
  rcases hlist : remaining continuations s with _ | ⟨one, _ | ⟨other, rest⟩⟩
  · rw [hlist] at hmem
    exact absurd hmem List.not_mem_nil
  · exact absurd hlist (hcontested one)
  · rw [List.length_cons, List.length_cons]
    omega

/-- Continuations of different choices with the same stack. -/
theorem Arriving.exists_meet (h : k.Arriving path continuations)
    (hcollides : collides (group continuations s) = true) :
    ∃ one other, k.Meet (path ++ [s]) one other := by
  obtain ⟨d, hd, hany⟩ := List.any_eq_true.1 hcollides
  obtain ⟨e, he, hmeet⟩ := List.any_eq_true.1 hany
  rw [Bool.and_eq_true, decide_eq_true_eq, beq_iff_eq] at hmeet
  obtain ⟨hdmem, hdsymbol⟩ := mem_group.1 hd
  obtain ⟨hemem, hesymbol⟩ := mem_group.1 he
  have hstates : e.behind.states = d.behind.states := congrArg List.reverse hmeet.2.symm
  have hdarrives := h d hdmem
  have hearrives := h e hemem
  rw [hdsymbol] at hdarrives
  rw [hesymbol, hstates] at hearrives
  exact ⟨d.choice, e.choice, hmeet.1, _, hdarrives, hearrives⟩

/-- What is complained of where nothing tells the choices apart. -/
theorem complains_of_stuck (hexact : k.Exact path continuations)
    (harriving : k.Arriving path continuations) (hlength : path.length < k.bound)
    (hs : s ∈ terminals continuations)
    (hcontested : ∀ choice, remaining continuations s ≠ [choice])
    (hstuck : s = .endOfInput ∨ collides (group continuations s) = true) :
    k.Complains (k.complaint .ambiguity (path ++ [s]) (remaining continuations s) []) := by
  have hundecided := hexact.undecided hs hcontested
  have hbound : (path ++ [s]).length ≤ k.bound := by
    rw [List.length_append, List.length_singleton]
    exact hlength
  rcases hstuck with rfl | hcollides
  · exact .ended hundecided hbound
  · obtain ⟨one, other, hmeet⟩ := harriving.exists_meet hcollides
    exact .merged hundecided hbound hmeet

/-- **A complaint about a level tells the truth.** -/
theorem complains_of_split (ha : k.automaton.Realises k.productions) {levels : Nat}
    (hlength : path.length + levels + 1 = k.bound) (hexact : k.Exact path continuations)
    (harriving : k.Arriving path continuations)
    (h : k.split levels path continuations = .error conflict) : k.Complains conflict := by
  induction levels generalizing path continuations with
  | zero =>
      obtain ⟨s, hs, hcontested, ⟨hstuck, rfl⟩ | hbelow⟩ := level_eq_error h
      · exact complains_of_stuck hexact harriving (by omega) hs hcontested hstuck
      · obtain rfl := Except.error.inj hbelow
        refine .exhausted (hexact.undecided hs hcontested) ?_
        rw [List.length_append, List.length_singleton]
        exact hlength
  | succ levels ih =>
      obtain ⟨s, hs, hcontested, ⟨hstuck, rfl⟩ | hbelow⟩ := level_eq_error h
      · exact complains_of_stuck hexact harriving (by omega) hs hcontested hstuck
      · rcases bind_eq_error.1 hbelow with hfollow | ⟨next, hnext, hsplit⟩
        · obtain ⟨before, d, after, hgroup, -, hfollow⟩ := mapM_eq_error.1 hfollow
          have hd : d ∈ group continuations s :=
            hgroup ▸ List.mem_append_right before List.mem_cons_self
          obtain ⟨hmem, rfl⟩ := mem_group.1 hd
          obtain ⟨productions, hendless, rfl⟩ :=
            exists_endless_of_follow ha (hexact.within d hmem) hfollow
          rw [List.append_nil]
          exact .endlessBehind (harriving d hmem) hendless
        · refine ih ?_ (hexact.below ha hnext) (harriving.below hnext) hsplit
          rw [List.length_append, List.length_singleton]
          omega

/-- A complaint about a reduction of the state, before anything has been read. -/
theorem complains_of_followReduction (ha : k.automaton.Realises k.productions)
    (hk : k.state < k.automaton.count) {index : Nat} {r : Reduction}
    (hr : (k.automaton.reductions k.state)[index]? = some r)
    (h : k.followReduction index r.production = .error conflict) : k.Complains conflict := by
  rw [followReduction] at h
  split at h
  · cases h
  · rename_i hne
    rcases bind_eq_error.1 h with h | ⟨found, -, h⟩
    · obtain ⟨before, next, after, hlist, -, hfollow⟩ := mapM_eq_error.1 h
      have hnext : next ∈ (PartialStack.single k.state).reduce k.automaton k.productions
          r.production := hlist ▸ List.mem_append_right before List.mem_cons_self
      obtain ⟨productions, hendless, rfl⟩ := exists_endless_of_follow ha
        ((PartialStack.Within.single hk).reduce ha hnext) hfollow
      rw [List.reverse_append, List.reverse_singleton, List.singleton_append]
      exact .endlessAtOnce hr hne hnext hendless
    · cases h

/-- **A complaint about a state tells the truth.** -/
theorem complains_of_settle (ha : k.automaton.Realises k.productions)
    (hk : k.state < k.automaton.count) (h : k.settle = .error conflict) :
    k.Complains conflict := by
  rw [settle] at h
  split at h
  · rename_i hzero
    obtain rfl := Except.error.inj h
    exact .blind hzero
  · rename_i levels hlevels
    rcases bind_eq_error.1 h with h | ⟨found, hfound, hsplit⟩
    · obtain ⟨before, ⟨r, index⟩, after, hzip, -, hfollow⟩ := mapM_eq_error.1 h
      have hr : (k.automaton.reductions k.state)[index]? = some r :=
        List.mem_zipIdx_iff_getElem?.1 (hzip ▸ List.mem_append_right before List.mem_cons_self)
      exact complains_of_followReduction ha hk hr hfollow
    · refine complains_of_split ha ?_ (exact_of_settle ha hk (mapM_eq_ok.1 hfound))
        (arriving_of_settle (mapM_eq_ok.1 hfound)) hsplit
      rw [hlevels, List.length_nil, Nat.zero_add]

/-! ## What a complaint says -/

/-- What a complaint about a state says is true. -/
structure Truthful (k : Contest) (conflict : Conflict) : Prop where
  bound : conflict.bound = k.bound
  /-- The rules are those with an item in the kernel of the state, in ascending order. -/
  rules : conflict.rules.Pairwise (· < ·) ∧ ∀ rule, rule ∈ conflict.rules ↔
    ∃ i ∈ k.automaton.kernel k.state, i.production = productionOfRule rule
  /-- Competitors are choices by their names. -/
  names : k.Names
  /-- A lookahead with which the choices cannot be told apart: the competitors are the choices
  that allow it, there are several, it is not longer than the bound, and nothing can come
  behind it, or two of the choices have come to the same, or it is as long as the bound. -/
  undecided : conflict.kind ≠ .endlessReduction → conflict.lookahead ≠ [] →
    ∃ choices, conflict.competitors = choices.map k.competitor ∧
      k.Undecided conflict.lookahead choices ∧ conflict.lookahead.length ≤ k.bound ∧
      ((conflict.kind = .ambiguity ∧ (conflict.lookahead.getLast? = some .endOfInput ∨
          ∃ one ∈ choices, ∃ other ∈ choices, k.Meet conflict.lookahead one other)) ∨
        (conflict.kind = .lookaheadExhausted ∧ conflict.lookahead.length = k.bound))
  /-- Without any lookahead the bound is to blame, and all choices compete. -/
  blind : conflict.kind ≠ .endlessReduction → conflict.lookahead = [] →
    conflict.kind = .lookaheadExhausted ∧ k.bound = 0 ∧
      conflict.competitors = k.choices.map k.competitor
  /-- A choice with which reductions could follow one another forever, and the reductions of
  an endless chain: from where the choice arrives on the lookahead, or without a lookahead
  from where its own reduction leads, which is the first of them then. -/
  endless : conflict.kind = .endlessReduction →
    ∃ choice ∈ k.choices, conflict.competitors = [k.competitor choice] ∧
    ∃ origin productions, k.EndlessChain origin productions ∧
      ((conflict.lookahead ≠ [] ∧
          choice.Arrives k.automaton k.productions k.state conflict.lookahead origin.states ∧
          conflict.reductions.map productionOfRule = productions.reverse) ∨
        (conflict.lookahead = [] ∧ ∃ index r, choice = .reduce index ∧
          (k.automaton.reductions k.state)[index]? = some r ∧
          origin ∈ (PartialStack.single k.state).reduce k.automaton k.productions r.production ∧
          conflict.reductions.map productionOfRule = r.production :: productions.reverse))

theorem SpelledChain.ne_zero {trail : List PartialStack} {pushed : List Nat}
    (h : k.SpelledChain origin productions trail pushed c) : ∀ p ∈ productions, p ≠ 0 := by
  induction h with
  | start => exact fun p hp => absurd hp List.not_mem_nil
  | reduce _ hp _ _ ih => exact List.forall_mem_cons.2 ⟨(mem_reducible.1 hp).1, ih⟩

theorem EndlessChain.ne_zero (h : k.EndlessChain origin productions) :
    ∀ p ∈ productions.reverse, p ≠ 0 := by
  obtain ⟨trail, pushed, last, hchain, -⟩ := h
  exact fun p hp => hchain.ne_zero p (List.mem_reverse.1 hp)

/-- What arrives somewhere is one of the choices of the state. -/
theorem mem_choices_of_arrives {word : List Symbol} {states : List Nat}
    (h : choice.Arrives k.automaton k.productions k.state word states) : choice ∈ k.choices := by
  cases h with
  | shift he hterm _ =>
      have hne : k.automaton.terminalEdges k.state ≠ [] :=
        List.ne_nil_of_mem (Automaton.Realises.mem_terminalEdges.2 ⟨he, hterm⟩)
      rw [choices, List.isEmpty_eq_false_iff.2 hne]
      exact List.mem_cons_self
  | reduce hr _ _ _ => exact mem_choices_reduce.2 ⟨_, hr⟩

/-- **What is said of each kind of complaint is true.** -/
theorem Complains.truthful (h : k.Complains conflict)
    (hkernel : IsAscending (k.automaton.kernel k.state)) (hnames : k.Names) :
    k.Truthful conflict := by
  have hrules := rules_spec hkernel
  have hsnoc : ∀ {path : List Symbol} {s : Symbol}, path ++ [s] ≠ [] :=
    List.append_ne_nil_of_right_ne_nil _ (List.cons_ne_nil _ _)
  cases h with
  | blind hzero =>
      exact ⟨rfl, hrules, hnames, fun _ hne => absurd rfl hne, fun _ _ => ⟨rfl, hzero, rfl⟩, nofun⟩
  | exhausted hundecided hlength =>
      exact ⟨rfl, hrules, hnames, fun _ _ => ⟨_, rfl, hundecided, Nat.le_of_eq hlength,
        .inr ⟨rfl, hlength⟩⟩, fun _ hnil => absurd hnil hsnoc, nofun⟩
  | ended hundecided hlength =>
      exact ⟨rfl, hrules, hnames, fun _ _ => ⟨_, rfl, hundecided, hlength,
        .inl ⟨rfl, .inl List.getLast?_concat⟩⟩, fun _ hnil => absurd hnil hsnoc, nofun⟩
  | merged hundecided hlength hmeet =>
      have ⟨_, _, hone, hother⟩ := hmeet
      have hone := (hundecided.mem_iff _).2 hone.allows
      have hother := (hundecided.mem_iff _).2 hother.allows
      exact ⟨rfl, hrules, hnames, fun _ _ => ⟨_, rfl, hundecided, hlength,
        .inl ⟨rfl, .inr ⟨_, hone, _, hother, hmeet⟩⟩⟩, fun _ hnil => absurd hnil hsnoc, nofun⟩
  | @endlessAtOnce index r origin productions hr hne hn hendless =>
      have hall : ∀ p ∈ r.production :: productions.reverse, p ≠ 0 :=
        List.forall_mem_cons.2 ⟨hne, hendless.ne_zero⟩
      exact ⟨rfl, hrules, hnames, fun hkind => absurd rfl hkind, fun hkind => absurd rfl hkind,
        fun _ => ⟨_, mem_choices_reduce.2 ⟨_, hr⟩, rfl, _, _, hendless,
          .inr ⟨rfl, _, _, rfl, hr, hn, map_productionOfRule hall⟩⟩⟩
  | endlessBehind harrives hendless =>
      exact ⟨rfl, hrules, hnames, fun hkind => absurd rfl hkind, fun hkind => absurd rfl hkind,
        fun _ => ⟨_, mem_choices_of_arrives harrives, rfl, _, _, hendless,
          .inl ⟨hsnoc, harrives, map_productionOfRule hendless.ne_zero⟩⟩⟩

end Contest

/-- **Complaints tell the truth.**  If compiling a grammar fails at a state, the state has
several choices, and what the complaint says about them is true. -/
theorem Grammar.truthful_of_compile {grammar : Grammar} {bound : Nat} {conflict : Conflict}
    (h : grammar.compile bound = .error (.conflict conflict)) :
    ∃ g, grammar.normalize = .ok g ∧ conflict.state < g.automaton.count ∧
      2 ≤ (g.contest conflict.state bound).choices.length ∧
      (g.contest conflict.state bound).Truthful conflict := by
  rcases compile_eq_error.1 h with hg | ⟨g, c, hg, hnodes, hc⟩
  · exact absurd rfl (ne_conflict_of_normalize hg conflict)
  · obtain rfl := GrammarError.conflict.inj hc
    have hwf := wellFormed_of_normalize hg
    rcases compileNodes_cases g bound with
      ⟨nodes, hok, -⟩ | ⟨state, hstate, c, hcontested, hsettle, hfails⟩
    · cases hnodes.symm.trans hok
    · obtain rfl := Except.error.inj (hnodes.symm.trans hfails)
      have hcomplains : (g.contest state bound).Complains conflict :=
        Contest.complains_of_settle (Productions.automaton_realises hwf) hstate hsettle
      obtain rfl : conflict.state = state := hcomplains.state_eq
      exact ⟨g, hg, hstate, hcontested, hcomplains.truthful
        (Productions.isAscending_kernel hwf hstate) (Contest.names hwf hcontested)⟩

/-! ## Complaints of every kind -/

/-- Two ways to read a terminal that lead to the same, whatever comes behind. -/
def Grammar.merging : Grammar where
  start := .nonTerminal 0
  rules :=
    [⟨.nonTerminal 0, [.symbol (.nonTerminal 1), .symbol (.terminal 1)], 0, false⟩,
      ⟨.nonTerminal 1, [.symbol (.nonTerminal 2)], 0, false⟩,
      ⟨.nonTerminal 1, [.symbol (.nonTerminal 3)], 0, false⟩,
      ⟨.nonTerminal 2, [.symbol (.terminal 0)], 0, false⟩,
      ⟨.nonTerminal 3, [.symbol (.terminal 0)], 0, false⟩]
  priorities := []

/-- Two ways to read a terminal, and behind the next one a non-terminal that derives itself. -/
def Grammar.relapsing : Grammar where
  start := .nonTerminal 0
  rules :=
    [⟨.nonTerminal 0, [.symbol (.nonTerminal 2), .symbol (.terminal 1), .symbol (.nonTerminal 1),
        .symbol (.terminal 2)], 0, false⟩,
      ⟨.nonTerminal 0, [.symbol (.nonTerminal 3), .symbol (.terminal 1), .symbol (.nonTerminal 1),
        .symbol (.terminal 3)], 0, false⟩,
      ⟨.nonTerminal 1, [.symbol (.nonTerminal 1)], 0, false⟩,
      ⟨.nonTerminal 1, [], 0, false⟩,
      ⟨.nonTerminal 2, [.symbol (.terminal 0)], 0, false⟩,
      ⟨.nonTerminal 3, [.symbol (.terminal 0)], 0, false⟩]
  priorities := []

/-- No symbol may be read, or only one where two are needed; two reductions come to the same
stack; and reductions go on forever, at once or behind a terminal. -/
theorem Grammar.truthful_of_compile_each :
    (∃ g c, hesitant.compile 0 = .error (.conflict c) ∧ c.kind = .lookaheadExhausted ∧
      c.lookahead = [] ∧ hesitant.normalize = .ok g ∧ (g.contest c.state 0).Truthful c) ∧
    (∃ g c, hesitant.compile 1 = .error (.conflict c) ∧ c.kind = .lookaheadExhausted ∧
      c.lookahead = [.terminal 1] ∧ hesitant.normalize = .ok g ∧
      (g.contest c.state 1).Truthful c) ∧
    (∃ g c, merging.compile 3 = .error (.conflict c) ∧ c.kind = .ambiguity ∧
      c.lookahead = [.terminal 1] ∧ merging.normalize = .ok g ∧
      (g.contest c.state 3).Truthful c) ∧
    (∃ g c, circular.compile 1 = .error (.conflict c) ∧ c.kind = .endlessReduction ∧
      c.lookahead = [] ∧ circular.normalize = .ok g ∧ (g.contest c.state 1).Truthful c) ∧
    ∃ g c, relapsing.compile 3 = .error (.conflict c) ∧ c.kind = .endlessReduction ∧
      c.lookahead = [.terminal 1] ∧ relapsing.normalize = .ok g ∧
      (g.contest c.state 3).Truthful c := by
  have hblind : hesitant.compile 0 = .error (.conflict
      ⟨.lookaheadExhausted, 0, 1, [1, 2], [], [.shift, .reduce 2], []⟩) := by decide +kernel
  have hexhausted : hesitant.compile 1 = .error (.conflict
      ⟨.lookaheadExhausted, 1, 1, [1, 2], [.terminal 1], [.shift, .reduce 2], []⟩) := by
    decide +kernel
  have hmerged : merging.compile 3 = .error (.conflict
      ⟨.ambiguity, 3, 1, [3, 4], [.terminal 1], [.reduce 3, .reduce 4], []⟩) := by decide +kernel
  have hatOnce : circular.compile 1 = .error (.conflict
      ⟨.endlessReduction, 1, 3, [0, 1], [], [.reduce 1], [1, 1]⟩) := by decide +kernel
  have hbehind : relapsing.compile 3 = .error (.conflict
      ⟨.endlessReduction, 3, 1, [4, 5], [.terminal 1], [.reduce 4], [3, 2]⟩) := by decide +kernel
  obtain ⟨g₁, hg₁, -, -, h₁⟩ := truthful_of_compile hblind
  obtain ⟨g₂, hg₂, -, -, h₂⟩ := truthful_of_compile hexhausted
  obtain ⟨g₃, hg₃, -, -, h₃⟩ := truthful_of_compile hmerged
  obtain ⟨g₄, hg₄, -, -, h₄⟩ := truthful_of_compile hatOnce
  obtain ⟨g₅, hg₅, -, -, h₅⟩ := truthful_of_compile hbehind
  exact ⟨⟨g₁, _, hblind, rfl, rfl, hg₁, h₁⟩, ⟨g₂, _, hexhausted, rfl, rfl, hg₂, h₂⟩,
    ⟨g₃, _, hmerged, rfl, rfl, hg₃, h₃⟩, ⟨g₄, _, hatOnce, rfl, rfl, hg₄, h₄⟩,
    g₅, _, hbehind, rfl, rfl, hg₅, h₅⟩

end BoundedLR
