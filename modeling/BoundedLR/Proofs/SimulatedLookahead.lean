import BoundedLR.Proofs.Decisions

/-!
# What a choice allows

The trie of a contested state is built by a search that is anything but a transcription of
what it is to find out.  It leaves out stacks that it has expanded before, it forgets after
each symbol how deep the stacks lie, it throws the continuations of all stacks together, and
it gives up a terminal as soon as one choice is left.  This module says what the search is
about without any of that, and shows that nothing has been lost or made up.

What a choice allows is found out by *simulating* it: from the stack of which only the
contested state is known the choice is carried out, and then terminals are shifted, with any
number of reductions before each of them.  A reduction that pops below the known part leads
to every stack that it may uncover.  `PartialStack.Reads` are the words that are shifted in
this way, and `Choice.Allows` are those that begin with a given choice.

The continuations from which a level is filled are then those of all choices that allow the
word leading there (`Contest.Exact`).  Following a continuation finds what its stack reads,
no less since everything that is explored is expanded, and no more since only what reductions
lead to is explored; so the level below is filled rightly if this one is.
-/

namespace BoundedLR

/-! ## The simulation -/

/-- The words that can be shifted on a partial stack, one terminal after the other, when any
number of reductions may come before each of them.  The production that accepts the input is
not reduced. -/
inductive PartialStack.Reads (a : Automaton) (g : Productions) :
    PartialStack → List Symbol → Prop where
  | done {c : PartialStack} : Reads a g c []
  | shift {c : PartialStack} {top : Nat} {e : Edge} {word : List Symbol} :
      c.states.head? = some top → e ∈ a.edges top → e.symbol.isTerminal = true →
      Reads a g (c.push e.target) word → Reads a g c (e.symbol :: word)
  | reduce {c next : PartialStack} {top : Nat} {r : Reduction} {word : List Symbol} :
      c.states.head? = some top → r ∈ a.reductions top → r.production ≠ 0 →
      next ∈ c.reduce a g r.production → Reads a g next word → Reads a g c word

/-- The words that can be shifted from a state on, when the first thing to be done is a given
choice of the state. -/
inductive Choice.Allows (a : Automaton) (g : Productions) (state : Nat) :
    Choice → List Symbol → Prop where
  | shift {e : Edge} {word : List Symbol} :
      e ∈ a.edges state → e.symbol.isTerminal = true →
      ((PartialStack.single state).push e.target).Reads a g word →
      Allows a g state .shift (e.symbol :: word)
  | reduce {index : Nat} {r : Reduction} {next : PartialStack} {word : List Symbol} :
      (a.reductions state)[index]? = some r → r.production ≠ 0 →
      next ∈ (PartialStack.single state).reduce a g r.production → next.Reads a g word →
      Allows a g state (.reduce index) word

namespace PartialStack

variable {a : Automaton} {g : Productions} {c c' next : PartialStack} {word : List Symbol}
  {count p n : Nat}

/-- What a stack reads depends on the known states only. -/
theorem Reads.of_states_eq (h : c.Reads a g word) (hs : c'.states = c.states) :
    c'.Reads a g word := by
  induction h generalizing c' with
  | done => exact .done
  | shift htop he hterm _ ih =>
      exact .shift (hs ▸ htop) he hterm (ih (congrArg (_ :: ·) hs))
  | reduce htop hr hne hn _ ih =>
      obtain ⟨same, hsame, hstates⟩ := exists_mem_reduce hs hn
      exact .reduce (hs ▸ htop) hr hne hsame (ih hstates)

/-- Something of the stack is known, and it consists of states. -/
structure Within (count : Nat) (c : PartialStack) : Prop where
  ne_nil : c.states ≠ []
  lt_count : ∀ n ∈ c.states, n < count

theorem Within.single (h : n < count) : (PartialStack.single n).Within count :=
  ⟨List.cons_ne_nil _ _, by simpa [PartialStack.single] using h⟩

theorem Within.push (h : c.Within count) (hn : n < count) : (c.push n).Within count :=
  ⟨List.cons_ne_nil _ _, List.forall_mem_cons.2 ⟨hn, h.lt_count⟩⟩

theorem Within.reduce (ha : a.Realises g) (h : c.Within a.count) (hn : next ∈ c.reduce a g p) :
    next.Within a.count := by
  obtain ⟨target, htarget, ⟨-, hstates⟩ | ⟨-, last, hlast, hstates⟩⟩ := mem_reduce_cases ha hn
  · refine ⟨by simp [hstates], fun m hm => ?_⟩
    rw [hstates, List.mem_cons] at hm
    rcases hm with rfl | hm
    · exact htarget
    · exact h.lt_count m (List.mem_of_mem_drop hm)
  · refine ⟨by simp [hstates], fun m hm => ?_⟩
    simp only [hstates, List.mem_cons, List.not_mem_nil, or_false] at hm
    rcases hm with rfl | rfl
    · exact htarget
    · exact hlast

end PartialStack

/-! ## Following a choice -/

/-- The stack on which a continuation goes on. -/
def Continuation.behind (d : Continuation) : PartialStack := ⟨0, d.stack.reverse⟩

namespace Contest

variable {k : Contest} {choice : Choice} {c stack : PartialStack} {d : Continuation}
  {path word : List Symbol} {s : Symbol} {q : Nat}

theorem mem_shifts : d ∈ k.shifts choice c ↔ ∃ top e, c.states.head? = some top ∧
    e ∈ k.automaton.edges top ∧ e.symbol.isTerminal = true ∧
      d = ⟨choice, e.symbol, (c.push e.target).states.reverse⟩ := by
  rw [shifts]
  cases hhead : c.states.head? with
  | none => simp
  | some top =>
      simp only [List.mem_map, Automaton.Realises.mem_terminalEdges, Option.some.injEq]
      constructor
      · rintro ⟨e, ⟨he, hterm⟩, rfl⟩
        exact ⟨top, e, rfl, he, hterm, rfl⟩
      · rintro ⟨_, e, rfl, he, hterm, rfl⟩
        exact ⟨e, ⟨he, hterm⟩, rfl⟩

theorem mem_reducible : q ∈ k.reducible c ↔ q ≠ 0 ∧ ∃ top r, c.states.head? = some top ∧
    r ∈ k.automaton.reductions top ∧ r.production = q := by
  rw [reducible]
  cases hhead : c.states.head? with
  | none => simp
  | some top =>
      simp only [List.mem_filter, List.mem_map, decide_eq_true_eq, Option.some.injEq]
      constructor
      · rintro ⟨⟨r, hr, rfl⟩, hne⟩
        exact ⟨hne, top, r, rfl, hr, rfl⟩
      · rintro ⟨hne, _, r, rfl, hr, rfl⟩
        exact ⟨⟨r, hr, rfl⟩, hne⟩

/-- A continuation goes on where its terminal has been shifted. -/
theorem behind_of_mem_shifts (hd : d ∈ k.shifts choice c) : ∃ top e, c.states.head? = some top ∧
    e ∈ k.automaton.edges top ∧ e.symbol.isTerminal = true ∧ d.symbol = e.symbol ∧
      d.behind.states = (c.push e.target).states := by
  obtain ⟨top, e, htop, he, hterm, rfl⟩ := mem_shifts.1 hd
  exact ⟨top, e, htop, he, hterm, rfl, List.reverse_reverse _⟩

/-- A continuation that belongs to what a stack reads: the next symbol, and a stack that reads
what may come behind it. -/
structure Yields (k : Contest) (c : PartialStack) (d : Continuation) : Prop where
  within : d.behind.Within k.automaton.count
  reads : ∀ rest, d.behind.Reads k.automaton k.productions rest →
    c.Reads k.automaton k.productions (d.symbol :: rest)

theorem yields_of_mem_shifts (ha : k.automaton.Realises k.productions)
    (hc : c.Within k.automaton.count) (hd : d ∈ k.shifts choice c) : k.Yields c d := by
  obtain ⟨top, e, htop, he, hterm, hsymbol, hstates⟩ := behind_of_mem_shifts hd
  have hpush := hc.push (ha.target_lt he)
  refine ⟨⟨hstates ▸ hpush.ne_nil, hstates ▸ hpush.lt_count⟩, fun rest hrest => ?_⟩
  rw [hsymbol]
  exact .shift htop he hterm (hrest.of_states_eq hstates.symm)

/-- **Nothing is made up**: all that following a stack finds belongs to what it reads. -/
theorem yields_of_follow (ha : k.automaton.Realises k.productions)
    (hc : c.Within k.automaton.count) {lookahead : List Symbol} {via : List Nat}
    {found : List Continuation} (h : k.follow lookahead choice via c = .ok found)
    (hd : d ∈ found) : k.Yields c d := by
  rw [follow] at h
  split at h
  · rename_i survey hsurvey
    cases Except.ok.inj h
    -- what a stack on the way reads is read by the first, since reductions lead there
    refine found_of_visit (Q := k.Yields c)
      (R := fun stack => stack.Within k.automaton.count ∧ ∀ word,
        stack.Reads k.automaton k.productions word → c.Reads k.automaton k.productions word)
      (fun stack hs q hq next hn => ?_) (fun stack hs d hd => ?_) ⟨hc, fun _ h => h⟩
      (fun c hc => absurd hc List.not_mem_nil) hsurvey d hd
    · obtain ⟨hne, top, r, htop, hr, rfl⟩ := mem_reducible.1 hq
      exact ⟨hs.1.reduce ha hn, fun word hword => hs.2 word (.reduce htop hr hne hn hword)⟩
    · have hyields := yields_of_mem_shifts ha hs.1 hd
      exact ⟨hyields.within, fun rest hrest => hs.2 _ (hyields.reads rest hrest)⟩
  · cases h

/-- A survey in which everything explored is expanded has found whatever a stack reads. -/
theorem found_of_reads {survey : Survey} (hs : ∀ w ∈ survey.explored, survey.Expands k choice w)
    (hc : c.states ∈ survey.explored) (h : c.Reads k.automaton k.productions (s :: word)) :
    ∃ d ∈ survey.found, d.symbol = s ∧ d.behind.Reads k.automaton k.productions word := by
  generalize hfull : s :: word = full at h
  induction h with
  | done => cases hfull
  | @shift c top e rest htop he hterm hrest ih =>
      obtain ⟨rfl, rfl⟩ := List.cons.inj hfull
      refine ⟨_, (hs _ hc).shifts c rfl (mem_shifts.2 ⟨top, e, htop, he, hterm, rfl⟩), rfl, ?_⟩
      exact hrest.of_states_eq (List.reverse_reverse _)
  | reduce htop hr hne hn _ ih =>
      exact ih ((hs _ hc).reductions _ _ _ rfl (mem_reducible.2 ⟨hne, _, _, htop, hr, rfl⟩) hn)
        hfull

/-- **Nothing is lost**: following a stack finds all that it reads, and nothing else. -/
theorem reads_iff_of_follow (ha : k.automaton.Realises k.productions)
    (hc : c.Within k.automaton.count) {lookahead : List Symbol} {via : List Nat}
    {found : List Continuation} (h : k.follow lookahead choice via c = .ok found) :
    c.Reads k.automaton k.productions (s :: word) ↔
      ∃ d ∈ found, d.symbol = s ∧ d.behind.Reads k.automaton k.productions word := by
  constructor
  · intro hreads
    obtain ⟨survey, rfl, hmem, hexpands⟩ := follow_spec ha hc.ne_nil hc.lt_count h
    exact found_of_reads hexpands hmem hreads
  · rintro ⟨d, hd, rfl, hreads⟩
    exact (yields_of_follow ha hc h hd).reads word hreads

/-! ## Levels -/

/-- The continuations behind a path are those of the choices that allow it. -/
structure Exact (k : Contest) (path : List Symbol) (continuations : List Continuation) : Prop where
  within : ∀ d ∈ continuations, d.behind.Within k.automaton.count
  allows_iff : ∀ choice s word,
    choice.Allows k.automaton k.productions k.state (path ++ s :: word) ↔
      ∃ d ∈ continuations, d.choice = choice ∧ d.symbol = s ∧
        d.behind.Reads k.automaton k.productions word

variable {continuations : List Continuation} {trie level : Trie Decision}

/-- The continuations of a reduction are what is read behind it. -/
theorem allows_reduce_iff (ha : k.automaton.Realises k.productions)
    (hk : k.state < k.automaton.count) {index : Nat} {r : Reduction} {found : List Continuation}
    (hr : (k.automaton.reductions k.state)[index]? = some r)
    (h : k.followReduction index r.production = .ok found) :
    (∀ d ∈ found, d.behind.Within k.automaton.count) ∧
    ∀ s word, (Choice.reduce index).Allows k.automaton k.productions k.state (s :: word) ↔
      ∃ d ∈ found, d.symbol = s ∧ d.behind.Reads k.automaton k.productions word := by
  have hsingle := PartialStack.Within.single hk
  rw [followReduction] at h
  split at h
  · rename_i hzero
    cases Except.ok.inj h
    refine ⟨fun d hd => absurd hd List.not_mem_nil, fun s word => ⟨fun hallows => ?_, by simp⟩⟩
    cases hallows with
    | reduce hr' hne _ _ =>
        cases hr.symm.trans hr'
        exact absurd hzero hne
  · rename_i hne
    obtain ⟨lists, hlists, h⟩ := bind_eq_ok.1 h
    cases Except.ok.inj h
    have hfollows := mapM_eq_ok.1 hlists
    constructor
    · intro d hd
      obtain ⟨list, hlist, hd⟩ := List.mem_flatten.1 hd
      obtain ⟨next, hnext, hfollow⟩ := forall₂_mem_right hfollows hlist
      exact (yields_of_follow ha (hsingle.reduce ha hnext) hfollow hd).within
    · intro s word
      constructor
      · rintro (_ | ⟨hr', hne', hnext, hreads⟩)
        cases hr.symm.trans hr'
        obtain ⟨list, hlist, hfollow⟩ := forall₂_mem_left hfollows hnext
        obtain ⟨d, hd, hdone⟩ := (reads_iff_of_follow ha (hsingle.reduce ha hnext) hfollow).1 hreads
        exact ⟨d, List.mem_flatten.2 ⟨list, hlist, hd⟩, hdone⟩
      · rintro ⟨d, hd, hdone⟩
        obtain ⟨list, hlist, hd⟩ := List.mem_flatten.1 hd
        obtain ⟨next, hnext, hfollow⟩ := forall₂_mem_right hfollows hlist
        exact .reduce hr hne hnext
          ((reads_iff_of_follow ha (hsingle.reduce ha hnext) hfollow).2 ⟨d, hd, hdone⟩)

/-- **The root level** is filled from the continuations of all choices. -/
theorem exact_of_settle (ha : k.automaton.Realises k.productions)
    (hk : k.state < k.automaton.count) {found : List (List Continuation)}
    (hfound : List.Forall₂ (fun x found => k.followReduction x.2 x.1.production = .ok found)
      (k.automaton.reductions k.state).zipIdx found) :
    k.Exact [] (k.shifts .shift (.single k.state) ++ found.flatten) := by
  have hsingle := PartialStack.Within.single hk
  have hreduction : ∀ list ∈ found, ∃ r index, (k.automaton.reductions k.state)[index]? = some r ∧
      k.followReduction index r.production = .ok list := by
    intro list hlist
    obtain ⟨⟨r, index⟩, hmem, hfollow⟩ := forall₂_mem_right hfound hlist
    exact ⟨r, index, List.mem_zipIdx_iff_getElem?.1 hmem, hfollow⟩
  constructor
  case within =>
    intro d hd
    rcases List.mem_append.1 hd with hd | hd
    · exact (yields_of_mem_shifts ha hsingle hd).within
    · obtain ⟨list, hlist, hd⟩ := List.mem_flatten.1 hd
      obtain ⟨r, index, hr, hfollow⟩ := hreduction list hlist
      exact (allows_reduce_iff ha hk hr hfollow).1 d hd
  case allows_iff =>
    intro choice s word
    constructor
    · intro hallows
      rw [List.nil_append] at hallows
      cases choice with
      | shift =>
          cases hallows with
          | @shift e _ he hterm hreads =>
              have hd : ⟨.shift, e.symbol,
                  ((PartialStack.single k.state).push e.target).states.reverse⟩ ∈
                    k.shifts .shift (.single k.state) :=
                mem_shifts.2 ⟨k.state, e, rfl, he, hterm, rfl⟩
              exact ⟨_, List.mem_append_left _ hd, rfl, rfl,
                hreads.of_states_eq (List.reverse_reverse _)⟩
      | reduce index =>
          obtain ⟨r, hr⟩ : ∃ r, (k.automaton.reductions k.state)[index]? = some r := by
            cases hallows with
            | reduce hr _ _ _ => exact ⟨_, hr⟩
          have hzip : (r, index) ∈ (k.automaton.reductions k.state).zipIdx :=
            List.mem_zipIdx_iff_getElem?.2 hr
          obtain ⟨list, hlist, hfollow⟩ := forall₂_mem_left hfound hzip
          obtain ⟨d, hd, hsymbol, hreads⟩ :=
            ((allows_reduce_iff ha hk hr hfollow).2 s word).1 hallows
          refine ⟨d, List.mem_append_right _ (List.mem_flatten.2 ⟨list, hlist, hd⟩), ?_, hsymbol,
            hreads⟩
          exact found_of_followReduction (fun _ _ => choice_of_mem_shifts) hfollow d hd
    · rintro ⟨d, hd, rfl, rfl, hreads⟩
      rw [List.nil_append]
      rcases List.mem_append.1 hd with hd | hd
      · rw [choice_of_mem_shifts hd]
        obtain ⟨_, e, htop, he, hterm, hsymbol, hstates⟩ := behind_of_mem_shifts hd
        cases Option.some.inj htop
        rw [hsymbol]
        exact .shift he hterm (hreads.of_states_eq hstates.symm)
      · obtain ⟨list, hlist, hd⟩ := List.mem_flatten.1 hd
        obtain ⟨r, index, hr, hfollow⟩ := hreduction list hlist
        rw [found_of_followReduction (fun _ _ => choice_of_mem_shifts) hfollow d hd]
        exact ((allows_reduce_iff ha hk hr hfollow).2 _ word).2 ⟨d, hd, rfl, hreads⟩

/-- **The level below** is filled from the continuations that follow those with its symbol. -/
theorem Exact.below (ha : k.automaton.Realises k.productions) (h : k.Exact path continuations)
    {next : List (List Continuation)}
    (hnext : (group continuations s).mapM (fun c =>
      k.follow (path ++ [s]) c.choice [] ⟨0, c.stack.reverse⟩) = .ok next) :
    k.Exact (path ++ [s]) next.flatten := by
  have hfollows := mapM_eq_ok.1 hnext
  constructor
  case within =>
    intro d hd
    obtain ⟨list, hlist, hd⟩ := List.mem_flatten.1 hd
    obtain ⟨c, hc, hfollow⟩ := forall₂_mem_right hfollows hlist
    exact (yields_of_follow ha (h.within c (mem_group.1 hc).1) hfollow hd).within
  case allows_iff =>
    intro choice r word
    rw [List.append_assoc, List.singleton_append, h.allows_iff]
    constructor
    · rintro ⟨c, hc, rfl, rfl, hreads⟩
      obtain ⟨list, hlist, hfollow⟩ := forall₂_mem_left hfollows (mem_group.2 ⟨hc, rfl⟩)
      obtain ⟨d, hd, hsymbol, hreads⟩ := (reads_iff_of_follow ha (h.within c hc) hfollow).1 hreads
      exact ⟨d, List.mem_flatten.2 ⟨list, hlist, hd⟩,
        found_of_follow (fun _ _ => choice_of_mem_shifts) hfollow d hd, hsymbol, hreads⟩
    · rintro ⟨d, hd, rfl, rfl, hreads⟩
      obtain ⟨list, hlist, hd⟩ := List.mem_flatten.1 hd
      obtain ⟨c, hc, hfollow⟩ := forall₂_mem_right hfollows hlist
      obtain ⟨hc, hsymbol⟩ := mem_group.1 hc
      exact ⟨c, hc, (found_of_follow (fun _ _ => choice_of_mem_shifts) hfollow d hd).symm, hsymbol,
        (reads_iff_of_follow ha (h.within c hc) hfollow).2 ⟨d, hd, rfl, hreads⟩⟩

/-- **Every level** on a way down is filled from the continuations of the choices that allow
the way. -/
theorem exact_of_walk (ha : k.automaton.Realises k.productions) {levels : Nat}
    (hsplit : k.split levels path continuations = .ok trie) (h : k.Exact path continuations)
    (hw : trie.walk word = some level) : ∃ fewer behind,
      k.split fewer (path ++ word) behind = .ok level ∧ k.Exact (path ++ word) behind := by
  induction word generalizing levels path continuations trie with
  | nil =>
      cases hw
      rw [List.append_nil]
      exact ⟨levels, continuations, hsplit, h⟩
  | cons s word ih =>
      have hsays := find?_split hsplit s
      rw [Trie.walk] at hw
      split at hw
      · rename_i below hbelow
        rw [hbelow] at hsays
        cases hsays with
        | deeper _ _ _ _ hnext hdeeper =>
            have hbehind := ih hdeeper (h.below ha hnext) hw
            rw [List.append_assoc] at hbehind
            exact hbehind
      · cases hw

end Contest
end BoundedLR
