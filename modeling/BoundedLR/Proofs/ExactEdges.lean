import BoundedLR.Proofs.StackPaths

/-!
# The edges realise the restrictions exactly

A slot may accept only some of the productions of its symbol, and the automaton has
to honour this with nothing but its edges.  This module says that it does so exactly:

* on a terminal a state has one edge, which advances every item before the terminal;
* a production that begins in a state passes exactly one of the edges on its head, and
  that edge advances the items whose slot accepts the production, and no others;
* there is no edge on a symbol that stands behind no dot, no two states have the same
  kernel, and every state is reached from the start.

`Automaton.Exact` collects these, and `Grammar.exact_of_normalize` proves them of the
automaton of every grammar.

Two facts are added to the theory of edges for this.  The edges on a symbol correspond
one by one to the moves over it (`edgesOn_follow`), and different moves over a
non-terminal lead to different kernels; so that *some* edge lets a production pass
becomes that exactly one does.  And a kernel is numbered only when an edge leads to it,
from a state with a smaller number (`Linked`); so every number is reached.
-/

namespace BoundedLR

/-! ## Moves over one symbol -/

namespace Productions

variable {g : Productions} {items : List Item} {s : Symbol} {c : Nat}

/-- Among all moves those over a symbol stand together. -/
theorem filter_moves (hs : ∃ i ∈ items, g.nextSymbol i = some s) :
    (g.moves items).filter (·.symbol == s) = g.movesOn items s := by
  have hsame : (g.movesOn items s).filter (·.symbol == s) = g.movesOn items s :=
    List.filter_eq_self.2 fun m hm => beq_iff_eq.2 (symbol_of_mem_movesOn hm)
  have hother : ∀ symbols : List Symbol, s ∉ symbols →
      (symbols.flatMap (g.movesOn items)).filter (·.symbol == s) = [] := by
    intro symbols hsymbols
    refine List.filter_eq_nil_iff.2 fun m hm hms => ?_
    obtain ⟨t, ht, hmt⟩ := List.mem_flatMap.1 hm
    rw [← beq_iff_eq.1 hms, symbol_of_mem_movesOn hmt] at hsymbols
    exact hsymbols ht
  have hmem : s ∈ ascending (items.filterMap g.nextSymbol) := by
    obtain ⟨i, hi, hn⟩ := hs
    exact mem_ascending.2 (List.mem_filterMap.2 ⟨i, hi, hn⟩)
  obtain ⟨before, after, hsplit⟩ := List.append_of_mem hmem
  have hnodup := (IsAscending.ascending (items.filterMap g.nextSymbol)).nodup
  rw [hsplit, List.nodup_middle, List.nodup_cons, List.mem_append, not_or] at hnodup
  rw [moves, hsplit, List.flatMap_append, List.flatMap_cons, List.filter_append,
    List.filter_append, hsame, hother before hnodup.1.1, hother after hnodup.1.2, List.nil_append,
    List.append_nil]

/-- Moves over a non-terminal differ in their kernels. -/
theorem nodup_kernels_movesOn (hs : s.isTerminal = false) :
    ((g.movesOn items s).map (·.kernel)).Nodup := by
  rw [movesOn, if_neg (by rw [hs]; exact Bool.false_ne_true), List.map_map]
  refine List.Nodup.map (fun _ _ h => h) ?_
  exact (IsAscending.ascending _).nodup

/-- **A production that begins here passes the filter of exactly one move** over its
head, which leads to the advances of the items whose slot accepts it. -/
theorem filter_movesOn_accepts (hs : s.isTerminal = false) (hc : c ∈ g.candidates items s)
    (hadmits : ∃ i ∈ items, g.nextSymbol i = some s ∧ g.admits i c = true) :
    ∃ m, (g.movesOn items s).filter (·.filter.accepts c) = [m] ∧
      m.kernel = g.kernelOver (g.before items s) c := by
  obtain ⟨i, hi, hn, had⟩ := hadmits
  obtain ⟨m, hm, hms, hacc⟩ := exists_mem_moves_of_candidate hs hc hi hn had
  have hkernel : ∀ m' ∈ (g.movesOn items s).filter (·.filter.accepts c),
      m'.kernel = g.kernelOver (g.before items s) c := by
    intro m' hm'
    obtain ⟨hm', hacc'⟩ := List.mem_filter.1 hm'
    have hms' := symbol_of_mem_movesOn hm'
    rw [← hms'] at hm' hs hc hn ⊢
    exact kernel_eq_of_accepts (mem_moves.2 ⟨⟨i, hi, hn⟩, hm'⟩) hs hc hacc'
  have hmem : m ∈ (g.movesOn items s).filter (·.filter.accepts c) :=
    List.mem_filter.2 ⟨hms ▸ (mem_moves.1 hm).2, hacc⟩
  have hnodup : (((g.movesOn items s).filter (·.filter.accepts c)).map (·.kernel)).Nodup :=
    (nodup_kernels_movesOn hs).sublist (List.filter_sublist.map _)
  cases hlist : (g.movesOn items s).filter (·.filter.accepts c) with
  | nil =>
      rw [hlist] at hmem
      exact absurd hmem List.not_mem_nil
  | cons first rest =>
      rw [hlist] at hkernel hnodup
      have hfirst := hkernel first List.mem_cons_self
      cases rest with
      | nil => exact ⟨first, rfl, hfirst⟩
      | cons second rest =>
          have hsecond := hkernel second (List.mem_cons_of_mem _ List.mem_cons_self)
          rw [List.map_cons, List.map_cons, List.nodup_cons, hfirst, hsecond] at hnodup
          exact absurd List.mem_cons_self hnodup.1

end Productions

/-! ## The edges on one symbol -/

namespace Automaton

variable {a : Automaton} {g : Productions} {n c : Nat} {s : Symbol}

namespace Realises

/-- The edges on a symbol that stands behind a dot are the moves over it, in the same
order. -/
theorem edgesOn_follow (ha : a.Realises g) (hs : ∃ i ∈ a.items n, g.nextSymbol i = some s) :
    List.Forall₂ (fun e m => e.symbol = m.symbol ∧ e.filter = m.filter ∧ e.target < a.count ∧
      a.kernel e.target = m.kernel) (a.edgesOn n s) (g.movesOn (a.items n) s) := by
  have hn : n < a.count := by
    obtain ⟨i, hi, -⟩ := hs
    exact lt_count_of_mem_items hi
  rw [edgesOn_eq, ← Productions.filter_moves hs]
  refine List.rel_filter (fun e m h => ?_) (ha.edges_eq hn)
  dsimp only
  rw [h.1]

/-- On a terminal behind a dot there is one edge. -/
theorem edgesOn_terminal (ha : a.Realises g) (ht : s.isTerminal = true)
    (hs : ∃ i ∈ a.items n, g.nextSymbol i = some s) :
    ∃ e, a.edgesOn n s = [e] ∧ a.kernel e.target = (g.before (a.items n) s).map .advance := by
  have hfollow := ha.edgesOn_follow hs
  rw [Productions.movesOn_of_isTerminal ht] at hfollow
  obtain ⟨e, rest, ⟨-, -, -, hk⟩, hrest, hedges⟩ := List.forall₂_cons_right_iff.1 hfollow
  rw [List.forall₂_nil_right_iff.1 hrest] at hedges
  exact ⟨e, hedges, hk⟩

/-- Among the edges on a non-terminal there is one for each production that begins
here. -/
theorem edgesOn_accepts (ha : a.Realises g) (ht : s.isTerminal = false) (h0 : c ≠ 0)
    (hh : g.head? c = some s) (hc : Item.initial c ∈ a.items n) :
    ∃ e, (a.edgesOn n s).filter (·.filter.accepts c) = [e] ∧
      a.kernel e.target = g.kernelOver (g.before (a.items n) s) c := by
  obtain ⟨i, hi, s', hs', hh', had⟩ := ha.opened hc h0
  rw [hh, Option.some.injEq] at hh'
  subst hh'
  obtain ⟨m, hm, hkernel⟩ := Productions.filter_movesOn_accepts ht
    (Productions.mem_candidates.2 ⟨hc, hh⟩) ⟨i, hi, hs', had⟩
  have hfollow : List.Forall₂ (fun e m => e.symbol = m.symbol ∧ e.filter = m.filter ∧
      e.target < a.count ∧ a.kernel e.target = m.kernel)
      ((a.edgesOn n s).filter (·.filter.accepts c)) [m] := by
    rw [← hm]
    refine List.rel_filter (fun e m h => ?_) (ha.edgesOn_follow ⟨i, hi, hs'⟩)
    dsimp only
    rw [h.2.1]
  obtain ⟨e, rest, ⟨-, -, -, hk⟩, hrest, hedges⟩ := List.forall₂_cons_right_iff.1 hfollow
  rw [List.forall₂_nil_right_iff.1 hrest] at hedges
  exact ⟨e, hedges, hk.trans hkernel⟩

end Realises
end Automaton

/-! ## Every state is reached -/

/-- Only the kernel that is being numbered can get a new number. -/
theorem lt_size_of_numberCore {cores : Array Core} {core : Core} {n : Nat}
    (hn : n < (numberCore cores core).2.size) : n < cores.size ∨ (numberCore cores core).1 = n := by
  unfold numberCore at hn ⊢
  split at hn
  · exact .inl hn
  · rw [Array.size_push] at hn
    dsimp only
    omega

/-- A kernel that gets a number while moves become edges has an edge leading to it. -/
theorem exists_edge_of_numberMoves (moves : List Move) {cores : Array Core} {n : Nat}
    (hn : n < (numberMoves cores moves).2.size) :
    n < cores.size ∨ ∃ e ∈ (numberMoves cores moves).1, e.target = n := by
  induction moves generalizing cores with
  | nil => exact .inl hn
  | cons m rest ih =>
      rcases ih hn with hlt | ⟨e, he, hen⟩
      · rcases lt_size_of_numberCore hlt with hold | hnew
        · exact .inl hold
        · exact .inr ⟨_, List.mem_cons_self, hnew⟩
      · exact .inr ⟨e, List.mem_cons_of_mem _ he, hen⟩

namespace Productions

variable {g : Productions} {cores : Array Core} {done : Array State} {n : Nat}

/-- Every number but the first has an edge leading to it, from a state with a smaller
one. -/
def Linked (done : Array State) (count : Nat) : Prop :=
  ∀ n < count, n = 0 ∨ ∃ m < n, ∃ s, done[m]? = some s ∧ ∃ e ∈ s.edges, e.target = n

theorem Linked.push {core : Core} (h : Linked done cores.size)
    (hcore : cores[done.size]? = some core) (items : List Item) (reductions : List Reduction) :
    Linked (done.push ⟨core.via, core.kernel, items, (numberMoves cores (g.moves items)).1,
      reductions⟩) (numberMoves cores (g.moves items)).2.size := by
  intro n hn
  have hkeep : ∀ {m : Nat} {s : State}, done[m]? = some s →
      ∀ state, (done.push state)[m]? = some s := by
    intro m s hs state
    have hlt := (Array.getElem?_eq_some_iff.1 hs).1
    rw [Array.getElem?_push_lt hlt, ← Array.getElem?_eq_getElem hlt]
    exact hs
  by_cases hold : n < cores.size
  · rcases h n hold with rfl | ⟨m, hm, s, hs, hedge⟩
    · exact .inl rfl
    · exact .inr ⟨m, hm, s, hkeep hs _, hedge⟩
  · -- a number that is new now is larger than that of the state being worked through
    obtain ⟨e, he, hen⟩ := (exists_edge_of_numberMoves _ hn).resolve_left hold
    have hsize := (Array.getElem?_eq_some_iff.1 hcore).1
    exact .inr ⟨done.size, by omega, _, Array.getElem?_push_size, e, he, hen⟩

theorem linked_explore {rounds : Nat} (hex : g.Explored cores done) (h : Linked done cores.size) :
    Linked (g.explore rounds cores done) (g.explore rounds cores done).size := by
  induction rounds generalizing cores done with
  | zero => exact fun n hn => h n (Nat.lt_of_lt_of_le hn hex.size_le)
  | succ rounds ih =>
      rw [explore]
      cases hcore : cores[done.size]? with
      | none => exact fun n hn => h n (Nat.lt_of_lt_of_le hn hex.size_le)
      | some core => exact ih (hex.push hcore) (h.push hcore _ _)

/-- **Every state is reached**: it is on top of a path from the start. -/
theorem exists_path {start : Symbol} (hg : g.WellFormed start) {n : Nat}
    (hn : n < g.automaton.count) : ∃ stack, g.automaton.Path (n :: stack) := by
  have hlinked : Linked g.skeleton.states g.skeleton.count :=
    linked_explore (explored_start hg) fun n hn => .inl (Nat.lt_one_iff.1 hn)
  induction n using Nat.strong_induction_on with
  | _ n ih =>
      have hcount : n < g.skeleton.count := by rwa [automaton, Automaton.count_withTuples] at hn
      rcases hlinked n hcount with rfl | ⟨m, hm, s, hs, e, he, rfl⟩
      · exact ⟨[], .start⟩
      · obtain ⟨stack, hpath⟩ := ih m hm (Nat.lt_trans hm hn)
        refine ⟨m :: stack, .push hpath ?_⟩
        rw [automaton, Automaton.edges_withTuples, Automaton.edges, hs]
        exact he

end Productions

/-! ## The edges of a grammar -/

/-- The edges of an automaton realise the restrictions of its productions exactly. -/
structure Automaton.Exact (a : Automaton) (g : Productions) : Prop where
  /-- On a terminal behind a dot there is one edge, and it advances every item before
  the terminal. -/
  terminal : ∀ {b : Nat} {s : Symbol}, s.isTerminal = true →
    (∃ i ∈ a.items b, g.nextSymbol i = some s) →
    ∃ e, a.edgesOn b s = [e] ∧ IsAscending (a.kernel e.target) ∧
      ∀ j, j ∈ a.kernel e.target ↔ ∃ i ∈ a.items b, g.nextSymbol i = some s ∧ j = i.advance
  /-- A production of a non-terminal that begins in a state passes the filter of one
  edge on the non-terminal, and that edge advances the items whose slot accepts the
  production. -/
  nonTerminal : ∀ {b : Nat} {s : Symbol} {c : Nat}, s.kind = .nonTerminal →
    g.head? c = some s → Item.initial c ∈ a.items b →
    ∃ e, (a.edgesOn b s).filter (·.filter.accepts c) = [e] ∧
      a.kernel e.target ≠ [] ∧ IsAscending (a.kernel e.target) ∧
      ∀ j, j ∈ a.kernel e.target ↔ ∃ p d, (⟨p, d⟩ : Item) ∈ a.items b ∧
        g.nextSymbol ⟨p, d⟩ = some s ∧ g.accepts p d c = true ∧ j = ⟨p, d + 1⟩
  /-- Different states have different kernels. -/
  kernel_ne : ∀ {n m : Nat}, n < a.count → m < a.count → n ≠ m → a.kernel n ≠ a.kernel m
  /-- Every state is reached from the start over edges. -/
  reached : ∀ {n : Nat}, n < a.count → ∃ stack, a.Path (n :: stack)
  /-- There is no edge on a symbol that stands behind no dot. -/
  behind_dot : ∀ {b : Nat} {s : Symbol}, (∀ i ∈ a.items b, g.nextSymbol i ≠ some s) →
    a.edgesOn b s = []

namespace Productions

variable {g : Productions} {start : Symbol} {n : Nat}

/-- The kernels of the construction are ascending. -/
theorem isAscending_kernel (hg : g.WellFormed start) (hn : n < g.automaton.count) :
    IsAscending (g.automaton.kernel n) := by
  obtain ⟨cores, hex, -⟩ := explored_skeleton hg
  rw [automaton, Automaton.count_withTuples] at hn
  rw [automaton, Automaton.kernel_withTuples]
  exact (hex.isKernel hn).ascending

theorem automaton_exact (hg : g.WellFormed start) : g.automaton.Exact g := by
  have ha := automaton_realises hg
  have hasc : ∀ {b : Nat} {s : Symbol} {e : Edge}, e ∈ g.automaton.edgesOn b s →
      IsAscending (g.automaton.kernel e.target) := fun he =>
    isAscending_kernel hg (ha.target_lt (Automaton.Realises.mem_edgesOn.1 he).1)
  refine ⟨?_, ?_, ?_, exists_path hg, ?_⟩
  · intro b s ht hs
    obtain ⟨e, he, hk⟩ := ha.edgesOn_terminal ht hs
    refine ⟨e, he, hasc (he ▸ List.mem_singleton_self e), fun j => ?_⟩
    simp only [hk, List.mem_map, mem_before, and_assoc, eq_comm (a := j)]
  · intro b s c hs hh hc
    have ht : s.isTerminal = false := by rw [Symbol.isTerminal, hs]; rfl
    have h0 : c ≠ 0 := by
      rintro rfl
      rw [hg.head?_zero, Option.some.injEq] at hh
      rw [← hh] at hs
      cases hs
    obtain ⟨e, he, hk⟩ := ha.edgesOn_accepts ht h0 hh hc
    have hmem : ∀ j, j ∈ g.automaton.kernel e.target ↔ ∃ p d,
        (⟨p, d⟩ : Item) ∈ g.automaton.items b ∧ g.nextSymbol ⟨p, d⟩ = some s ∧
          g.accepts p d c = true ∧ j = ⟨p, d + 1⟩ := by
      intro j
      rw [hk, mem_kernelOver]
      constructor
      · rintro ⟨⟨p, d⟩, hi, had, hj⟩
        obtain ⟨hi, hn⟩ := mem_before.1 hi
        exact ⟨p, d, hi, hn, had, hj⟩
      · rintro ⟨p, d, hi, hn, had, hj⟩
        exact ⟨⟨p, d⟩, mem_before.2 ⟨hi, hn⟩, had, hj⟩
    refine ⟨e, he, ?_, hasc (List.mem_filter.1 (he ▸ List.mem_singleton_self e)).1, hmem⟩
    obtain ⟨⟨p, d⟩, hi, s', hn, hh', had⟩ := ha.opened hc h0
    rw [hh, Option.some.injEq] at hh'
    subst hh'
    exact List.ne_nil_of_mem ((hmem _).2 ⟨p, d, hi, hn, had, rfl⟩)
  · exact fun hn hm hne hk => hne (ha.kernel_injective hn hm hk)
  · intro b s hs
    refine List.eq_nil_iff_forall_not_mem.2 fun e he => ?_
    obtain ⟨he, hes⟩ := Automaton.Realises.mem_edgesOn.1 he
    obtain ⟨i, hi, hn⟩ := ha.exists_item he
    exact hs i hi (hes ▸ hn)

end Productions

/-- **The automaton of every grammar realises the restrictions of its slots
exactly.** -/
theorem Grammar.exact_of_normalize {grammar : Grammar} {g : Productions}
    (h : grammar.normalize = .ok g) : g.automaton.Exact g :=
  Productions.automaton_exact (wellFormed_of_normalize h)

/-- A slot that accepts one of three rules, next to one that accepts all of them. -/
def Grammar.masked : Grammar where
  start := .nonTerminal 0
  rules :=
    [⟨.nonTerminal 0, [.symbol (.nonTerminal 1), .marker (.mask 1), .symbol (.terminal 0)],
        0, false⟩,
      ⟨.nonTerminal 0, [.symbol (.nonTerminal 1), .symbol (.terminal 1)], 0, false⟩,
      ⟨.nonTerminal 1, [.symbol (.terminal 2)], 1, false⟩,
      ⟨.nonTerminal 1, [.symbol (.terminal 3)], 0, false⟩,
      ⟨.nonTerminal 1, [.symbol (.terminal 4)], 0, false⟩]
  priorities := []

/-- At the start, filters of all three forms occur. -/
theorem Grammar.exact_of_normalize_masked : ∃ g, masked.normalize = .ok g ∧
    g.automaton.Exact g ∧
    (g.automaton.edges 0).map (fun e => (e.symbol, e.filter)) =
      [(.terminal 2, .all), (.terminal 3, .all), (.terminal 4, .all), (.nonTerminal 0, .all),
        (.nonTerminal 1, ⟨[3], false⟩), (.nonTerminal 1, ⟨[3], true⟩)] := by
  obtain ⟨g, hg, hedges⟩ := map_eq_ok.1 (show masked.normalize.map (fun g =>
      (g.automaton.edges 0).map fun e => (e.symbol, e.filter)) = .ok
        [(.terminal 2, .all), (.terminal 3, .all), (.terminal 4, .all), (.nonTerminal 0, .all),
          (.nonTerminal 1, ⟨[3], false⟩), (.nonTerminal 1, ⟨[3], true⟩)] by decide +kernel)
  exact ⟨g, hg, exact_of_normalize hg, hedges⟩

end BoundedLR
