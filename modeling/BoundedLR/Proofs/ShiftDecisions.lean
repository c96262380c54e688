import BoundedLR.Proofs.CompiledNodes

/-!
# A trie only shifts what the state can shift

Whatever a parser has looked at when a trie tells it to shift, the token to be
shifted is the first that it has looked at, and the state has an edge on it.  So
a decision to shift is sound no matter how the choices were told apart: lookahead
decides whether to shift, but not what.
-/

namespace BoundedLR

namespace Contest

variable {k : Contest} {choice : Choice} {c : Continuation} {path word : List Symbol}
  {continuations : List Continuation} {s : Symbol} {trie level : Trie Decision}
  {decision : Decision}

/-! ## Continuations begin with terminals -/

theorem isTerminal_of_mem_shifts {stack : PartialStack} (h : c ∈ k.shifts choice stack) :
    c.symbol.isTerminal = true := by
  rw [shifts] at h
  split at h
  · exact absurd h List.not_mem_nil
  · obtain ⟨e, he, rfl⟩ := List.mem_map.1 h
    exact (Automaton.Realises.mem_terminalEdges.1 he).2

theorem choice_of_mem_shifts {stack : PartialStack} (h : c ∈ k.shifts choice stack) :
    c.choice = choice := by
  rw [shifts] at h
  split at h
  · exact absurd h List.not_mem_nil
  · obtain ⟨e, -, rfl⟩ := List.mem_map.1 h
    rfl

/-- What holds of every shift on the stacks that reductions lead to holds of all that
following a choice finds. -/
theorem found_of_visit {R : PartialStack → Prop} {Q : Continuation → Prop}
    (hR : ∀ stack, R stack → ∀ p ∈ k.reducible stack,
      ∀ next ∈ stack.reduce k.automaton k.productions p, R next)
    (hQ : ∀ stack, R stack → ∀ c ∈ k.shifts choice stack, Q c)
    {depth : Nat} {trail : List PartialStack} {reduced : List Nat} {settled : Nat}
    {stack : PartialStack} {survey after : Survey} (hstack : R stack)
    (hs : ∀ c ∈ survey.found, Q c)
    (h : k.visit choice depth trail reduced settled stack survey = .ok after) :
    ∀ c ∈ after.found, Q c := by
  induction depth generalizing trail reduced settled stack survey after with
  | zero =>
      cases Except.ok.inj h
      exact hs
  | succ depth ih =>
      rw [visit] at h
      split at h
      · cases h
      · split at h
        · cases Except.ok.inj h
          exact hs
        · refine foldlM_keeps (P := fun survey => ∀ c ∈ survey.found, Q c)
            (fun survey p survey' hp hs h => ?_) ?_ h
          · exact foldlM_keeps (P := fun survey => ∀ c ∈ survey.found, Q c)
              (fun survey next survey' hnext hs h => ih (hR stack hstack p hp next hnext) hs h) hs h
          · intro c hc
            rcases List.mem_append.1 hc with hc | hc
            · exact hQ stack hstack c hc
            · exact hs c hc

theorem found_of_follow {Q : Continuation → Prop} (hQ : ∀ stack, ∀ c ∈ k.shifts choice stack, Q c)
    {lookahead : List Symbol} {via : List Nat} {stack : PartialStack}
    {found : List Continuation} (h : k.follow lookahead choice via stack = .ok found) :
    ∀ c ∈ found, Q c := by
  rw [follow] at h
  split at h
  · rename_i survey hsurvey
    cases Except.ok.inj h
    exact found_of_visit (R := fun _ => True) (fun _ _ _ _ _ _ => trivial) (fun stack _ => hQ stack)
      trivial (fun c hc => absurd hc List.not_mem_nil) hsurvey
  · cases h

theorem found_of_followReduction {Q : Continuation → Prop} {index p : Nat}
    (hQ : ∀ stack, ∀ c ∈ k.shifts (.reduce index) stack, Q c) {found : List Continuation}
    (h : k.followReduction index p = .ok found) : ∀ c ∈ found, Q c := by
  rw [followReduction] at h
  split at h
  · cases Except.ok.inj h
    exact fun c hc => absurd hc List.not_mem_nil
  · obtain ⟨found', hfound, h⟩ := bind_eq_ok.1 h
    cases Except.ok.inj h
    intro c hc
    obtain ⟨l, hl, hcl⟩ := List.mem_flatten.1 hc
    obtain ⟨stack, -, hstack⟩ := forall₂_mem_right (mapM_eq_ok.1 hfound) hl
    exact found_of_follow hQ hstack c hcl

/-! ## Decisions -/

/-- The trie of a state is built from the continuations of its shifts and of its
reductions. -/
theorem settle_eq_ok (h : k.settle = .ok trie) : ∃ levels found, k.bound = levels + 1 ∧
    List.Forall₂ (fun x found => k.followReduction x.2 x.1.production = .ok found)
      (k.automaton.reductions k.state).zipIdx found ∧
    k.split levels [] (k.shifts .shift (.single k.state) ++ found.flatten) = .ok trie := by
  rw [settle] at h
  split at h
  · cases h
  · rename_i levels hbound
    obtain ⟨found, hfound, h⟩ := bind_eq_ok.1 h
    exact ⟨levels, found, hbound, mapM_eq_ok.1 hfound, h⟩

/-- What a trie settles on at the end of a way down is a decision about the symbols
on the way. -/
theorem decision_of_walk {levels : Nat} (h : k.split levels path continuations = .ok trie)
    (hw : trie.walk word = some level) (hs : level.find? s = some (.settled decision)) :
    ∃ choice, k.decision? (path ++ (word ++ [s])) choice = some decision := by
  induction word generalizing levels path continuations trie with
  | nil =>
      cases hw
      have hsays := find?_split h s
      rw [hs] at hsays
      cases hsays with
      | settled _ hd => exact ⟨_, hd⟩
  | cons r word ih =>
      have hsays := find?_split h r
      rw [Trie.walk] at hw
      split at hw
      · rename_i below hbelow
        rw [hbelow] at hsays
        cases hsays with
        | deeper _ _ _ _ _ hsplit =>
            obtain ⟨choice, hc⟩ := ih hsplit hw
            refine ⟨choice, ?_⟩
            rw [List.append_assoc] at hc
            exact hc
      · cases hw

/-- The root level only has entries for symbols that a continuation begins with. -/
theorem exists_continuation_of_walk {levels : Nat} {entry : TrieEntry Decision}
    (h : k.split levels path continuations = .ok trie) (hw : trie.walk word = some level)
    (hs : level.find? s = some entry) :
    ∃ first, (word ++ [s]).head? = some first ∧ ∃ c ∈ continuations, c.symbol = first := by
  have hroot : ∀ r entry, trie.find? r = some entry → ∃ c ∈ continuations, c.symbol = r := by
    intro r entry hr
    have hsays := find?_split h r
    rw [hr] at hsays
    cases hsays with
    | @settled choice _ hc _ =>
        have hmem : choice ∈ remaining continuations r := by
          rw [hc]
          exact List.mem_singleton_self choice
        obtain ⟨c, hc, hcs, -⟩ := mem_remaining.1 hmem
        exact ⟨c, hc, hcs⟩
    | deeper _ _ hex => exact hex
  cases word with
  | nil =>
      cases hw
      exact ⟨s, rfl, hroot s entry hs⟩
  | cons r word =>
      rw [Trie.walk] at hw
      split at hw
      · rename_i below hbelow
        exact ⟨r, rfl, hroot r _ hbelow⟩
      · cases hw

end Contest

/-! ## Shifts of a compiled state -/

namespace Parser
namespace Compiled

variable {p : Parser} {start : Symbol} {n target : Nat} {root level : Trie Decision}
  {word : List Symbol} {s : Symbol} {predict : Bool}

/-- **A decision to shift is sound.**  It concerns the first symbol that has been
looked at, which is a terminal, and leads where the automaton shifts it. -/
theorem shift_of_walk (hp : p.Compiled start) (hroot : p.table.root n = .ok root)
    (hw : root.walk word = some level)
    (hs : level.find? s = some (.settled (.shift target predict))) :
    ∃ first, (word ++ [s]).head? = some first ∧ first.isTerminal = true ∧
      p.automaton.shift n first = some target ∧ predict = p.announces target := by
  obtain ⟨node, hnode, hfor, rfl⟩ := hp.root_eq_ok hroot
  cases hfor with
  | reduces _ _ _ hdone =>
      rw [hdone] at hw
      cases word with
      | nil =>
          cases hw
          cases hs
      | cons r word => cases hw
  | shifts _ _ htrie =>
      rw [htrie] at hw
      obtain rfl := eq_nil_of_walk_shiftTrie hw
      cases hw
      rw [find?_shiftTrie] at hs
      obtain ⟨e, he, hentry⟩ := Option.map_eq_some_iff.1 hs
      cases hentry
      have hes : e.symbol = s := by simpa using List.find?_some he
      obtain ⟨hmem, hterm⟩ :=
        Automaton.Realises.mem_terminalEdges.1 (List.mem_of_find?_eq_some he)
      rw [hes] at hterm
      exact ⟨s, rfl, hterm, (hp.realises.shift_eq_some_iff hterm).2 ⟨e, hmem, hes, rfl⟩, rfl⟩
  | settled _ _ hsettle =>
      obtain ⟨levels, found, -, hfound, hsplit⟩ := Contest.settle_eq_ok hsettle
      obtain ⟨choice, hdecision⟩ := Contest.decision_of_walk hsplit hw hs
      obtain ⟨first, hfirst, c, hc, hcs⟩ := Contest.exists_continuation_of_walk hsplit hw hs
      have hterm : c.symbol.isTerminal = true := by
        rcases List.mem_append.1 hc with hc | hc
        · exact Contest.isTerminal_of_mem_shifts hc
        · obtain ⟨l, hl, hcl⟩ := List.mem_flatten.1 hc
          obtain ⟨x, -, hx⟩ := forall₂_mem_right hfound hl
          exact Contest.found_of_followReduction (fun _ _ => Contest.isTerminal_of_mem_shifts)
            hx c hcl
      refine ⟨first, hfirst, hcs ▸ hterm, ?_⟩
      cases choice with
      | reduce index => cases hdecision
      | shift =>
          rw [List.nil_append, Contest.decision?, hfirst] at hdecision
          obtain ⟨t, ht, heq⟩ := Option.map_eq_some_iff.1 hdecision
          cases heq
          exact ⟨ht, rfl⟩

end Compiled
end Parser
end BoundedLR
