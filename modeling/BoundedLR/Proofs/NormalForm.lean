import BoundedLR.Grammar.Normalize
import BoundedLR.Item
import BoundedLR.Proofs.Sequencing

/-!
# What a normal form guarantees

The theory of the automaton needs little of how a grammar was normalised, and
what it needs is collected in `Productions.WellFormed`: production `0` is the
synthetic one, every other production derives from a non-terminal, and nothing
synthetic stands in the body of another production.  So the start marker stands
in no slot at all, and the end of input in one slot only.
-/

namespace BoundedLR

/-- The shape of the productions of a normal form. -/
structure Productions.WellFormed (g : Productions) (start : Symbol) : Prop where
  start_kind : start.kind = .nonTerminal
  accepting : g.all[0]? = some (acceptingProduction start)
  head_kind : ∀ {p : Nat} {production : Production}, g.all[p + 1]? = some production →
    production.head.kind = .nonTerminal
  not_reserved : ∀ {p : Nat} {production : Production}, g.all[p + 1]? = some production →
    ∀ slot ∈ production.slots, slot.symbol.isReserved = false

/-! ## The checks of a rule -/

/-- No synthetic symbol passes the attachment of markers. -/
theorem Rule.not_isReserved_of_attachMarkers {done out : List MarkedSymbol}
    {body : List BodyElement} (h : Rule.attachMarkers done body = .ok out)
    (hd : ∀ m ∈ done, m.symbol.isReserved = false) : ∀ m ∈ out, m.symbol.isReserved = false := by
  induction done, body using Rule.attachMarkers.induct with
  | case1 done =>
      rw [Rule.attachMarkers, Except.ok.injEq] at h
      subst h
      exact fun m hm => hd m (List.mem_reverse.1 hm)
  | case2 done s rest hs =>
      rw [Rule.attachMarkers, if_pos hs] at h
      cases h
  | case3 done s rest hs ih =>
      rw [Rule.attachMarkers, if_neg hs] at h
      refine ih h fun m hm => ?_
      rcases List.mem_cons.1 hm with rfl | hm
      · exact Bool.eq_false_iff.2 hs
      · exact hd m hm
  | case4 s markers done m rest hs ih =>
      rw [Rule.attachMarkers, if_pos hs] at h
      refine ih h fun n hn => ?_
      rcases List.mem_cons.1 hn with rfl | hn
      · exact hd ⟨s, markers⟩ List.mem_cons_self
      · exact hd n (List.mem_cons_of_mem _ hn)
  | case5 s markers done m rest hs =>
      rw [Rule.attachMarkers, if_neg hs] at h
      cases h
  | case6 m rest =>
      rw [Rule.attachMarkers] at h
      cases h

/-- A rule with a well-formed body has a non-terminal as its head, and no
synthetic symbol in its body. -/
theorem Rule.markedBody_spec {r : Rule} {body : List MarkedSymbol} (h : r.markedBody = .ok body) :
    r.head.kind = .nonTerminal ∧ ∀ m ∈ body, m.symbol.isReserved = false := by
  unfold Rule.markedBody at h
  split at h
  · cases h
  · cases h
  · cases h
  · rename_i hk
    exact ⟨hk, Rule.not_isReserved_of_attachMarkers h fun m hm => absurd hm List.not_mem_nil⟩

theorem symbol_of_slotOf {rules : List MarkedRule} {priorities : List PriorityLevel}
    {r : MarkedRule} {rule place : Nat} {m : MarkedSymbol} {slot : Slot}
    (h : slotOf rules priorities r rule m place = .ok slot) : slot.symbol = m.symbol := by
  unfold slotOf at h
  split at h
  · rw [← Except.ok.inj h]
  · dsimp only at h
    split at h
    · cases h
    · rw [← Except.ok.inj h]

/-- A production keeps the head and the symbols of its rule. -/
theorem productionOf_spec {rules : List MarkedRule} {priorities : List PriorityLevel}
    {r : MarkedRule} {rule : Nat} {production : Production}
    (h : productionOf rules priorities r rule = .ok production) :
    production.head = r.head ∧ ∀ slot ∈ production.slots, ∃ m ∈ r.body, slot.symbol = m.symbol := by
  unfold productionOf at h
  obtain ⟨slots, hslots, h⟩ := bind_eq_ok.1 h
  rw [← Except.ok.inj h]
  refine ⟨rfl, fun slot hslot => ?_⟩
  obtain ⟨x, hx, hsymbol⟩ := forall₂_mem_right (mapM_eq_ok.1 hslots) hslot
  exact ⟨x.1, List.fst_mem_of_mem_zipIdx hx, symbol_of_slotOf hsymbol⟩

theorem blameRule_eq_ok {α : Type} {rule : Nat} {x : Except RuleFault α} {a : α} :
    blameRule rule x = .ok a ↔ x = .ok a := by
  cases x <;> simp [blameRule]

/-! ## The whole grammar -/

/-- What a rule is with its markers attached. -/
def Rule.MarkedAs (r : Rule) (marked : MarkedRule) : Prop :=
  ∃ body, r.markedBody = .ok body ∧ marked = ⟨r.head, r.mask, r.predict, body⟩

/-- What a normal form is made of: the rules with their markers attached, and a
production for each of them.  Normalising succeeds whenever these can be made and no
operator stands in two levels. -/
theorem Grammar.normalize_eq_ok {grammar : Grammar} {g : Productions} :
    grammar.normalize = .ok g ↔ grammar.start.kind = .nonTerminal ∧
      priorityClash? grammar.priorities = none ∧
      ∃ (rules : List MarkedRule) (productions : List Production),
        List.Forall₂ Rule.MarkedAs grammar.rules rules ∧
        List.Forall₂ (fun x production =>
          productionOf rules grammar.priorities x.1 x.2 = .ok production) rules.zipIdx
            productions ∧
        g.all = (acceptingProduction grammar.start :: productions).toArray := by
  unfold Grammar.normalize
  by_cases hstart : grammar.start.kind ≠ .nonTerminal
  · rw [if_pos hstart]
    exact iff_of_false (fun h => nomatch h) fun h => hstart h.1
  rw [if_neg hstart]
  constructor
  · intro h
    obtain ⟨-, -, h⟩ := bind_eq_ok.1 h
    obtain ⟨rules, hrules, h⟩ := bind_eq_ok.1 h
    cases hclash : priorityClash? grammar.priorities with
    | some clash =>
        rw [hclash] at h
        cases h
    | none =>
        rw [hclash] at h
        obtain ⟨productions, hproductions, h⟩ := bind_eq_ok.1 h
        refine ⟨Classical.not_not.1 hstart, rfl, rules, productions, ?_, ?_, ?_⟩
        · rw [← List.zipIdx_map_fst 0 grammar.rules, List.forall₂_map_left_iff]
          refine (mapM_eq_ok.1 hrules).imp fun x r hr => ?_
          obtain ⟨body, hbody, hr⟩ := bind_eq_ok.1 hr
          exact ⟨body, blameRule_eq_ok.1 hbody, (Except.ok.inj hr).symm⟩
        · exact (mapM_eq_ok.1 hproductions).imp fun x production hx => blameRule_eq_ok.1 hx
        · rw [← Except.ok.inj h]
  · rintro ⟨-, hclash, rules, productions, hrules, hproductions, hg⟩
    refine bind_eq_ok.2 ⟨rules, ?_, ?_⟩
    · rw [← List.zipIdx_map_fst 0 grammar.rules, List.forall₂_map_left_iff] at hrules
      refine mapM_eq_ok.2 (hrules.imp fun x r hr => ?_)
      obtain ⟨body, hbody, rfl⟩ := hr
      exact bind_eq_ok.2 ⟨body, blameRule_eq_ok.2 hbody, rfl⟩
    · rw [hclash]
      refine bind_eq_ok.2 ⟨productions, mapM_eq_ok.2 (hproductions.imp fun x production hx =>
        blameRule_eq_ok.2 hx), ?_⟩
      rw [← hg]
      rfl

/-- **The production of a rule.**  The rules get their markers attached, and from each of
them a production is made; besides these there is the synthetic production only. -/
theorem Grammar.exists_rules_of_normalize {grammar : Grammar} {g : Productions}
    (h : grammar.normalize = .ok g) : g.count = grammar.rules.length + 1 ∧
      ∃ rules : List MarkedRule, List.Forall₂ Rule.MarkedAs grammar.rules rules ∧
        ∀ (i : Nat) (r : MarkedRule), rules[i]? = some r → ∃ production,
          productionOf rules grammar.priorities r i = .ok production ∧
            g.all[productionOfRule i]? = some production := by
  obtain ⟨-, -, rules, productions, hrules, hproductions, hg⟩ := normalize_eq_ok.1 h
  refine ⟨?_, rules, hrules, fun i r hi => ?_⟩
  · rw [Productions.count, hg, List.size_toArray, List.length_cons, ← hproductions.length_eq,
      List.length_zipIdx, ← hrules.length_eq]
  · obtain ⟨production, hp, hproduction⟩ := forall₂_getElem?_left hproductions
      (n := i) (x := (r, i)) (by simp [List.getElem?_zipIdx, hi])
    refine ⟨production, hproduction, ?_⟩
    rw [hg, productionOfRule, List.getElem?_toArray, List.getElem?_cons_succ, hp]

/-- **Normalising succeeds only with well-formed productions.** -/
theorem Grammar.wellFormed_of_normalize {grammar : Grammar} {g : Productions}
    (h : grammar.normalize = .ok g) : g.WellFormed grammar.start := by
  obtain ⟨hstart, -, rules, productions, hrules, hproductions, hg⟩ := normalize_eq_ok.1 h
  have hmarked : ∀ r ∈ rules, r.head.kind = .nonTerminal ∧
      ∀ m ∈ r.body, m.symbol.isReserved = false := by
    intro r hr
    obtain ⟨rule, -, body, hbody, rfl⟩ := forall₂_mem_right hrules hr
    exact Rule.markedBody_spec hbody
  have hsucc : ∀ {p : Nat} {production : Production}, g.all[p + 1]? = some production →
      ∃ r ∈ rules, production.head = r.head ∧
        ∀ slot ∈ production.slots, ∃ m ∈ r.body, slot.symbol = m.symbol := by
    intro p production hp
    rw [hg, List.getElem?_toArray, List.getElem?_cons_succ] at hp
    obtain ⟨x, hx, hproduction⟩ := forall₂_mem_right hproductions (List.mem_of_getElem? hp)
    exact ⟨x.1, List.fst_mem_of_mem_zipIdx hx, productionOf_spec hproduction⟩
  refine ⟨hstart, ?_, ?_, ?_⟩
  · rw [hg]
    rfl
  · intro p production hp
    obtain ⟨r, hr, hhead, -⟩ := hsucc hp
    rw [hhead]
    exact (hmarked r hr).1
  · intro p production hp slot hslot
    obtain ⟨r, hr, -, hslots⟩ := hsucc hp
    obtain ⟨m, hm, hs⟩ := hslots slot hslot
    rw [hs]
    exact (hmarked r hr).2 m hm

/-! ## Where the synthetic symbols stand -/

namespace Productions
namespace WellFormed

variable {g : Productions} {start : Symbol}

theorem slots_zero (hg : g.WellFormed start) :
    g.slots 0 = [⟨start, none⟩, ⟨.endOfInput, none⟩] := by
  rw [slots, hg.accepting]
  rfl

theorem length_zero (hg : g.WellFormed start) : g.length 0 = 2 := by
  rw [length, hg.slots_zero]
  rfl

theorem head?_zero (hg : g.WellFormed start) : g.head? 0 = some .start := by
  rw [head?, hg.accepting]
  rfl

/-- Every production but the synthetic one derives from a non-terminal. -/
theorem kind_of_head? (hg : g.WellFormed start) {p : Nat} {s : Symbol}
    (h : g.head? p = some s) (hp : p ≠ 0) : s.kind = .nonTerminal := by
  obtain ⟨production, hproduction, rfl⟩ := Option.map_eq_some_iff.1 h
  obtain ⟨q, rfl⟩ := Nat.exists_eq_succ_of_ne_zero hp
  exact hg.head_kind hproduction

theorem isTerminal_of_head? (hg : g.WellFormed start) {p : Nat} {s : Symbol}
    (h : g.head? p = some s) (hp : p ≠ 0) : s.isTerminal = false := by
  rw [Symbol.isTerminal, hg.kind_of_head? h hp]
  rfl

/-- What stands in a slot: the two symbols of the synthetic production, or
nothing synthetic. -/
theorem symbol_of_slot? (hg : g.WellFormed start) {p e : Nat} {slot : Slot}
    (h : g.slot? p e = some slot) :
    (p = 0 ∧ e = 0 ∧ slot = ⟨start, none⟩) ∨ (p = 0 ∧ e = 1 ∧ slot = ⟨.endOfInput, none⟩) ∨
      (p ≠ 0 ∧ slot.symbol.isReserved = false) := by
  cases p with
  | zero =>
      rw [slot?, hg.slots_zero] at h
      rcases e with - | - | e
      · exact .inl ⟨rfl, rfl, (Option.some.inj h).symm⟩
      · exact .inr (.inl ⟨rfl, rfl, (Option.some.inj h).symm⟩)
      · cases h
  | succ p =>
      refine .inr (.inr ⟨Nat.succ_ne_zero p, ?_⟩)
      rw [slot?, slots] at h
      split at h
      · rename_i production hproduction
        exact hg.not_reserved hproduction slot (List.mem_of_getElem? h)
      · cases h

/-- The start marker stands in no slot. -/
theorem symbol_ne_start (hg : g.WellFormed start) {p e : Nat} {slot : Slot}
    (h : g.slot? p e = some slot) : slot.symbol ≠ .start := by
  intro hs
  have hk : slot.symbol.kind = .start := congrArg Symbol.kind hs
  rcases hg.symbol_of_slot? h with ⟨-, -, rfl⟩ | ⟨-, -, rfl⟩ | ⟨-, hr⟩
  · have hstart : start.kind = .start := hk
    rw [hg.start_kind] at hstart
    cases hstart
  · cases hk
  · rw [Symbol.isReserved, hk] at hr
    cases hr

/-- A production that may complete a slot is one of the author's. -/
theorem ne_zero_of_head?_slot (hg : g.WellFormed start) {p e c : Nat} {slot : Slot}
    (h : g.slot? p e = some slot) (hc : g.head? c = some slot.symbol) : c ≠ 0 := by
  rintro rfl
  rw [hg.head?_zero, Option.some.injEq] at hc
  exact hg.symbol_ne_start h hc.symm

/-- The end of input stands in the last slot of the synthetic production only. -/
theorem eq_zero_of_slot?_endOfInput (hg : g.WellFormed start) {p e : Nat} {slot : Slot}
    (h : g.slot? p e = some slot) (hs : slot.symbol = .endOfInput) : p = 0 ∧ e = 1 := by
  rcases hg.symbol_of_slot? h with ⟨-, -, rfl⟩ | ⟨hp, he, -⟩ | ⟨-, hr⟩
  · have hk : start.kind = .endOfInput := congrArg Symbol.kind hs
    rw [hg.start_kind] at hk
    cases hk
  · exact ⟨hp, he⟩
  · rw [hs] at hr
    cases hr

/-- No symbol stands behind the dot of the complete synthetic item. -/
theorem nextSymbol_complete (hg : g.WellFormed start) : g.nextSymbol ⟨0, 2⟩ = none := by
  rw [nextSymbol, slot?, hg.slots_zero]
  rfl

/-- Reducing a production accepts the input exactly if it is the synthetic one. -/
theorem property_accepts_iff (hg : g.WellFormed start) {p : Nat} (hp : p < g.count) :
    (g.property p).accepts = true ↔ p = 0 := by
  obtain ⟨production, hproduction⟩ : ∃ production, g.all[p]? = some production :=
    ⟨_, Array.getElem?_eq_getElem hp⟩
  have hprop : (g.property p).accepts = (production.head == .start) := by
    rw [property, hproduction]
    rfl
  rw [hprop, beq_iff_eq]
  constructor
  · intro hs
    by_contra hne
    have hh : g.head? p = some .start := by rw [head?, hproduction, Option.map_some, hs]
    have hk := hg.kind_of_head? hh hne
    cases hk
  · rintro rfl
    rw [hg.accepting] at hproduction
    rw [← Option.some.inj hproduction]
    rfl

end WellFormed

/-- How many elements a reduction pops. -/
theorem count_property (g : Productions) {p : Nat} (hp : p < g.count) :
    (g.property p).count = g.length p := by
  obtain ⟨production, hproduction⟩ : ∃ production, g.all[p]? = some production :=
    ⟨_, Array.getElem?_eq_getElem hp⟩
  rw [property, length, slots, hproduction]

end Productions

end BoundedLR
