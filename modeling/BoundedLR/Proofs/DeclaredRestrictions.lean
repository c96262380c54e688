import BoundedLR.Proofs.NormalizedRules

/-!
# What an author declares

A grammar is well formed if a few conditions hold of what its author wrote, and then every
place of a body accepts the rules that its markers or the priorities leave there.  Here
both are said in the author's terms: nothing in `Grammar.WellFormed`, `Rule.HasLevel` or
`Rule.Rejects` mentions productions, slots or the order in which anything is checked.

`Grammar.wellFormed_iff_and_restricts` says that normalising does just this.  It succeeds
exactly on the well-formed grammars, and the productions that it then returns carry the
declared restrictions (`Grammar.Restricts`).

The words of the two sides are matched first (`Rule.MarkedAs.level?_eq_some_iff` and its
neighbours), then the check of the markers (`admitted_ne_nil_iff_fits`), and last the
filters (`Rule.MarkedAs.rejects_iff`).
-/

namespace BoundedLR

/-! ## Well-formed grammars -/

/-- A marker behind `s` in the body of a rule names some rule: the rule itself, if `s` is
its head, or those of `s` with a certain mask, if there are any. -/
def Marker.Fits (grammar : Grammar) (r : Rule) (s : Symbol) : Marker → Prop
  | itself => s = r.head
  | .mask m => ∃ other ∈ grammar.rules, other.head = s ∧ other.mask = m

/-- What is asked of a grammar. -/
structure Grammar.WellFormed (grammar : Grammar) : Prop where
  start_kind : grammar.start.kind = .nonTerminal
  head_kind : ∀ r ∈ grammar.rules, r.head.kind = .nonTerminal
  symbol_kind : ∀ r ∈ grammar.rules, ∀ s, .symbol s ∈ r.body →
    s.kind ≠ .start ∧ s.kind ≠ .endOfInput
  /-- A marker stands behind a non-terminal, possibly with other markers in between, and
  names some rule of it. -/
  marker : ∀ r ∈ grammar.rules, ∀ before k after, r.body = before ++ .marker k :: after →
    ∃ s, (symbolsOf before).getLast? = some s ∧ s.kind = .nonTerminal ∧ k.Fits grammar r s
  /-- No symbol is declared in two levels. -/
  level : ∀ s m n, Declared grammar.priorities s m → Declared grammar.priorities s n → m = n

/-! ## Priorities between rules -/

namespace Rule

/-- The level of a rule: that of the first symbol of its body that has been declared. -/
def HasLevel (priorities : List PriorityLevel) (r : Rule) (level : Nat) : Prop :=
  ∃ before s after, r.symbols = before ++ s :: after ∧ Declared priorities s level ∧
    ∀ t ∈ before, ∀ m, ¬Declared priorities t m

/-- The first symbol of a rule is an operand: there are other symbols, and it is the head
again. -/
def LeftOperand (r : Rule) : Prop := 2 ≤ r.symbols.length ∧ r.symbols.head? = some r.head

/-- The last symbol of a rule is an operand. -/
def RightOperand (r : Rule) : Prop := 2 ≤ r.symbols.length ∧ r.symbols.getLast? = some r.head

/-- The priorities keep a rule out of place `e` of another one.  The left operand rejects
rules with a right operand and the right operand rules with a left one, if they have a
lower level, or the same and this level groups the other way. -/
def Rejects (priorities : List PriorityLevel) (r : Rule) (e : Nat) (other : Rule) : Prop :=
  ∃ level priority otherLevel, r.HasLevel priorities level ∧
    priorities[level]? = some priority ∧ other.HasLevel priorities otherLevel ∧
    (e = 0 ∧ r.LeftOperand ∧ other.RightOperand ∧
        (otherLevel < level ∨ otherLevel = level ∧ priority.associativity = .right) ∨
      e + 1 = r.symbols.length ∧ r.RightOperand ∧ other.LeftOperand ∧
        (otherLevel < level ∨ otherLevel = level ∧ priority.associativity = .left))

/-- A rule is rejected at a place that repeats the head. -/
theorem Rejects.symbols_getElem? {priorities : List PriorityLevel} {r other : Rule} {e : Nat}
    (h : r.Rejects priorities e other) : r.symbols[e]? = some r.head := by
  obtain ⟨_, _, _, -, -, -, ⟨rfl, hleft, -⟩ | ⟨he, hright, -⟩⟩ := h
  · rw [← List.head?_eq_getElem?]
    exact hleft.2
  · rw [Nat.eq_sub_of_add_eq he, ← List.getLast?_eq_getElem?]
    exact hright.2

/-- The symbol at a place. -/
theorem Places.symbols_getElem? {r : Rule} {e : Nat} {s : Symbol} {markers : List Marker}
    (h : r.Places e s markers) : r.symbols[e]? = some s := by
  obtain ⟨before, after, hbody, rfl, -⟩ := h
  rw [symbols, hbody, symbolsOf_append, symbolsOf_symbol,
    List.getElem?_append_right (Nat.le_refl _), Nat.sub_self]
  rfl

end Rule

/-! ## The restrictions of a normal form -/

/-- Productions that stand for the rules of a grammar and carry the restrictions declared
for their places. -/
structure Grammar.Restricts (grammar : Grammar) (g : Productions) : Prop where
  count : g.count = grammar.rules.length + 1
  /-- The synthetic production, which restricts nothing. -/
  accepting : g.all[0]? = some (acceptingProduction grammar.start)
  head : ∀ {i : Nat} {r : Rule}, grammar.rules[i]? = some r →
    g.head? (productionOfRule i) = some r.head
  symbols : ∀ {i : Nat} {r : Rule}, grammar.rules[i]? = some r →
    (g.slots (productionOfRule i)).map (·.symbol) = r.symbols
  exists_places : ∀ {i : Nat} {r : Rule} {e : Nat} {s : Symbol}, grammar.rules[i]? = some r →
    r.symbols[e]? = some s → ∃ markers, r.Places e s markers
  /-- A place with markers accepts the rules of its symbol that one of them admits, a place
  without markers those that the priorities do not reject. -/
  accepts_iff : ∀ {i : Nat} {r : Rule} {e : Nat} {s : Symbol} {markers : List Marker} {j : Nat}
    {other : Rule}, grammar.rules[i]? = some r → r.Places e s markers →
    grammar.rules[j]? = some other → other.head = s →
    (g.accepts (productionOfRule i) e (productionOfRule j) = true ↔
      if markers = [] then ¬r.Rejects grammar.priorities e other
      else ∃ k ∈ markers, k.Admits i j other.mask)

/-! ## The same words for rules with their markers attached -/

theorem exists_markedAs_iff {r : Rule} : (∃ marked, r.MarkedAs marked) ↔
    r.head.kind = .nonTerminal ∧ (∀ s, .symbol s ∈ r.body → s.isReserved = false) ∧
      MarkersIn (fun s _ => s.kind = .nonTerminal) [] r.body := by
  rw [← Rule.exists_markedBody_iff]
  constructor
  · rintro ⟨_, body, hbody, -⟩
    exact ⟨body, hbody⟩
  · rintro ⟨body, hbody⟩
    exact ⟨_, body, hbody, rfl⟩

namespace Rule.MarkedAs

variable {r other : Rule} {marked otherMarked : MarkedRule} {priorities : List PriorityLevel}
  {level e : Nat}

theorem head_eq (h : r.MarkedAs marked) : marked.head = r.head := by
  obtain ⟨body, -, rfl⟩ := h
  rfl

theorem mask_eq (h : r.MarkedAs marked) : marked.mask = r.mask := by
  obtain ⟨body, -, rfl⟩ := h
  rfl

theorem symbols_eq (h : r.MarkedAs marked) : r.symbols = marked.body.map (·.symbol) := by
  obtain ⟨body, hbody, rfl⟩ := h
  exact symbols_of_markedBody hbody

theorem length_eq (h : r.MarkedAs marked) : r.symbols.length = marked.body.length := by
  rw [h.symbols_eq, List.length_map]

theorem level?_eq_some_iff (h : r.MarkedAs marked) (hclash : priorityClash? priorities = none) :
    marked.level? priorities = some level ↔ r.HasLevel priorities level := by
  have hnone : ∀ t, levelOf priorities t = none ↔ ∀ m, ¬Declared priorities t m := fun t => by
    simp only [Option.eq_none_iff_forall_ne_some, ne_eq, levelOf_eq_some_iff hclash]
  have hlevel : marked.level? priorities = r.symbols.findSome? (levelOf priorities) := by
    rw [h.symbols_eq, List.findSome?_map]
    rfl
  simp only [hlevel, List.findSome?_eq_some_iff, levelOf_eq_some_iff hclash, hnone, HasLevel]

theorem hasLeftOperand_iff (h : r.MarkedAs marked) :
    marked.hasLeftOperand = true ↔ r.LeftOperand := by
  rw [LeftOperand, h.symbols_eq, MarkedRule.hasLeftOperand, h.head_eq]
  simp

theorem hasRightOperand_iff (h : r.MarkedAs marked) :
    marked.hasRightOperand = true ↔ r.RightOperand := by
  rw [RightOperand, h.symbols_eq, MarkedRule.hasRightOperand, h.head_eq]
  simp

/-- **The priorities refuse what they should.** -/
theorem rejects_iff (h : r.MarkedAs marked) (hother : other.MarkedAs otherMarked)
    (hclash : priorityClash? priorities = none) :
    (∀ m ∈ marked.level? priorities, ∀ p ∈ priorities[m]?,
      refuses priorities m p.associativity (marked.hasLeftOperand && e == 0)
        (marked.hasRightOperand && e + 1 == marked.body.length) otherMarked = false) ↔
      ¬r.Rejects priorities e other := by
  have hrefuses : ∀ m side, refuses priorities m side (marked.hasLeftOperand && e == 0)
      (marked.hasRightOperand && e + 1 == marked.body.length) otherMarked = true ↔
      ∃ n, other.HasLevel priorities n ∧
        (e = 0 ∧ r.LeftOperand ∧ other.RightOperand ∧ (n < m ∨ n = m ∧ side = .right) ∨
          e + 1 = r.symbols.length ∧ r.RightOperand ∧ other.LeftOperand ∧
            (n < m ∨ n = m ∧ side = .left)) := by
    intro m side
    simp only [← hother.level?_eq_some_iff hclash, ← h.hasLeftOperand_iff, ← h.hasRightOperand_iff,
      ← hother.hasLeftOperand_iff, ← hother.hasRightOperand_iff, h.length_eq, refuses]
    cases otherMarked.level? priorities with
    | none => simp
    | some n => simp [and_assoc, and_left_comm, and_comm]
  constructor
  · rintro hnone ⟨m, p, n, hm, hp, hn, hside⟩
    have hfalse := hnone m ((h.level?_eq_some_iff hclash).2 hm) p hp
    rw [(hrefuses m p.associativity).2 ⟨n, hn, hside⟩] at hfalse
    cases hfalse
  · intro hnone m hm p hp
    refine Bool.eq_false_iff.2 fun htrue => hnone ?_
    obtain ⟨n, hn, hside⟩ := (hrefuses m p.associativity).1 htrue
    exact ⟨m, p, n, (h.level?_eq_some_iff hclash).1 hm, hp, hn, hside⟩

end Rule.MarkedAs

namespace Grammar

variable {grammar : Grammar} {g : Productions} {rules : List MarkedRule} {r : Rule}
  {marked : MarkedRule} {i : Nat}

/-- A marker that fits admits some rule, and one that does not admits none. -/
theorem admitted_ne_nil_iff_fits (hrules : List.Forall₂ Rule.MarkedAs grammar.rules rules)
    {k : Marker} {s : Symbol} : k.admitted rules r.head i s ≠ [] ↔ k.Fits grammar r s := by
  rw [admitted_ne_nil_iff]
  cases k with
  | itself => rfl
  | mask mask =>
      constructor
      · rintro ⟨otherMarked, hmem, hhead, hmask⟩
        obtain ⟨other, hother, hmarked⟩ := forall₂_mem_right hrules hmem
        exact ⟨other, hother, hmarked.head_eq ▸ hhead, hmarked.mask_eq ▸ hmask⟩
      · rintro ⟨other, hother, hhead, hmask⟩
        obtain ⟨otherMarked, hmem, hmarked⟩ := forall₂_mem_left hrules hother
        exact ⟨otherMarked, hmem, hmarked.head_eq.trans hhead, hmarked.mask_eq.trans hmask⟩

/-- A production can be made for a rule exactly if all of its markers fit. -/
theorem exists_productionOf_iff_fits (hrules : List.Forall₂ Rule.MarkedAs grammar.rules rules)
    (h : r.MarkedAs marked) :
    (∃ production, productionOf rules grammar.priorities marked i = .ok production) ↔
      MarkersIn (fun s k => k.Fits grammar r s) [] r.body := by
  obtain ⟨body, hbody, rfl⟩ := h
  rw [exists_productionOf_iff, ← Rule.flatMap_of_markedBody hbody, MarkedSymbol.markersIn_flatMap]
  exact forall₂_congr fun m _ => forall₂_congr fun k _ => admitted_ne_nil_iff_fits hrules

/-- **Normalising succeeds exactly on well-formed grammars.** -/
theorem exists_normalize_iff : (∃ g, grammar.normalize = .ok g) ↔ grammar.WellFormed := by
  have hreserved : ∀ s : Symbol, s.isReserved = false ↔ s.kind ≠ .start ∧ s.kind ≠ .endOfInput :=
    fun s => by simp [Symbol.isReserved]
  constructor
  · rintro ⟨g, h⟩
    obtain ⟨hstart, hclash, rules, productions, hrules, hproductions, -⟩ := normalize_eq_ok.1 h
    have hrule : ∀ r ∈ grammar.rules, r.head.kind = .nonTerminal ∧
        (∀ s, .symbol s ∈ r.body → s.isReserved = false) ∧
        MarkersIn (fun s _ => s.kind = .nonTerminal) [] r.body ∧
        MarkersIn (fun s k => k.Fits grammar r s) [] r.body := by
      intro r hr
      obtain ⟨i, hi⟩ := List.mem_iff_getElem?.1 hr
      obtain ⟨marked, hmarked, has⟩ := forall₂_getElem?_left hrules hi
      obtain ⟨hhead, hsymbols, hkinds⟩ := exists_markedAs_iff.1 ⟨marked, has⟩
      obtain ⟨production, -, hproduction⟩ := forall₂_getElem?_left hproductions
        (n := i) (x := (marked, i)) (by simp [List.getElem?_zipIdx, hmarked])
      exact ⟨hhead, hsymbols, hkinds, (exists_productionOf_iff_fits hrules has).1 ⟨_, hproduction⟩⟩
    refine ⟨hstart, fun r hr => (hrule r hr).1,
      fun r hr s hs => (hreserved s).1 ((hrule r hr).2.1 s hs), fun r hr before k after hbody => ?_,
      priorityClash?_eq_none_iff.1 hclash⟩
    obtain ⟨-, -, hkinds, hfits⟩ := hrule r hr
    obtain ⟨s, hs, hk⟩ := hkinds before k after hbody
    obtain ⟨t, ht, hfit⟩ := hfits before k after hbody
    obtain rfl : s = t := Option.some.inj (hs.symm.trans ht)
    exact ⟨s, hs, hk, hfit⟩
  · intro h
    have hmarkers : ∀ r ∈ grammar.rules, ∀ P : Symbol → Marker → Prop,
        (∀ s k, s.kind = .nonTerminal → k.Fits grammar r s → P s k) → MarkersIn P [] r.body := by
      intro r hr P hP before k after hbody
      obtain ⟨s, hs, hk, hfit⟩ := h.marker r hr before k after hbody
      exact ⟨s, hs, hP s k hk hfit⟩
    obtain ⟨rules, hrules⟩ := exists_forall₂ fun r hr => exists_markedAs_iff.2 ⟨h.head_kind r hr,
      fun s hs => (hreserved s).2 (h.symbol_kind r hr s hs), hmarkers r hr _ fun _ _ hk _ => hk⟩
    have hmade : ∀ x ∈ rules.zipIdx, ∃ production,
        productionOf rules grammar.priorities x.1 x.2 = .ok production := by
      intro x hx
      obtain ⟨r, hr, hmarked⟩ := forall₂_mem_right hrules (List.fst_mem_of_mem_zipIdx hx)
      exact (exists_productionOf_iff_fits hrules hmarked).2
        (hmarkers r hr _ fun _ _ _ hfit => hfit)
    obtain ⟨productions, hproductions⟩ := exists_forall₂ hmade
    exact ⟨⟨(acceptingProduction grammar.start :: productions).toArray⟩, normalize_eq_ok.2
      ⟨h.start_kind, priorityClash?_eq_none_iff.2 h.level, rules, productions, hrules, hproductions,
        rfl⟩⟩

/-- The slot at a place of a rule. -/
theorem exists_slot_of_places (hmarked : r.MarkedAs marked) {production : Production}
    (hmade : productionOf rules grammar.priorities marked i = .ok production)
    (hg : g.all[productionOfRule i]? = some production) {e : Nat} {s : Symbol}
    {markers : List Marker} (hplaces : r.Places e s markers) :
    ∃ slot, g.slot? (productionOfRule i) e = some slot ∧
      slotOf rules grammar.priorities marked i ⟨s, markers⟩ e = .ok slot := by
  obtain ⟨slots, hslots, rfl⟩ := productionOf_eq_ok.1 hmade
  obtain ⟨body, hbody, rfl⟩ := hmarked
  have hm := Rule.getElem?_of_places hbody hplaces
  obtain ⟨slot, hslot, hmade⟩ := forall₂_getElem?_left hslots
    (n := e) (x := (⟨s, markers⟩, e)) (by simp [List.getElem?_zipIdx, hm])
  refine ⟨slot, ?_, hmade⟩
  rw [Productions.slot?, Productions.slots, hg]
  exact hslot

/-- **The productions of a normal form carry the declared restrictions.** -/
theorem restricts_of_normalize (h : grammar.normalize = .ok g) : grammar.Restricts g := by
  have hclash := (normalize_eq_ok.1 h).2.1
  obtain ⟨hcount, rules, hrules, hproductions⟩ := exists_rules_of_normalize h
  refine ⟨hcount, (wellFormed_of_normalize h).accepting, ?_, ?_, ?_, ?_⟩
  · intro i r hi
    obtain ⟨marked, hmarked, has⟩ := forall₂_getElem?_left hrules hi
    obtain ⟨production, hmade, hp⟩ := hproductions i marked hmarked
    obtain ⟨slots, -, rfl⟩ := productionOf_eq_ok.1 hmade
    rw [Productions.head?, hp, ← has.head_eq]
    rfl
  · intro i r hi
    obtain ⟨marked, hmarked, has⟩ := forall₂_getElem?_left hrules hi
    obtain ⟨production, hmade, hp⟩ := hproductions i marked hmarked
    obtain ⟨slots, hslots, rfl⟩ := productionOf_eq_ok.1 hmade
    rw [Productions.slots, hp, has.symbols_eq, ← List.zipIdx_map_fst 0 marked.body, List.map_map,
      ← List.forall₂_eq_eq_eq, List.forall₂_map_left_iff, List.forall₂_map_right_iff]
    exact (hslots.imp fun x slot hslot => symbol_of_slotOf hslot).flip
  · intro i r e s hi hs
    obtain ⟨marked, -, body, hbody, rfl⟩ := forall₂_getElem?_left hrules hi
    rw [Rule.symbols_of_markedBody hbody, List.getElem?_map] at hs
    obtain ⟨m, hm, rfl⟩ := Option.map_eq_some_iff.1 hs
    exact ⟨m.markers, Rule.places_of_getElem? hbody hm⟩
  · intro i r e s markers j other hi hplaces hj hhead
    obtain ⟨marked, hmarked, has⟩ := forall₂_getElem?_left hrules hi
    obtain ⟨otherMarked, hotherMarked, hother⟩ := forall₂_getElem?_left hrules hj
    obtain ⟨production, hmade, hp⟩ := hproductions i marked hmarked
    obtain ⟨slot, hslot, hmade⟩ := exists_slot_of_places has hmade hp hplaces
    rw [Productions.accepts, hslot]
    dsimp only
    rw [accepts_slotOf_iff hmade hotherMarked (hother.head_eq.trans hhead), hother.mask_eq]
    by_cases hnone : markers = []
    · rw [if_pos hnone, if_pos hnone]
      by_cases hsame : other.head = r.head
      · rw [accepts_operandFilter_iff hotherMarked (by rw [hother.head_eq, has.head_eq, hsame]),
          has.rejects_iff hother hclash]
      · -- a place with another symbol than the head is no operand
        have hplace : r.symbols[e]? ≠ some r.head := by
          rw [hplaces.symbols_getElem?, ← hhead, ne_eq, Option.some.injEq]
          exact hsame
        refine iff_of_true ?_ fun hrejects => hplace hrejects.symbols_getElem?
        rw [operandFilter_eq_none, Slot.accepts]
        rwa [has.symbols_eq, List.getElem?_map, ← has.head_eq] at hplace
    · rw [if_neg hnone, if_neg hnone]

end Grammar

/-- **Normalising accepts exactly the well-formed grammars, and computes the restrictions
that they declare.** -/
theorem Grammar.wellFormed_iff_and_restricts (grammar : Grammar) :
    ((∃ g, grammar.normalize = .ok g) ↔ grammar.WellFormed) ∧
      ∀ g, grammar.normalize = .ok g → grammar.Restricts g :=
  ⟨exists_normalize_iff, fun _ h => restricts_of_normalize h⟩

/-- Two operators of different levels, and a prefix operator whose operand is an atom or
begins with the operator again. -/
def Grammar.restricted : Grammar where
  start := .nonTerminal 0
  rules :=
    [⟨.nonTerminal 0, [.symbol (.nonTerminal 0), .symbol (.terminal 0), .symbol (.nonTerminal 0)],
        0, false⟩,
      ⟨.nonTerminal 0, [.symbol (.nonTerminal 0), .symbol (.terminal 1), .symbol (.nonTerminal 0)],
        0, false⟩,
      ⟨.nonTerminal 0, [.symbol (.terminal 2)], 1, false⟩,
      ⟨.nonTerminal 0, [.symbol (.terminal 3), .symbol (.nonTerminal 0), .marker .itself,
        .marker (.mask 1)], 0, false⟩]
  priorities := [⟨[.terminal 0], .left⟩, ⟨[.terminal 1], .left⟩]

/-- Its places accept what has been declared, and everything elsewhere. -/
theorem Grammar.wellFormed_iff_and_restricts_restricted : restricted.WellFormed ∧
    ∃ g, restricted.normalize = .ok g ∧ restricted.Restricts g ∧
      g.all.toList.map (fun production => production.slots.map (·.acceptable)) =
        [[none, none], [none, none, some [2, 3, 4]], [some [2, 3, 4], none, some [3, 4]], [none],
          [none, some [3, 4]]] := by
  obtain ⟨g, hg, hslots⟩ := map_eq_ok.1 (show restricted.normalize.map (fun g =>
      g.all.toList.map fun production => production.slots.map (·.acceptable)) = .ok
        [[none, none], [none, none, some [2, 3, 4]], [some [2, 3, 4], none, some [3, 4]], [none],
          [none, some [3, 4]]] by decide +kernel)
  obtain ⟨hwellFormed, hrestricts⟩ := wellFormed_iff_and_restricts restricted
  exact ⟨hwellFormed.1 ⟨g, hg⟩, g, hg, hrestricts g hg, hslots⟩

end BoundedLR
