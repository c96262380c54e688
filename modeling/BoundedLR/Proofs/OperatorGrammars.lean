import BoundedLR.Proofs.DeclaredRestrictions
import BoundedLR.Proofs.OperatorTrees

/-!
# Priorities disambiguate infix grammars

Without priorities a sentence of an infix grammar with two operators has several
derivation trees.  The normal form writes the priorities into the slots, and this
leaves one tree for each sentence, provided that one can tell the brackets from the atoms
(`InfixSignature.Legible`).

* `Grammar.all_of_plain` computes the productions of the rules without markers.
* `Grammar.Declares` describes the grammars of a signature, by the rules they have, in
  any order.  `Grammar.Declares.spells` and `Grammar.Declares.filters` are what the
  theory of their derivation trees asks for.
-/

namespace BoundedLR

/-! ## Rules without markers -/

/-- A body without markers passes if it has no synthetic symbol. -/
theorem Rule.attachMarkers_symbols_eq_ok {body : List Symbol} {done out : List MarkedSymbol} :
    attachMarkers done (body.map .symbol) = .ok out ↔
      (∀ s ∈ body, s.isReserved = false) ∧ out = done.reverse ++ body.map (⟨·, []⟩) := by
  induction body generalizing done with
  | nil =>
      rw [List.map_nil, attachMarkers, Except.ok.injEq, List.map_nil, List.append_nil]
      exact ⟨fun h => ⟨by simp, h.symm⟩, fun h => h.2.symm⟩
  | cons s body ih =>
      rw [List.map_cons, attachMarkers]
      cases hs : s.isReserved with
      | true => simp [hs]
      | false =>
          rw [if_neg Bool.false_ne_true, ih]
          simp [hs]

/-- The slots of a rule without markers carry the filters of the priorities. -/
theorem productionOf_plain {rules : List MarkedRule} {priorities : List PriorityLevel}
    {r : MarkedRule} {body : List Symbol} (h : r.body = body.map (⟨·, []⟩)) (rule : Nat) :
    productionOf rules priorities r rule = .ok ⟨r.head, r.mask, r.predict,
      body.zipIdx.map fun x => ⟨x.1, operandFilter rules priorities r x.2⟩⟩ := by
  have hslots : (r.body.zipIdx.mapM fun x => slotOf rules priorities r rule x.1 x.2) =
      .ok (body.zipIdx.map fun x => ⟨x.1, operandFilter rules priorities r x.2⟩) := by
    rw [mapM_eq_ok, h, List.zipIdx_map, List.forall₂_map_left_iff, List.forall₂_map_right_iff]
    exact List.forall₂_same.2 fun x _ => rfl
  exact bind_eq_ok.2 ⟨_, hslots, rfl⟩

/-! ## The normal form of a grammar without markers -/

/-- Among disjoint levels an operator is declared in one. -/
theorem eq_of_declared {priorities : List PriorityLevel} {o : Symbol} {m n : Nat}
    (h : priorities.Pairwise fun p q => ∀ o ∈ p.symbols, o ∉ q.symbols)
    (hm : Declared priorities o m) (hn : Declared priorities o n) : m = n := by
  obtain ⟨p, hp, hop⟩ := hm
  obtain ⟨q, hq, hoq⟩ := hn
  obtain ⟨hm, rfl⟩ := List.getElem?_eq_some_iff.1 hp
  obtain ⟨hn, rfl⟩ := List.getElem?_eq_some_iff.1 hq
  rcases Nat.lt_trichotomy m n with hmn | rfl | hmn
  · exact absurd hoq (List.pairwise_iff_getElem.1 h m n hm hn hmn o hop)
  · rfl
  · exact absurd hop (List.pairwise_iff_getElem.1 h n m hn hm hmn o hoq)

/-- The productions of the rules without markers, and that there are no others. -/
theorem Grammar.all_of_plain {grammar : Grammar} {g : Productions}
    (h : grammar.normalize = .ok g) : g.count = grammar.rules.length + 1 ∧
      ∃ rules : List MarkedRule, ∀ (i : Nat) (r : Rule) (body : List Symbol),
        grammar.rules[i]? = some r → r.body = body.map .symbol →
        rules[i]? = some ⟨r.head, r.mask, r.predict, body.map (⟨·, []⟩)⟩ ∧
          g.all[i + 1]? = some ⟨r.head, r.mask, r.predict, body.zipIdx.map fun x =>
            ⟨x.1, operandFilter rules grammar.priorities
              ⟨r.head, r.mask, r.predict, body.map (⟨·, []⟩)⟩ x.2⟩⟩ := by
  obtain ⟨hcount, rules, hrules, hproductions⟩ := exists_rules_of_normalize h
  refine ⟨hcount, rules, fun i r body hi hbody => ?_⟩
  obtain ⟨marked, hmarked, out, hout, rfl⟩ := forall₂_getElem?_left hrules hi
  obtain rfl : out = body.map (⟨·, []⟩) := by
    unfold Rule.markedBody at hout
    split at hout
    · cases hout
    · cases hout
    · cases hout
    · rw [hbody] at hout
      exact (Rule.attachMarkers_symbols_eq_ok.1 hout).2
  obtain ⟨production, hmade, hproduction⟩ := hproductions i _ hmarked
  rw [productionOf_plain rfl] at hmade
  exact ⟨hmarked, Except.ok.inj hmade ▸ hproduction⟩

/-! ## Infix grammars -/

/-- A grammar of a signature: it has a rule for each of the bodies, no other rules, and
no rule twice.  The masks and the announcements are free. -/
structure Grammar.Declares (grammar : Grammar) (s : InfixSignature) : Prop where
  start : grammar.start = s.expression
  priorities : grammar.priorities = s.levels
  head : ∀ r ∈ grammar.rules, r.head = s.expression
  body_mem : ∀ r ∈ grammar.rules, r.body ∈ s.bodies.map (·.map .symbol)
  exists_rule : ∀ body ∈ s.bodies, ∃ r ∈ grammar.rules, r.body = body.map .symbol
  nodup : (grammar.rules.map (·.body)).Nodup

/-- The production of the first rule with a given body. -/
def Grammar.productionFor (grammar : Grammar) (body : List Symbol) : Nat :=
  productionOfRule (grammar.rules.findIdx fun r => r.body == body.map .symbol)

namespace Grammar.Declares

variable {grammar : Grammar} {s : InfixSignature} {g : Productions}

/-- The rule of a body. -/
theorem exists_productionFor (h : grammar.Declares s) {body : List Symbol} (hb : body ∈ s.bodies) :
    ∃ (i : Nat) (r : Rule), grammar.rules[i]? = some r ∧ r.head = s.expression ∧
      r.body = body.map .symbol ∧ grammar.productionFor body = i + 1 := by
  obtain ⟨r, hr, hbody⟩ := h.exists_rule body hb
  have hlt : grammar.rules.findIdx (fun r => r.body == body.map .symbol) < grammar.rules.length :=
    List.findIdx_lt_length_of_exists ⟨r, hr, by simp [hbody]⟩
  refine ⟨_, _, List.getElem?_eq_getElem hlt, h.head _ (List.getElem_mem hlt), ?_, rfl⟩
  simpa using List.findIdx_getElem (w := hlt)

/-- Every rule is the rule of its body. -/
theorem productionFor_of_rule (h : grammar.Declares s) {i : Nat} {r : Rule}
    (hi : grammar.rules[i]? = some r) : ∃ body ∈ s.bodies, grammar.productionFor body = i + 1 := by
  obtain ⟨body, hb, hbody⟩ := List.mem_map.1 (h.body_mem r (List.mem_of_getElem? hi))
  obtain ⟨j, r', hj, -, hbody', hproduction⟩ := h.exists_productionFor hb
  have hij : (grammar.rules.map (·.body))[j]? = (grammar.rules.map (·.body))[i]? := by
    rw [List.getElem?_map, List.getElem?_map, hi, hj, Option.map_some, Option.map_some, hbody',
      hbody]
  obtain ⟨hlt, -⟩ := List.getElem?_eq_some_iff.1 hj
  obtain rfl : j = i := (List.getElem?_inj (by rwa [List.length_map]) h.nodup).1 hij
  exact ⟨body, hb, hproduction⟩

/-- The grammar of a well-formed signature passes the checks. -/
theorem exists_normalize (hs : s.WellFormed) (h : grammar.Declares s) :
    ∃ g, grammar.normalize = .ok g := by
  have hbody : ∀ body ∈ s.bodies, ∀ t ∈ body, t.kind = .nonTerminal ∨ t.kind = .terminal := by
    intro body hb t ht
    rcases InfixSignature.mem_bodies.1 hb with ⟨o, ho, rfl⟩ | ⟨a, ha, rfl⟩ | ⟨b, hbr, rfl⟩
    · have ho := hs.operator_kind o ho
      have hexpression := hs.expression_kind
      grind
    · have ha := hs.atom_kind a ha
      grind
    · have hbr := hs.bracket_kind b hbr
      have hexpression := hs.expression_kind
      grind
  refine exists_normalize_iff.2 ⟨h.start ▸ hs.expression_kind,
    fun r hr => h.head r hr ▸ hs.expression_kind, fun r hr t ht => ?_,
    fun r hr before k after hmarker => ?_, fun t m n hm hn => ?_⟩
  · obtain ⟨body, hb, hr⟩ := List.mem_map.1 (h.body_mem r hr)
    obtain ⟨t', ht', rfl⟩ : ∃ t' ∈ body, t' = t := by simpa [← hr] using ht
    rcases hbody body hb t' ht' with hk | hk <;> simp [hk]
  · obtain ⟨body, -, hr⟩ := List.mem_map.1 (h.body_mem r hr)
    have hmem : BodyElement.marker k ∈ body.map .symbol := by simp [hr, hmarker]
    simp at hmem
  · rw [h.priorities] at hm hn
    exact eq_of_declared hs.disjoint hm hn

/-- The productions of the grammar of a signature. -/
theorem spells (hs : s.WellFormed) (h : grammar.Declares s) (hg : grammar.normalize = .ok g) :
    g.Spells s grammar.productionFor := by
  have hwf := wellFormed_of_normalize hg
  obtain ⟨hcount, rules, hall⟩ := all_of_plain hg
  have hproduction : ∀ body ∈ s.bodies, ∃ production,
      g.all[grammar.productionFor body]? = some production ∧ production.head = s.expression ∧
        production.slots.map (·.symbol) = body := by
    intro body hb
    obtain ⟨i, r, hi, hhead, hbody, hlabel⟩ := h.exists_productionFor hb
    refine ⟨_, hlabel ▸ (hall i r body hi hbody).2, hhead, ?_⟩
    rw [List.map_map]
    exact List.zipIdx_map_fst 0 body
  refine ⟨?_, ?_, ?_, ?_⟩
  · rw [Productions.slot?, hwf.slots_zero, h.start]
    rfl
  · intro body hb
    obtain ⟨production, hp, -, hsymbols⟩ := hproduction body hb
    rw [Productions.slots, hp]
    exact hsymbols
  · intro c
    constructor
    · intro hc
      have hne : c ≠ 0 := by
        rintro rfl
        rw [hwf.head?_zero, Option.some.injEq] at hc
        have hk := hs.expression_kind
        rw [← hc] at hk
        cases hk
      obtain ⟨i, rfl⟩ := Nat.exists_eq_succ_of_ne_zero hne
      have hlt : i + 1 < g.count :=
        List.mem_range.1 (List.mem_filter.1 (Productions.mem_derives.2 hc)).1
      exact h.productionFor_of_rule (List.getElem?_eq_getElem (by omega))
    · rintro ⟨body, hb, rfl⟩
      obtain ⟨production, hp, hhead, -⟩ := hproduction body hb
      rw [Productions.head?, hp, Option.map_some, hhead]
  · intro c t hc
    by_cases hne : c = 0
    · subst hne
      rw [hwf.head?_zero, Option.some.injEq] at hc
      rw [← hc]
      rfl
    · exact hwf.isTerminal_of_head? hc hne

/-! ## Its filters -/

/-- What a slot of a body accepts. -/
theorem accepts_iff (h : grammar.Declares s) (hg : grammar.normalize = .ok g)
    {body other : List Symbol} (hb : body ∈ s.bodies) (ho : other ∈ s.bodies) {e : Nat}
    (he : e < body.length) : ∃ r r' : MarkedRule,
      (r.head = s.expression ∧ r.body = body.map (⟨·, []⟩)) ∧
      (r'.head = s.expression ∧ r'.body = other.map (⟨·, []⟩)) ∧
      (g.accepts (grammar.productionFor body) e (grammar.productionFor other) = true ↔
        ∀ m ∈ r.level? s.levels, ∀ p ∈ s.levels[m]?,
          refuses s.levels m p.associativity (r.hasLeftOperand && e == 0)
            (r.hasRightOperand && e + 1 == r.body.length) r' = false) := by
  obtain ⟨-, rules, hall⟩ := all_of_plain hg
  obtain ⟨i, r, hi, hhead, hbody, hlabel⟩ := h.exists_productionFor hb
  obtain ⟨j, r', hj, hhead', hbody', hlabel'⟩ := h.exists_productionFor ho
  refine ⟨⟨r.head, r.mask, r.predict, body.map (⟨·, []⟩)⟩,
    ⟨r'.head, r'.mask, r'.predict, other.map (⟨·, []⟩)⟩, ⟨hhead, rfl⟩, ⟨hhead', rfl⟩, ?_⟩
  obtain ⟨-, hproduction⟩ := hall i r body hi hbody
  have hslot : g.slot? (grammar.productionFor body) e = some ⟨body[e], operandFilter rules
      s.levels ⟨r.head, r.mask, r.predict, body.map (⟨·, []⟩)⟩ e⟩ := by
    rw [hlabel, Productions.slot?, Productions.slots, hproduction, h.priorities]
    simp [he]
  rw [Productions.accepts, hslot, hlabel']
  exact accepts_operandFilter_iff (hall j r' other hj hbody').1 (hhead'.trans hhead.symm) _ _

end Grammar.Declares

namespace InfixSignature.WellFormed

variable {s : InfixSignature}

/-- Nothing but an operator has a level. -/
theorem levelOf_eq_none {t : Symbol} (ht : t ∉ s.operators) : levelOf s.levels t = none := by
  rw [← Option.not_isSome_iff_eq_none, isSome_levelOf_iff_mem]
  exact ht

theorem expression_notMem (hs : s.WellFormed) : s.expression ∉ s.operators := by
  intro h
  have hk := hs.operator_kind _ h
  rw [hs.expression_kind] at hk
  cases hk

/-- The level of the rule of an expression is that of the operator at its root. -/
theorem level?_of_body (hs : s.WellFormed) {x : Expression} (hx : x.Over s) {r : MarkedRule}
    (hbody : r.body = (x.body s).map (⟨·, []⟩)) :
    r.level? s.levels = x.root?.bind (levelOf s.levels) := by
  have hexpression := levelOf_eq_none hs.expression_notMem
  rw [MarkedRule.level?, hbody]
  cases x with
  | atom t =>
      have ht := levelOf_eq_none (hs.atom_undeclared _ hx)
      simp [Expression.body, Expression.root?, ht]
  | group o x c =>
      have ho := levelOf_eq_none (hs.bracket_undeclared _ hx.1).1
      have hc := levelOf_eq_none (hs.bracket_undeclared _ hx.1).2
      simp [Expression.body, Expression.root?, hexpression, ho, hc]
  | operation l o r =>
      obtain ⟨m, hm⟩ := Option.isSome_iff_exists.1 (isSome_levelOf_iff_mem.2 hx.2.1)
      simp [Expression.body, Expression.root?, hexpression, hm]

/-- An operand refuses an expression exactly if the operator at its root may not stand
there. -/
theorem refuses_eq_false_iff (hs : s.WellFormed) {x : Expression} (hx : x.Over s)
    {r : MarkedRule} (hhead : r.head = s.expression)
    (hbody : r.body = (x.body s).map (⟨·, []⟩)) {o : Symbol} {m : Nat} {p : PriorityLevel}
    (hm : levelOf s.levels o = some m) (hp : s.levels[m]? = some p) (side : Associativity) :
    refuses s.levels m p.associativity (side == .left) (side == .right) r = false ↔
      ∀ q ∈ x.root?, MayStand s.levels side o q := by
  have hlevel := hs.level?_of_body hx hbody
  cases x with
  | atom t =>
      rw [refuses, hlevel]
      simp [Expression.root?]
  | group o' x c =>
      rw [refuses, hlevel]
      simp [Expression.root?]
  | operation l q r' =>
      obtain ⟨n, hn⟩ := Option.isSome_iff_exists.1 (isSome_levelOf_iff_mem.2 hx.2.1)
      have hleft : r.hasLeftOperand = true := by
        simp [MarkedRule.hasLeftOperand, hbody, hhead, Expression.body]
      have hright : r.hasRightOperand = true := by
        simp [MarkedRule.hasRightOperand, hbody, hhead, Expression.body]
      have hlevel' : r.level? s.levels = some n := by
        rw [hlevel]
        exact hn
      have hmay : MayStand s.levels side o q.symbol ↔ m < n ∨ m = n ∧ p.associativity = side := by
        simp [MayStand, hm, hn, hp]
      rw [refuses, hlevel', hleft, hright]
      simp only [Expression.root?, Option.mem_some_iff, forall_eq', hmay]
      cases side <;> cases p.associativity <;> simp <;> omega

end InfixSignature.WellFormed

/-- **The filters of a normal form decide by the operator at the root.** -/
theorem Grammar.Declares.filters {grammar : Grammar} {s : InfixSignature} {g : Productions}
    (hs : s.WellFormed) (h : grammar.Declares s) (hg : grammar.normalize = .ok g) :
    Expression.Filters g s grammar.productionFor := by
  have hoperand : ∀ {o : Symbol} {x : Expression} {e : Nat} {side : Associativity},
      o ∈ s.operators → x.Over s → e < 3 → (e == 0) = (side == .left) →
        (e + 1 == 3) = (side == .right) →
      (g.accepts (grammar.productionFor [s.expression, o, s.expression]) e
        (grammar.productionFor (x.body s)) = true ↔ ∀ q ∈ x.root?, MayStand s.levels side o q) := by
    intro o x e side ho hx he hleft hright
    obtain ⟨r, r', ⟨hhead, hbody⟩, ⟨hhead', hbody'⟩, haccepts⟩ := h.accepts_iff hg
      (InfixSignature.mem_bodies.2 (.inl ⟨o, ho, rfl⟩)) hx.body_mem he
    obtain ⟨m, hm⟩ := Option.isSome_iff_exists.1 (InfixSignature.isSome_levelOf_iff_mem.2 ho)
    obtain ⟨p, hp, -⟩ := exists_of_levelOf hm
    have hlevel : r.level? s.levels = some m := by
      simp [MarkedRule.level?, hbody, hm,
        InfixSignature.WellFormed.levelOf_eq_none hs.expression_notMem]
    have hr : r.hasLeftOperand = true ∧ r.hasRightOperand = true ∧ r.body.length = 3 := by
      simp [MarkedRule.hasLeftOperand, MarkedRule.hasRightOperand, hbody, hhead]
    rw [haccepts, hlevel, hr.1, hr.2.1, hr.2.2, Bool.true_and, Bool.true_and, hleft, hright,
      ← hs.refuses_eq_false_iff hx hhead' hbody' hm hp side]
    simp [hp]
  refine ⟨fun ho hx => hoperand ho hx (by decide) rfl rfl,
    fun ho hx => hoperand ho hx (by decide) rfl rfl, ?_⟩
  intro b x hb hx
  obtain ⟨r, r', ⟨-, hbody⟩, -, haccepts⟩ := h.accepts_iff hg
    (InfixSignature.mem_bodies.2 (.inr (.inr ⟨b, hb, rfl⟩))) hx.body_mem (e := 1)
      (by simp)
  have hlevel : r.level? s.levels = none := by
    simp [MarkedRule.level?, hbody, InfixSignature.WellFormed.levelOf_eq_none hs.expression_notMem,
      InfixSignature.WellFormed.levelOf_eq_none (hs.bracket_undeclared b hb).1,
      InfixSignature.WellFormed.levelOf_eq_none (hs.bracket_undeclared b hb).2]
  rw [haccepts, hlevel]
  simp

/-! ## One tree for each sentence -/

/-- **Priorities disambiguate infix grammars.**  The grammar of a well-formed signature
passes the checks.  If the signature is legible, then of the derivation trees of a sequence
of tokens exactly one respects the lists of acceptable productions, and it is the tree of
the one expression that is grouped as the levels demand. -/
theorem Grammar.Declares.existsUnique_tree {grammar : Grammar} {s : InfixSignature}
    (hs : s.WellFormed) (hlegible : s.Legible) (h : grammar.Declares s) :
    ∃ g, grammar.normalize = .ok g ∧ ∀ w : List Token,
      (∃ t, g.relaxed.Sentence t ∧ t.leaves = w) →
        ∃ x : Expression, (x.Over s ∧ x.leaves = w ∧ x.Grouped s.levels) ∧
          (∀ y : Expression, y.Over s → y.leaves = w → y.Grouped s.levels → y = x) ∧
          ∀ t, t.leaves = w → (g.Sentence t ↔ t = x.tree s grammar.productionFor) := by
  obtain ⟨g, hg⟩ := h.exists_normalize hs
  have hspells := h.spells hs hg
  have hfilters := h.filters hs hg
  refine ⟨g, hg, ?_⟩
  rintro w ⟨t, ht, rfl⟩
  obtain ⟨x, hx, rfl⟩ := (hspells.sentence_relaxed_iff hs).1 ht
  rw [Expression.leaves_tree]
  have hover : (x.regroup s.levels).Over s := Expression.over_regroup hx
  have hgrouped : (x.regroup s.levels).Grouped s.levels := Expression.grouped_regroup hx
  have hleaves : (x.regroup s.levels).leaves = x.leaves := Expression.leaves_regroup x
  have hunique : ∀ y : Expression, y.Over s → y.leaves = x.leaves → y.Grouped s.levels →
      y = x.regroup s.levels := fun y hy hyx hgy =>
    Expression.eq_of_leaves hs hlegible hy hover hgy hgrouped (hyx.trans hleaves.symm)
  refine ⟨x.regroup s.levels, ⟨hover, hleaves, hgrouped⟩, hunique, fun u hu => ?_⟩
  rw [hspells.sentence_iff hs]
  constructor
  · rintro ⟨y, hy, hr, rfl⟩
    rw [Expression.leaves_tree] at hu
    rw [hunique y hy hu ((Expression.respects_iff hfilters hy).1 hr)]
  · rintro rfl
    exact ⟨_, hover, (Expression.respects_iff hfilters hover).2 hgrouped, rfl⟩

/-- Two operators that group to the left, below one that groups to the right. -/
def InfixSignature.powers : InfixSignature where
  expression := .nonTerminal 0
  levels := [⟨[.terminal 1, .terminal 2], .left⟩, ⟨[.terminal 3], .right⟩]
  atoms := [.terminal 0, .terminal 6]
  brackets := some (.terminal 4, .terminal 5)

/-- A grammar of it, whose rules are in no particular order. -/
def Grammar.powers : Grammar where
  start := .nonTerminal 0
  rules := [⟨.nonTerminal 0, [.symbol (.terminal 6)], 0, false⟩,
    ⟨.nonTerminal 0, [.symbol (.nonTerminal 0), .symbol (.terminal 3), .symbol (.nonTerminal 0)],
      7, false⟩,
    ⟨.nonTerminal 0, [.symbol (.nonTerminal 0), .symbol (.terminal 1), .symbol (.nonTerminal 0)],
      0, true⟩,
    ⟨.nonTerminal 0, [.symbol (.terminal 4), .symbol (.nonTerminal 0), .symbol (.terminal 5)],
      0, false⟩,
    ⟨.nonTerminal 0, [.symbol (.nonTerminal 0), .symbol (.terminal 2), .symbol (.nonTerminal 0)],
      0, false⟩,
    ⟨.nonTerminal 0, [.symbol (.terminal 0)], 0, false⟩]
  priorities := InfixSignature.powers.levels

/-- The reading of `a - b ^ c ^ d - e` that the levels demand. -/
def Expression.powers : Expression :=
  let operand (i : Nat) : Expression := .atom ⟨.terminal 0, i⟩
  .operation
    (.operation (operand 0) ⟨.terminal 2, 1⟩ (.operation (operand 2) ⟨.terminal 3, 3⟩
      (.operation (operand 4) ⟨.terminal 3, 5⟩ (operand 6))))
    ⟨.terminal 2, 7⟩ (operand 8)

theorem Grammar.Declares.existsUnique_tree_powers :
    InfixSignature.powers.WellFormed ∧ InfixSignature.powers.Legible ∧
      Grammar.powers.Declares .powers ∧
      ∃ g, Grammar.powers.normalize = .ok g ∧
        (∃ t, g.relaxed.Sentence t ∧ t.leaves = Expression.powers.leaves) ∧
        ∃ x : Expression, (x.Over .powers ∧ x.leaves = Expression.powers.leaves ∧
            x.Grouped InfixSignature.powers.levels) ∧ Expression.powers = x ∧
          ∀ t, t.leaves = Expression.powers.leaves →
            (g.Sentence t ↔ t = x.tree .powers Grammar.powers.productionFor) := by
  have hs : InfixSignature.powers.WellFormed := by
    constructor <;> decide
  have hlegible : InfixSignature.powers.Legible := by decide
  have h : Grammar.powers.Declares .powers := by
    constructor <;> decide
  have hover : Expression.powers.Over .powers := by decide
  have hgrouped : Expression.powers.Grouped InfixSignature.powers.levels := by decide
  obtain ⟨g, hg, hunique⟩ := Grammar.Declares.existsUnique_tree hs hlegible h
  have hderivable : ∃ t, g.relaxed.Sentence t ∧ t.leaves = Expression.powers.leaves :=
    ⟨_, ((h.spells hs hg).sentence_relaxed_iff hs).2 ⟨_, hover, rfl⟩, Expression.leaves_tree _⟩
  obtain ⟨x, hx, honly, htree⟩ := hunique _ hderivable
  exact ⟨hs, hlegible, h, g, hg, hderivable, x, hx, honly _ hover rfl hgrouped, htree⟩

/-- One operator, and brackets that are atoms as well. -/
def InfixSignature.atomicBrackets : InfixSignature where
  expression := .nonTerminal 0
  levels := [⟨[.terminal 1], .left⟩]
  atoms := [.terminal 4, .terminal 5]
  brackets := some (.terminal 4, .terminal 5)

/-- A grammar of it. -/
def Grammar.atomicBrackets : Grammar where
  start := .nonTerminal 0
  rules := [⟨.nonTerminal 0, [.symbol (.nonTerminal 0), .symbol (.terminal 1),
      .symbol (.nonTerminal 0)], 0, false⟩,
    ⟨.nonTerminal 0, [.symbol (.terminal 4)], 0, false⟩,
    ⟨.nonTerminal 0, [.symbol (.terminal 5)], 0, false⟩,
    ⟨.nonTerminal 0, [.symbol (.terminal 4), .symbol (.nonTerminal 0), .symbol (.terminal 5)],
      0, false⟩]
  priorities := InfixSignature.atomicBrackets.levels

/-- The reading of `( ( ) + ( ) )` as one group: inside it, a group of the atoms `)` and `(`. -/
def Expression.oneGroup : Expression :=
  .group ⟨.terminal 4, 0⟩ (.group ⟨.terminal 4, 1⟩
    (.operation (.atom ⟨.terminal 5, 2⟩) ⟨.terminal 1, 3⟩ (.atom ⟨.terminal 4, 4⟩))
    ⟨.terminal 5, 5⟩) ⟨.terminal 5, 6⟩

/-- The reading of `( ( ) + ( ) )` as the sum of two groups, each with an atom inside. -/
def Expression.twoGroups : Expression :=
  .operation (.group ⟨.terminal 4, 0⟩ (.atom ⟨.terminal 4, 1⟩) ⟨.terminal 5, 2⟩) ⟨.terminal 1, 3⟩
    (.group ⟨.terminal 4, 4⟩ (.atom ⟨.terminal 5, 5⟩) ⟨.terminal 5, 6⟩)

/-- **Brackets that are atoms as well** can not be told apart from them: both readings of
`( ( ) + ( ) )` respect the lists of acceptable productions. -/
theorem Grammar.Declares.not_unique_tree_atomicBrackets :
    InfixSignature.atomicBrackets.WellFormed ∧
      Grammar.atomicBrackets.Declares .atomicBrackets ∧
      ∃ g, Grammar.atomicBrackets.normalize = .ok g ∧ ∃ t u,
        g.relaxed.Sentence t ∧ g.Sentence t ∧ g.Sentence u ∧ t.leaves = u.leaves ∧ t ≠ u := by
  have hs : InfixSignature.atomicBrackets.WellFormed := by
    constructor <;> decide
  have h : Grammar.atomicBrackets.Declares .atomicBrackets := by
    constructor <;> decide
  obtain ⟨g, hg⟩ := h.exists_normalize hs
  have hsentence : ∀ {x : Expression}, x.Over .atomicBrackets →
      x.Grouped InfixSignature.atomicBrackets.levels →
        g.Sentence (x.tree .atomicBrackets Grammar.atomicBrackets.productionFor) := fun hx hgx =>
    ((h.spells hs hg).sentence_iff hs).2
      ⟨_, hx, (Expression.respects_iff (h.filters hs hg) hx).2 hgx, rfl⟩
  have hone : Expression.oneGroup.Over .atomicBrackets := by decide
  have htwo : Expression.twoGroups.Over .atomicBrackets := by decide
  refine ⟨hs, h, g, hg, _, _, ((h.spells hs hg).sentence_relaxed_iff hs).2 ⟨_, hone, rfl⟩,
    hsentence hone (by decide), hsentence htwo (by decide), ?_, fun heq => ?_⟩
  · rw [Expression.leaves_tree, Expression.leaves_tree]
    rfl
  · -- the one is made by the rule of the brackets, the other by that of the operator
    have hlabel := (Tree.node.inj heq).1
    revert hlabel
    decide

end BoundedLR
