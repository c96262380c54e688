import Mathlib.Data.List.Basic
import BoundedLR.Proofs.OperatorExpressions

/-!
# Derivation trees of infix grammars

An infix grammar has one non-terminal `E` and the rules `E := E op E` for its
operators, `E := t` for its atoms, and perhaps `E := ( E )`.  Its derivation trees are
the trees of expressions, and which expressions they are depends on the slots.

* `Productions.Spells` is what has to be known of the productions: which symbols stand
  in the production of a body, and that the non-terminal has no others.
* `Productions.Spells.sentence_iff`: the sentences are the trees of the expressions
  every part of which has been accepted by its slot (`Expression.Respects`).
* `Productions.Spells.sentence_relaxed_iff`: if no slot is restricted, they are the
  trees of all expressions.
* `Expression.respects_iff`: a slot looks at the production right below it only, and
  still, if it decides by the operator found there as `Expression.Filters` says, this
  amounts to `Expression.Grouped`, which looks at all exposed operators.
-/

namespace BoundedLR

/-! ## Rules -/

namespace InfixSignature

/-- The bodies of the rules of an infix grammar. -/
def bodies (s : InfixSignature) : List (List Symbol) :=
  s.operators.map (fun o => [s.expression, o, s.expression]) ++ s.atoms.map (fun t => [t]) ++
    s.brackets.toList.map fun b => [b.1, s.expression, b.2]

theorem mem_bodies {s : InfixSignature} {body : List Symbol} : body ∈ s.bodies ↔
    (∃ o ∈ s.operators, body = [s.expression, o, s.expression]) ∨
      (∃ t ∈ s.atoms, body = [t]) ∨ ∃ b ∈ s.brackets, body = [b.1, s.expression, b.2] := by
  simp [bodies, eq_comm]

end InfixSignature

/-- What the derivation trees of an infix grammar depend on: which symbols stand in the
production of a body, and that there are no other productions of the non-terminal. -/
structure Productions.Spells (g : Productions) (s : InfixSignature) (label : List Symbol → Nat) :
    Prop where
  start : g.slot? 0 0 = some ⟨s.expression, none⟩
  symbols : ∀ body ∈ s.bodies, (g.slots (label body)).map (·.symbol) = body
  head : ∀ c, g.head? c = some s.expression ↔ ∃ body ∈ s.bodies, label body = c
  isTerminal_head : ∀ {c : Nat} {t : Symbol}, g.head? c = some t → t.isTerminal = false

namespace Expression

variable (s : InfixSignature)

/-- The body of the rule that an expression is made with. -/
def body : Expression → List Symbol
  | atom t => [t.symbol]
  | group o _ c => [o.symbol, s.expression, c.symbol]
  | operation _ o _ => [s.expression, o.symbol, s.expression]

/-- The derivation tree of an expression. -/
def tree (label : List Symbol → Nat) : Expression → Tree Nat
  | atom t => .node (label [t.symbol]) [.leaf t]
  | group o x c =>
    .node (label [o.symbol, s.expression, c.symbol]) [.leaf o, x.tree label, .leaf c]
  | operation l o r =>
    .node (label [s.expression, o.symbol, s.expression]) [l.tree label, .leaf o, r.tree label]

/-- Whether every part of an expression has been accepted by the slot that it
stands in. -/
def Respects (g : Productions) (label : List Symbol → Nat) : Expression → Prop
  | atom _ => True
  | group o x c =>
    g.accepts (label [o.symbol, s.expression, c.symbol]) 1 (label (x.body s)) = true ∧
      x.Respects g label
  | operation l o r =>
    g.accepts (label [s.expression, o.symbol, s.expression]) 0 (label (l.body s)) = true ∧
      g.accepts (label [s.expression, o.symbol, s.expression]) 2 (label (r.body s)) = true ∧
      l.Respects g label ∧ r.Respects g label

variable {s} {g : Productions} {label : List Symbol → Nat}

@[simp] theorem leaves_tree (x : Expression) : (x.tree s label).leaves = x.leaves := by
  induction x with
  | atom t => rfl
  | group o x c ih => simp [tree, leaves, Tree.leaves, Tree.leavesOfAll, ih]
  | operation l o r ihl ihr => simp [tree, leaves, Tree.leaves, Tree.leavesOfAll, ihl, ihr]

theorem Over.body_mem {x : Expression} (h : x.Over s) : x.body s ∈ s.bodies := by
  rw [InfixSignature.mem_bodies]
  cases x with
  | atom t => exact .inr (.inl ⟨_, h, rfl⟩)
  | group o x c => exact .inr (.inr ⟨_, h.1, rfl⟩)
  | operation l o r => exact .inl ⟨_, h.2.1, rfl⟩

end Expression

namespace Productions.Spells

variable {g : Productions} {s : InfixSignature} {label : List Symbol → Nat}

/-- The slots of a body. -/
theorem exists_slot (hg : g.Spells s label) {body : List Symbol} (hb : body ∈ s.bodies) {e : Nat}
    {t : Symbol} (ht : body[e]? = some t) :
    ∃ slot, g.slot? (label body) e = some slot ∧ slot.symbol = t := by
  rw [← hg.symbols body hb, List.getElem?_map] at ht
  exact Option.map_eq_some_iff.1 ht

theorem length_eq (hg : g.Spells s label) {body : List Symbol} (hb : body ∈ s.bodies) :
    g.length (label body) = body.length := by
  rw [Productions.length, ← congrArg List.length (hg.symbols body hb), List.length_map]

theorem accepts_of_slot? {p e c : Nat} {slot : Slot} (hslot : g.slot? p e = some slot)
    (h : g.accepts p e c = true) : slot.accepts c = true := by
  rwa [Productions.accepts, hslot] at h

/-- A slot of a terminal holds a token. -/
theorem exists_of_fits_terminal (hg : g.Spells s label) {p e : Nat} {t : Tree Nat} {slot : Slot}
    (h : g.Fits p e t) (hslot : g.slot? p e = some slot) (ht : slot.symbol.kind = .terminal) :
    ∃ token, t = .leaf token ∧ token.symbol = slot.symbol := by
  cases h with
  | token hslot' hsymbol _ =>
      rw [hslot, Option.some.injEq] at hslot'
      subst hslot'
      exact ⟨_, rfl, hsymbol⟩
  | production hslot' hhead _ _ _ =>
      rw [hslot, Option.some.injEq] at hslot'
      subst hslot'
      have hn := hg.isTerminal_head hhead
      rw [Symbol.isTerminal, ht] at hn
      cases hn

/-- A token fits a slot of its own symbol. -/
theorem fits_leaf (hg : g.Spells s label) {body : List Symbol} (hb : body ∈ s.bodies) {e : Nat}
    {token : Token} (he : body[e]? = some token.symbol) (ht : token.symbol.kind = .terminal) :
    g.Fits (label body) e (.leaf token) := by
  obtain ⟨slot, hslot, hsymbol⟩ := hg.exists_slot hb he
  refine .token hslot hsymbol.symm ?_
  rw [hsymbol, Symbol.isTerminal, ht]
  rfl

/-- The tree of an expression that respects the slots fits every slot that accepts its
root. -/
theorem fits_tree (hs : s.WellFormed) (hg : g.Spells s label) {x : Expression} (hx : x.Over s)
    (hr : x.Respects s g label) {p e : Nat} {slot : Slot} (hslot : g.slot? p e = some slot)
    (hsymbol : slot.symbol = s.expression) (haccepts : slot.accepts (label (x.body s)) = true) :
    g.Fits p e (x.tree s label) := by
  -- The head and the length of the production are the same for every kind of expression.
  have hnode : ∀ {y : Expression} {children : List (Tree Nat)} {p e : Nat} {slot : Slot},
      y.Over s → g.slot? p e = some slot → slot.symbol = s.expression →
      slot.accepts (label (y.body s)) = true → children.length = (y.body s).length →
      (∀ i t, children[i]? = some t → g.Fits (label (y.body s)) i t) →
      g.Fits p e (.node (label (y.body s)) children) := by
    intro y children p e slot hy hslot hsymbol haccepts hlength hfits
    refine .production hslot ?_ haccepts (hlength.trans (hg.length_eq hy.body_mem).symm) hfits
    rw [hsymbol, hg.head]
    exact ⟨_, hy.body_mem, rfl⟩
  induction x generalizing p e slot with
  | atom t =>
      refine hnode (y := .atom t) hx hslot hsymbol haccepts rfl fun i u hi => ?_
      rcases i with - | i
      · obtain rfl := Option.some.inj hi
        exact hg.fits_leaf hx.body_mem rfl (hs.atom_kind _ hx)
      · cases hi
  | group o x c ih =>
      refine hnode (y := .group o x c) hx hslot hsymbol haccepts rfl fun i u hi => ?_
      rcases i with - | - | - | i
      · obtain rfl := Option.some.inj hi
        exact hg.fits_leaf hx.body_mem rfl (hs.bracket_kind _ hx.1).1
      · obtain rfl := Option.some.inj hi
        obtain ⟨inner, hinner, hsymbol⟩ := hg.exists_slot hx.body_mem (e := 1) rfl
        exact ih hx.2 hr.2 hinner hsymbol (accepts_of_slot? hinner hr.1)
      · obtain rfl := Option.some.inj hi
        exact hg.fits_leaf hx.body_mem rfl (hs.bracket_kind _ hx.1).2
      · cases hi
  | operation l o r ihl ihr =>
      refine hnode (y := .operation l o r) hx hslot hsymbol haccepts rfl fun i u hi => ?_
      obtain ⟨hleft, hright, hl, hr⟩ := hr
      rcases i with - | - | - | i
      · obtain rfl := Option.some.inj hi
        obtain ⟨inner, hinner, hsymbol⟩ := hg.exists_slot hx.body_mem (e := 0) rfl
        exact ihl hx.1 hl hinner hsymbol (accepts_of_slot? hinner hleft)
      · obtain rfl := Option.some.inj hi
        exact hg.fits_leaf hx.body_mem rfl (hs.operator_kind _ hx.2.1)
      · obtain rfl := Option.some.inj hi
        obtain ⟨inner, hinner, hsymbol⟩ := hg.exists_slot hx.body_mem (e := 2) rfl
        exact ihr hx.2.2 hr hinner hsymbol (accepts_of_slot? hinner hright)
      · cases hi

/-- Whatever fits a slot of the non-terminal is the tree of an expression. -/
theorem exists_of_fits (hs : s.WellFormed) (hg : g.Spells s label) {p e : Nat} {t : Tree Nat}
    (h : g.Fits p e t) {slot : Slot} (hslot : g.slot? p e = some slot)
    (hsymbol : slot.symbol = s.expression) : ∃ x : Expression, x.Over s ∧
      x.Respects s g label ∧ slot.accepts (label (x.body s)) = true ∧ x.tree s label = t := by
  induction h generalizing slot with
  | token hslot' _ hterminal =>
      rw [hslot', Option.some.injEq] at hslot
      rw [hslot, hsymbol, Symbol.isTerminal, hs.expression_kind] at hterminal
      cases hterminal
  | @production p e c slot' children hslot' hhead haccepts hlength hfits ih =>
      rw [hslot', Option.some.injEq] at hslot
      subst hslot
      rw [hsymbol, hg.head] at hhead
      obtain ⟨body, hb, rfl⟩ := hhead
      rw [hg.length_eq hb] at hlength
      -- What stands under a slot of the non-terminal, and under one of a terminal.
      have hexpression : ∀ {i : Nat} {t : Tree Nat}, children[i]? = some t →
          body[i]? = some s.expression → ∃ x : Expression, x.Over s ∧ x.Respects s g label ∧
            g.accepts (label body) i (label (x.body s)) = true ∧ x.tree s label = t := by
        intro i t hi he
        obtain ⟨slot, hslot, hsymbol⟩ := hg.exists_slot hb he
        obtain ⟨x, hx, hr, haccepts, ht⟩ := ih i t hi hslot hsymbol
        refine ⟨x, hx, hr, ?_, ht⟩
        rwa [Productions.accepts, hslot]
      have htoken : ∀ {i : Nat} {t : Tree Nat} {symbol : Symbol}, children[i]? = some t →
          body[i]? = some symbol → symbol.kind = .terminal →
            ∃ token, t = .leaf token ∧ token.symbol = symbol := by
        intro i t symbol hi he hk
        obtain ⟨slot, hslot, rfl⟩ := hg.exists_slot hb he
        exact hg.exists_of_fits_terminal (hfits i t hi) hslot hk
      rcases InfixSignature.mem_bodies.1 hb with
        ⟨o, ho, rfl⟩ | ⟨a, ha, rfl⟩ | ⟨⟨o, c⟩, hbracket, rfl⟩
      · obtain ⟨t₀, t₁, t₂, rfl⟩ := List.length_eq_three.1 hlength
        obtain ⟨l, hl, hlr, hleft, rfl⟩ := hexpression (i := 0) rfl rfl
        obtain ⟨token, rfl, rfl⟩ := htoken (i := 1) rfl rfl (hs.operator_kind o ho)
        obtain ⟨r, hr, hrr, hright, rfl⟩ := hexpression (i := 2) rfl rfl
        exact ⟨.operation l token r, ⟨hl, ho, hr⟩, ⟨hleft, hright, hlr, hrr⟩, haccepts, rfl⟩
      · obtain ⟨t₀, rfl⟩ := List.length_eq_one_iff.1 hlength
        obtain ⟨token, rfl, rfl⟩ := htoken (i := 0) rfl rfl (hs.atom_kind a ha)
        exact ⟨.atom token, ha, trivial, haccepts, rfl⟩
      · obtain ⟨t₀, t₁, t₂, rfl⟩ := List.length_eq_three.1 hlength
        obtain ⟨opening, rfl, rfl⟩ := htoken (i := 0) rfl rfl (hs.bracket_kind _ hbracket).1
        obtain ⟨x, hx, hr, hinner, rfl⟩ := hexpression (i := 1) rfl rfl
        obtain ⟨closing, rfl, rfl⟩ := htoken (i := 2) rfl rfl (hs.bracket_kind _ hbracket).2
        exact ⟨.group opening x closing, ⟨hbracket, hx⟩, ⟨hinner, hr⟩, haccepts, rfl⟩

/-- **The sentences of an infix grammar are the trees of the expressions that respect its
slots.** -/
theorem sentence_iff (hs : s.WellFormed) (hg : g.Spells s label) {t : Tree Nat} :
    g.Sentence t ↔ ∃ x : Expression, x.Over s ∧ x.Respects s g label ∧ x.tree s label = t := by
  constructor
  · intro h
    obtain ⟨x, hx, hr, -, ht⟩ := hg.exists_of_fits hs h hg.start rfl
    exact ⟨x, hx, hr, ht⟩
  · rintro ⟨x, hx, hr, rfl⟩
    exact hg.fits_tree hs hx hr hg.start rfl rfl

end Productions.Spells

/-! ## Without restrictions -/

/-- A slot without its restriction. -/
def Slot.relaxed (slot : Slot) : Slot := ⟨slot.symbol, none⟩

/-- The productions with every restriction removed. -/
def Productions.relaxed (g : Productions) : Productions :=
  ⟨g.all.map fun p => { p with slots := p.slots.map Slot.relaxed }⟩

namespace Productions

variable {g : Productions} {s : InfixSignature} {label : List Symbol → Nat}

theorem slots_relaxed (g : Productions) (p : Nat) :
    g.relaxed.slots p = (g.slots p).map Slot.relaxed := by
  rw [slots, slots, relaxed, Array.getElem?_map]
  cases g.all[p]? <;> rfl

theorem head?_relaxed (g : Productions) (p : Nat) : g.relaxed.head? p = g.head? p := by
  rw [head?, head?, relaxed, Array.getElem?_map]
  cases g.all[p]? <;> rfl

/-- Without restrictions every slot accepts everything. -/
theorem accepts_relaxed {p e : Nat} (h : e < g.length p) (c : Nat) :
    g.relaxed.accepts p e c = true := by
  have hslot : g.relaxed.slot? p e = some (g.slots p)[e].relaxed := by
    rw [slot?, slots_relaxed, List.getElem?_map, List.getElem?_eq_getElem h]
    rfl
  rw [accepts, hslot]
  rfl

theorem Spells.relaxed (hg : g.Spells s label) : g.relaxed.Spells s label where
  start := by
    rw [slot?, slots_relaxed, List.getElem?_map]
    exact congrArg (Option.map Slot.relaxed) hg.start
  symbols body hb := by
    rw [slots_relaxed, List.map_map]
    exact hg.symbols body hb
  head c := by rw [head?_relaxed, hg.head]
  isTerminal_head h := hg.isTerminal_head (head?_relaxed g _ ▸ h)

/-- The unrestricted sentences of an infix grammar are the trees of all expressions. -/
theorem Spells.sentence_relaxed_iff (hs : s.WellFormed) (hg : g.Spells s label) {t : Tree Nat} :
    g.relaxed.Sentence t ↔ ∃ x : Expression, x.Over s ∧ x.tree s label = t := by
  have hlt : ∀ {y : Expression} {e : Nat}, y.Over s → e < (y.body s).length →
      e < g.length (label (y.body s)) := fun hy he => (hg.length_eq hy.body_mem).symm ▸ he
  have hrespects : ∀ {x : Expression}, x.Over s → x.Respects s g.relaxed label := by
    intro x hx
    induction x with
    | atom t => trivial
    | group o x c ih => exact ⟨accepts_relaxed (hlt hx (by decide : 1 < 3)) _, ih hx.2⟩
    | operation l o r ihl ihr =>
        exact ⟨accepts_relaxed (hlt hx (by decide : 0 < 3)) _,
          accepts_relaxed (hlt hx (by decide : 2 < 3)) _, ihl hx.1, ihr hx.2.2⟩
  rw [hg.relaxed.sentence_iff hs]
  exact exists_congr fun x => ⟨fun h => ⟨h.1, h.2.2⟩, fun h => ⟨h.1, hrespects h.1, h.2⟩⟩

end Productions

/-! ## Looking one level down -/

namespace Expression

/-- The operator at the root of an expression. -/
def root? : Expression → Option Symbol
  | atom _ => none
  | group _ _ _ => none
  | operation _ o _ => some o.symbol

/-- What the filters of a normal form say: a slot of an operand looks at the operator at
the root, and the slot between brackets accepts everything. -/
structure Filters (g : Productions) (s : InfixSignature) (label : List Symbol → Nat) : Prop where
  left : ∀ {o : Symbol} {x : Expression}, o ∈ s.operators → x.Over s →
    (g.accepts (label [s.expression, o, s.expression]) 0 (label (x.body s)) = true ↔
      ∀ q ∈ x.root?, MayStand s.levels .left o q)
  right : ∀ {o : Symbol} {x : Expression}, o ∈ s.operators → x.Over s →
    (g.accepts (label [s.expression, o, s.expression]) 2 (label (x.body s)) = true ↔
      ∀ q ∈ x.root?, MayStand s.levels .right o q)
  inner : ∀ {b : Symbol × Symbol} {x : Expression}, b ∈ s.brackets → x.Over s →
    g.accepts (label [b.1, s.expression, b.2]) 1 (label (x.body s)) = true

variable {g : Productions} {s : InfixSignature} {label : List Symbol → Nat}

theorem mem_operators_of_root? {x : Expression} {q : Symbol} (h : q ∈ x.root?) :
    q ∈ x.operators := by
  cases x with
  | atom t => cases h
  | group o x c => cases h
  | operation l o r =>
      obtain rfl : o.symbol = q := Option.some.inj h
      simp [operators]

/-- If the root of a grouped expression may stand somewhere, all it exposes may. -/
theorem Grouped.mayStand_of_root {priorities : List PriorityLevel} {x : Expression}
    (h : x.Grouped priorities) {side : Associativity} {o : Symbol}
    (hroot : ∀ q ∈ x.root?, MayStand priorities side o q) :
    ∀ q ∈ x.operators, MayStand priorities side o q := by
  cases x with
  | atom t => simp [operators]
  | group p x c => simp [operators]
  | operation l q r =>
      obtain ⟨-, -, hl, hr⟩ := h
      have hq : MayStand priorities side o q.symbol := hroot q.symbol rfl
      intro u hu
      rw [operators, List.mem_append, List.mem_cons] at hu
      rcases hu with hu | rfl | hu
      · exact hq.trans (hl u hu)
      · exact hq
      · exact hq.trans (hr u hu)

/-- **Looking one level down is looking at everything exposed.** -/
theorem respects_iff (hf : Filters g s label) {x : Expression} (hx : x.Over s) :
    x.Respects s g label ↔ x.Grouped s.levels := by
  induction x with
  | atom t => exact Iff.rfl
  | group o x c ih => exact ⟨fun h => (ih hx.2).1 h.2, fun h => ⟨hf.inner hx.1 hx.2, (ih hx.2).2 h⟩⟩
  | operation l o r ihl ihr =>
      obtain ⟨hl, ho, hr⟩ := hx
      rw [Respects, Grouped, hf.left ho hl, hf.right ho hr, ihl hl, ihr hr]
      constructor
      · rintro ⟨hleft, hright, hgl, hgr⟩
        exact ⟨hgl, hgr, hgl.mayStand_of_root hleft, hgr.mayStand_of_root hright⟩
      · rintro ⟨hgl, hgr, hleft, hright⟩
        exact ⟨fun q hq => hleft q (mem_operators_of_root? hq),
          fun q hq => hright q (mem_operators_of_root? hq), hgl, hgr⟩

end Expression

end BoundedLR
