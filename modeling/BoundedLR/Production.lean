import BoundedLR.Symbol

/-!
# Productions in normal form

In the normal form of a grammar every place of a body is a *slot*: a symbol
together with the productions that may complete it.  Markers and operator
priorities have been worked into these lists, so nothing after this point has to
know about either of them.

Productions are numbered from zero.  Production `0` is synthetic: it derives the
start marker into the start symbol and the end of input, and reducing it accepts
the input.  The author's rule `i` is production `i + 1`.
-/

namespace BoundedLR

/-- One place of the body of a production. -/
structure Slot where
  symbol : Symbol
  /-- The productions that may complete this slot, ascending.  With `none` every
  production of the symbol may. -/
  acceptable : Option (List Nat)
  deriving DecidableEq, Repr

/-- Whether a production may complete the slot. -/
def Slot.accepts (s : Slot) (candidate : Nat) : Bool :=
  match s.acceptable with
  | none => true
  | some list => list.contains candidate

/-- A production in normal form. -/
structure Production where
  head : Symbol
  mask : UInt64
  predict : Bool
  slots : List Slot
  deriving DecidableEq, Repr

/-- The number of the production that stands for a rule of the author. -/
def productionOfRule (rule : Nat) : Nat := rule + 1

/-- The rule that a production stands for.  The synthetic production stands for
none. -/
def ruleOfProduction? : Nat → Option Nat
  | 0 => none
  | p + 1 => some p

/-- The productions of a grammar in normal form, by number. -/
structure Productions where
  all : Array Production
  deriving DecidableEq, Repr

namespace Productions

/-- How many productions there are, the synthetic one included. -/
def count (g : Productions) : Nat := g.all.size

/-- The slots of a production.  A number that no production has stands for an
empty body. -/
def slots (g : Productions) (p : Nat) : List Slot :=
  match g.all[p]? with
  | some production => production.slots
  | none => []

/-- The slot at a place of a production's body. -/
def slot? (g : Productions) (p e : Nat) : Option Slot := (g.slots p)[e]?

/-- The number of slots of a production. -/
def length (g : Productions) (p : Nat) : Nat := (g.slots p).length

/-- The symbol that a production derives. -/
def head? (g : Productions) (p : Nat) : Option Symbol := (g.all[p]?).map (·.head)

/-- The productions with a given head, ascending. -/
def derives (g : Productions) (s : Symbol) : List Nat :=
  (List.range g.count).filter fun p => g.head? p == some s

/-- Whether production `candidate` may complete slot `e` of production `p`. -/
def accepts (g : Productions) (p e candidate : Nat) : Bool :=
  match g.slot? p e with
  | some slot => slot.accepts candidate
  | none => false

theorem mem_derives {g : Productions} {s : Symbol} {p : Nat} :
    p ∈ g.derives s ↔ g.head? p = some s := by
  simp only [derives, List.mem_filter, List.mem_range, beq_iff_eq, and_iff_right_iff_imp]
  intro h
  simp only [head?, Option.map_eq_some_iff] at h
  obtain ⟨_, h, _⟩ := h
  exact (Array.getElem?_eq_some_iff.1 h).1

/-- A production as one line of text: its number, its head and its body. -/
def productionText (g : Productions) (p : Nat) : String :=
  match g.all[p]? with
  | some production =>
      "(p" ++ toString p ++ ") " ++ production.head.text ++ " :=" ++
        String.join (production.slots.map fun slot => " " ++ slot.symbol.text)
  | none => ""

end Productions

/-! ## What a reduction does -/

/-- What a reduction does. -/
structure ReductionProperty where
  head : Symbol
  /-- The author's rule that is reduced.  It means nothing for the reduction that
  accepts the input. -/
  rule : Nat
  /-- How many elements are popped. -/
  count : Nat
  mask : UInt64
  /-- Whether the rule asks for an announcement. -/
  predict : Bool
  deriving DecidableEq, Repr

/-- Whether a reduction accepts the input. -/
def ReductionProperty.accepts (p : ReductionProperty) : Bool := p.head == .start

/-- What reducing a production does. -/
def Productions.property (g : Productions) (p : Nat) : ReductionProperty :=
  match g.all[p]? with
  | some production =>
    ⟨production.head, (ruleOfProduction? p).getD 0, production.slots.length,
      production.mask, production.predict⟩
  | none => ⟨.start, 0, 0, 0, false⟩

end BoundedLR
