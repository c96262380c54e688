import BoundedLR.Grammar
import BoundedLR.Grammar.Error
import BoundedLR.Ascending
import BoundedLR.Production

/-!
# The normal form of a grammar

`Grammar.normalize` checks a grammar and turns its rules into productions whose
slots carry the list of productions that may complete them.

## What is checked, and in which order

1. The start symbol has to be a non-terminal.
2. Rule by rule: the head has to be a non-terminal; no body symbol may be
   synthetic; and a marker has to stand behind a non-terminal, possibly with
   other markers in between.  Within a rule the first offence from the left is
   the one reported.
3. No operator may stand in two different priority levels.
4. Every marker has to admit at least one rule.

## Where the lists of acceptable productions come from

A slot with markers accepts what any of its markers admits, and the priorities
do not touch it.  A slot without markers is restricted only if it is an operand
of an operator rule.  The level of a rule is that of the first symbol of its
body which has one.  In a body of two or more symbols the first is the left
operand and the last the right operand, provided they equal the head.  A left
operand refuses the rules with a right operand that bind more weakly, a right
operand those with a left operand; among equals a right associative level
refuses on the left and a left associative level on the right.  A slot that
refuses nothing stays unrestricted.
-/

namespace BoundedLR

/-! ## Markers -/

/-- A symbol of a body with the markers that stand behind it. -/
structure MarkedSymbol where
  symbol : Symbol
  markers : List Marker
  deriving DecidableEq, Repr

namespace Rule

/-- Attaches each marker to the symbol in front of it.  The symbols read so far
are held in reverse. -/
def attachMarkers : List MarkedSymbol → List BodyElement →
    Except RuleFault (List MarkedSymbol)
  | done, [] => .ok done.reverse
  | done, .symbol s :: rest =>
    if s.isReserved then .error .reservedSymbol else attachMarkers (⟨s, []⟩ :: done) rest
  | ⟨s, markers⟩ :: done, .marker m :: rest =>
    if s.kind = .nonTerminal then attachMarkers (⟨s, markers ++ [m]⟩ :: done) rest
    else .error .strayMarker
  | [], .marker _ :: _ => .error .strayMarker

/-- The body of a rule with its markers attached, if the rule is well formed. -/
def markedBody (r : Rule) : Except RuleFault (List MarkedSymbol) :=
  match r.head.kind with
  | .terminal => .error .terminalHead
  | .start | .endOfInput => .error .reservedSymbol
  | .nonTerminal => attachMarkers [] r.body

end Rule

/-- A rule with its markers attached. -/
structure MarkedRule where
  head : Symbol
  mask : UInt64
  predict : Bool
  body : List MarkedSymbol
  deriving DecidableEq, Repr

/-- The productions that stand for the rules with a given property. -/
def productionsWhere (rules : List MarkedRule) (p : MarkedRule → Bool) : List Nat :=
  (rules.zipIdx.filter fun (r, _) => p r).map fun (_, i) => productionOfRule i

/-- The productions of `symbol` that a marker admits, in the rule with the given
head and number. -/
def Marker.admitted (rules : List MarkedRule) (head : Symbol) (rule : Nat) (symbol : Symbol) :
    Marker → List Nat
  | .itself => if symbol = head then [productionOfRule rule] else []
  | .mask m => productionsWhere rules fun r => r.head == symbol && r.mask == m

/-! ## Operator priorities -/

/-- The level of an operator, if it has been declared. -/
def levelOf (priorities : List PriorityLevel) (s : Symbol) : Option Nat :=
  priorities.findIdx? (·.symbols.contains s)

/-- The first operator, in the order of declaration, that stands in two levels,
with both of them. -/
def priorityClash? (priorities : List PriorityLevel) : Option (Symbol × Nat × Nat) :=
  priorities.zipIdx.findSome? fun (p, level) =>
    p.symbols.findSome? fun s =>
      match levelOf priorities s with
      | some first => if first = level then none else some (s, first, level)
      | none => none

namespace MarkedRule

/-- The level of the first symbol of the body that has one. -/
def level? (priorities : List PriorityLevel) (r : MarkedRule) : Option Nat :=
  r.body.findSome? fun m => levelOf priorities m.symbol

/-- Whether the body begins with an operand: it has two symbols or more, and the
first is the head again. -/
def hasLeftOperand (r : MarkedRule) : Bool :=
  2 ≤ r.body.length && r.body.head?.map (·.symbol) == some r.head

/-- Whether the body ends with an operand. -/
def hasRightOperand (r : MarkedRule) : Bool :=
  2 ≤ r.body.length && r.body.getLast?.map (·.symbol) == some r.head

end MarkedRule

/-- Whether an operand of a rule at `level`, whose level groups as `side` says,
refuses `other`.  The operand is a left or a right one as the two flags tell. -/
def refuses (priorities : List PriorityLevel) (level : Nat) (side : Associativity)
    (isLeft isRight : Bool) (other : MarkedRule) : Bool :=
  match other.level? priorities with
  | none => false
  | some otherLevel =>
    (isLeft && other.hasRightOperand &&
      (otherLevel < level || (otherLevel == level && side == .right))) ||
    (isRight && other.hasLeftOperand &&
      (otherLevel < level || (otherLevel == level && side == .left)))

/-- The productions that the priorities leave for the symbol at `place` of a
rule, or `none` if they refuse nothing there. -/
def operandFilter (rules : List MarkedRule) (priorities : List PriorityLevel)
    (r : MarkedRule) (place : Nat) : Option (List Nat) :=
  match r.level? priorities with
  | none => none
  | some level =>
    match priorities[level]? with
    | none => none
    | some p =>
      let isLeft := r.hasLeftOperand && place == 0
      let isRight := r.hasRightOperand && place + 1 == r.body.length
      let refused := fun other => refuses priorities level p.associativity isLeft isRight other
      if rules.any fun other => other.head == r.head && refused other then
        some (productionsWhere rules fun other => other.head == r.head && !refused other)
      else none

/-! ## Slots and productions -/

/-- The slot for one symbol of a rule, unless one of its markers admits nothing. -/
def slotOf (rules : List MarkedRule) (priorities : List PriorityLevel)
    (r : MarkedRule) (rule : Nat) (m : MarkedSymbol) (place : Nat) :
    Except RuleFault Slot :=
  match m.markers with
  | [] => .ok ⟨m.symbol, operandFilter rules priorities r place⟩
  | markers =>
    let admitted := markers.map fun marker => marker.admitted rules r.head rule m.symbol
    if admitted.any (·.isEmpty) then .error .unmatchedMarker
    else .ok ⟨m.symbol, some (ascending admitted.flatten)⟩

/-- The production for a rule. -/
def productionOf (rules : List MarkedRule) (priorities : List PriorityLevel)
    (r : MarkedRule) (rule : Nat) : Except RuleFault Production := do
  let slots ← r.body.zipIdx.mapM fun (m, place) => slotOf rules priorities r rule m place
  return ⟨r.head, r.mask, r.predict, slots⟩

/-- The synthetic production, which accepts a sentence of the start symbol that
the end of input follows. -/
def acceptingProduction (start : Symbol) : Production :=
  ⟨.start, 0, false, [⟨start, none⟩, ⟨.endOfInput, none⟩]⟩

/-- Turns a fault into a complaint about a rule. -/
def blameRule {α : Type} (rule : Nat) : Except RuleFault α → Except GrammarError α
  | .ok a => .ok a
  | .error fault => .error (.badRule fault rule)

/-- The normal form of a grammar, or the first complaint about it. -/
def Grammar.normalize (g : Grammar) : Except GrammarError Productions := do
  if g.start.kind ≠ .nonTerminal then
    throw .startNotNonTerminal
  let rules ← g.rules.zipIdx.mapM fun (r, i) => do
    let body ← blameRule i r.markedBody
    return MarkedRule.mk r.head r.mask r.predict body
  if let some (s, first, second) := priorityClash? g.priorities then
    throw (.priorityConflict s first second)
  let productions ← rules.zipIdx.mapM fun (r, i) =>
    blameRule i (productionOf rules g.priorities r i)
  return ⟨(acceptingProduction g.start :: productions).toArray⟩

end BoundedLR
