import BoundedLR.Symbol
import BoundedLR.Text.Listing

/-!
# What can be wrong with a grammar

Three kinds of complaint stop the compilation of a grammar.  A rule, or the
start symbol, may be malformed; an operator may stand in two priority levels; or
a state of the automaton may be unable to settle on an action within the allowed
lookahead.  None of them can be recovered from: the author has to change the
grammar or to raise the bound.

Each complaint is a value that says what is wrong and where, and `message` is
its wording.  Rules are numbered as in the author's list, from zero.
-/

namespace BoundedLR

/-- What may be wrong with a single rule. -/
inductive RuleFault where
  /-- The head is a terminal. -/
  | terminalHead
  /-- A marker does not stand behind a non-terminal. -/
  | strayMarker
  /-- The head or a body symbol is synthetic. -/
  | reservedSymbol
  /-- A marker admits no rule at all. -/
  | unmatchedMarker
  deriving DecidableEq, Repr

/-- Why a state cannot settle on an action. -/
inductive ConflictKind where
  /-- Reductions can follow one another forever without consuming input. -/
  | endlessReduction
  /-- Two actions stay indistinguishable whatever follows. -/
  | ambiguity
  /-- Telling the actions apart takes more lookahead than allowed. -/
  | lookaheadExhausted
  deriving DecidableEq, Repr

/-- One of the actions that compete in a state. -/
inductive Competitor where
  | shift
  /-- The reduction of a rule of the author's list. -/
  | reduce (rule : Nat)
  deriving DecidableEq, Repr

/-- A state whose actions could not be told apart. -/
structure Conflict where
  kind : ConflictKind
  /-- The bound on the lookahead that the compilation was given. -/
  bound : Nat
  state : Nat
  /-- The author's rules with an item in the kernel of the state. -/
  rules : List Nat
  /-- The lookahead that the competing actions share. -/
  lookahead : List Symbol
  competitors : List Competitor
  /-- For an endless reduction the rules that are reduced, in order, until the
  chain starts repeating; empty otherwise. -/
  reductions : List Nat
  deriving DecidableEq, Repr

/-- What stops the compilation of a grammar. -/
inductive GrammarError where
  /-- The start symbol is not a non-terminal. -/
  | startNotNonTerminal
  /-- A rule is malformed. -/
  | badRule (fault : RuleFault) (rule : Nat)
  /-- An operator stands in two priority levels. -/
  | priorityConflict (operator : Symbol) (first second : Nat)
  /-- A state cannot settle on an action. -/
  | conflict (conflict : Conflict)
  deriving DecidableEq, Repr

/-- The name of a fault in messages. -/
def RuleFault.name : RuleFault → String
  | terminalHead => "TerminalSymbolAsProductionBegin"
  | strayMarker => "MaskNotFollowedNonTerminalSymbol"
  | reservedSymbol => "ReservedSymbol"
  | unmatchedMarker => "UndefinedMask"

/-- The name of a kind of conflict in messages. -/
def ConflictKind.name : ConflictKind → String
  | endlessReduction => "EndlessReduce"
  | ambiguity => "ConflictReduce"
  | lookaheadExhausted => "MaxForwardDetectNotPassed"

/-- How a competing action is written in messages. -/
def Competitor.text : Competitor → String
  | shift => "Shift"
  | reduce rule => "Reduce(" ++ toString rule ++ ")"

/-- The wording of a conflict. -/
def Conflict.message (c : Conflict) : String :=
  "grammar is not SLRX(" ++ toString c.bound ++ "): " ++ c.kind.name ++
    " at node " ++ toString c.state ++
    ", lookahead " ++ listing (c.lookahead.map Symbol.text) ++
    ", actions " ++ listing (c.competitors.map Competitor.text)

namespace GrammarError

/-- The name of the fault of a malformed start symbol in messages. -/
def startFaultName : String := "StartSymbolIsNotNonTerminal"

/-- The wording of a complaint about a grammar. -/
def message : GrammarError → String
  | startNotNonTerminal => "wrong production None: " ++ startFaultName
  | badRule fault rule =>
      "wrong production Some(" ++ toString rule ++ "): " ++ fault.name
  | priorityConflict operator first second =>
      "operator " ++ operator.text ++ " is declared in priority levels " ++
        toString first ++ " and " ++ toString second
  | conflict c => c.message

end GrammarError

end BoundedLR
