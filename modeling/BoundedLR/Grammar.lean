import BoundedLR.Symbol

/-!
# Grammars as their authors write them

A grammar has a start symbol, a list of rules and a list of operator priorities.
A rule derives a body of symbols from its head.  Behind a non-terminal of the
body the author may put markers, which restrict the rules that may complete it
there: `Marker.itself` admits the rule being declared, and `Marker.mask` every
rule of that non-terminal which carries the given mask.

The priorities are listed from the weakest level to the strongest.  Nothing in
this module interprets them; the normal form in `BoundedLR.Grammar.Normalize`
does.
-/

namespace BoundedLR

/-- A restriction on the rules that may complete the non-terminal before it. -/
inductive Marker where
  /-- Only the rule that is being declared. -/
  | itself
  /-- Only the rules that carry this mask. -/
  | mask (mask : UInt64)
  deriving DecidableEq, Repr

/-- One element of the body of a rule. -/
inductive BodyElement where
  | symbol (symbol : Symbol)
  | marker (marker : Marker)
  deriving DecidableEq, Repr

/-- A rule of a grammar.  The mask is a tag that is handed back whenever the
rule is reduced, and `predict` asks for an announcement in front of everything
the rule derives. -/
structure Rule where
  head : Symbol
  body : List BodyElement
  mask : UInt64
  predict : Bool
  deriving DecidableEq, Repr

/-- Which way operators of one level group. -/
inductive Associativity where
  | left
  | right
  deriving DecidableEq, Repr

/-- Operators that bind equally strongly and group the same way. -/
structure PriorityLevel where
  symbols : List Symbol
  associativity : Associativity
  deriving DecidableEq, Repr

/-- A grammar as its author writes it. -/
structure Grammar where
  start : Symbol
  rules : List Rule
  priorities : List PriorityLevel
  deriving DecidableEq, Repr

end BoundedLR
