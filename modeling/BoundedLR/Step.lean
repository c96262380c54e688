import BoundedLR.Symbol

/-!
# Tokens and steps

A token is a terminal with its place in the input.  A parse is reported as a flat
list of steps: the tokens that are shifted, the productions that are reduced, and
in front of everything that a production derives its announcement, if the
production asks for one.
-/

namespace BoundedLR

/-- The largest token index.  Indices are counted in 64 bits, and the count
stays where it is at the end. -/
def maxTokenIndex : Nat := UInt64.size - 1

/-- The index behind a token index. -/
def nextTokenIndex (i : Nat) : Nat := min (i + 1) maxTokenIndex

/-- A token: its symbol, and its place in the input. -/
structure Token where
  symbol : Symbol
  index : Nat
  deriving DecidableEq, Repr

/-- One step of a parse. -/
inductive Step where
  /-- A token is shifted.  The flag tells whether an announcement may still be
  due in front of it. -/
  | shift (symbol : Symbol) (token : Nat) (predict : Bool)
  /-- A rule is reduced, and its elements become one. -/
  | reduce (symbol : Symbol) (mask : UInt64) (rule : Nat) (count : Nat) (predict : Bool)
  /-- A rule is announced that will be reduced later. -/
  | predict (symbol : Symbol) (mask : UInt64) (rule : Nat)
  deriving DecidableEq, Repr

end BoundedLR
