/-!
# The numbers of the calculator

The calculator computes with whole numbers of 64 bits, from `-2 ^ 63` up to `2 ^ 63 - 1`.
What an operation comes to is put into a number if it fits (`fit`); `fit_eq_ok` and
`fit_eq_error` say what either outcome means.  If it does not fit, there is no number to go
on with, and the calculator is broken off.
-/

namespace BoundedLR
namespace Calculator

/-- The operations that may come to a number that does not fit. -/
inductive Operation where
  | add
  | subtract
  | multiply
  | divide
  deriving DecidableEq, Repr

/-- The word for an operation. -/
def Operation.name : Operation → String
  | add => "add"
  | subtract => "subtract"
  | multiply => "multiply"
  | divide => "divide"

/-- An operation has come to a number that does not fit. -/
structure Overflow where
  operation : Operation
  deriving DecidableEq, Repr

/-- The wording of the complaint about a number that does not fit. -/
def Overflow.message (e : Overflow) : String :=
  "attempt to " ++ e.operation.name ++ " with overflow"

/-- Whether a whole number fits into 64 bits. -/
def Fits (v : Int) : Prop := Int64.minValue.toInt ≤ v ∧ v ≤ Int64.maxValue.toInt

instance (v : Int) : Decidable (Fits v) := inferInstanceAs (Decidable (_ ∧ _))

/-- What an operation comes to, if it fits. -/
def fit (operation : Operation) (v : Int) : Except Overflow Int64 :=
  if Fits v then .ok (.ofInt v) else .error ⟨operation⟩

end Calculator
end BoundedLR
