import BoundedLR.Calculator.Number
import BoundedLR.Symbol
import BoundedLR.Text.CodePoints
import BoundedLR.Text.Quoted

/-!
# The tokens of arithmetic

A formula is made of numbers, the four operators and parentheses, with white
space between them.  A number is a run of decimal digits; its value is found digit
by digit, and has to fit all the way.  Any other character is a mistake, which is
reported with its place, counted in bytes.
-/

namespace BoundedLR
namespace Calculator

/-! ## Symbols -/

/-- The terminal for numbers. -/
def number : Symbol := .terminal 0

/-- The terminal for addition. -/
def plus : Symbol := .terminal 1

/-- The terminal for subtraction. -/
def minus : Symbol := .terminal 2

/-- The terminal for multiplication. -/
def times : Symbol := .terminal 3

/-- The terminal for division. -/
def divide : Symbol := .terminal 4

/-- The terminal for an opening parenthesis. -/
def openParen : Symbol := .terminal 5

/-- The terminal for a closing parenthesis. -/
def closeParen : Symbol := .terminal 6

/-- The terminal for a single character other than a digit. -/
def punctuation? : Char → Option Symbol
  | '+' => some plus
  | '-' => some minus
  | '*' => some times
  | '/' => some divide
  | '(' => some openParen
  | ')' => some closeParen
  | _ => none

/-! ## Reading tokens -/

/-- A token of a formula.  The value means nothing unless it is a number. -/
structure Lexeme where
  symbol : Symbol
  value : Int64
  deriving DecidableEq, Repr

/-- A character that belongs to no token. -/
structure StrayCharacter where
  character : Char
  /-- The number of bytes in front of it. -/
  offset : Nat
  deriving DecidableEq, Repr

/-- The wording of the complaint about a character. -/
def StrayCharacter.message (e : StrayCharacter) : String :=
  "unexpected character " ++ quoted e.character ++ " at " ++ toString e.offset

/-- Why a text has no tokens. -/
inductive LexicalError where
  | stray (character : StrayCharacter)
  | overflow (overflow : Overflow)
  deriving DecidableEq, Repr

/-- The number that a digit makes of the digits in front of it. -/
def extend (value : Int64) (digit : Nat) : Except Overflow Int64 := do
  let tenfold ← fit .multiply (value.toInt * 10)
  fit .add (tenfold.toInt + digit)

/-- The token that a finished run of digits makes. -/
def numberToken : Option Int64 → List Lexeme
  | none => []
  | some value => [⟨number, value⟩]

/-- The tokens of a text that begins at a given byte, when a number may already
have been read in part. -/
def tokensFrom : Nat → Option Int64 → List Char → Except LexicalError (List Lexeme)
  | _, value, [] => .ok (numberToken value)
  | offset, value, c :: rest =>
    let next := offset + c.utf8Size
    if c.isDigit then do
      let value ← (extend (value.getD 0) (c.toNat - '0'.toNat)).mapError .overflow
      tokensFrom next (some value) rest
    else
      match punctuation? c with
      | some symbol => do
        let tokens ← tokensFrom next none rest
        return numberToken value ++ ⟨symbol, 0⟩ :: tokens
      | none =>
        if whiteSpace.holds c then do
          let tokens ← tokensFrom next none rest
          return numberToken value ++ tokens
        else .error (.stray ⟨c, offset⟩)

/-- The tokens of a text. -/
def tokens (text : String) : Except LexicalError (List Lexeme) :=
  tokensFrom 0 none text.toList

end Calculator
end BoundedLR
