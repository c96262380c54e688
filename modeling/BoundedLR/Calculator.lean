import BoundedLR.Calculator.Token
import BoundedLR.Parser
import BoundedLR.Replay
import BoundedLR.Session
import BoundedLR.Table.View
import BoundedLR.Table.Write

/-!
# A calculator

The calculator evaluates a formula of whole numbers.  It uses the library the way
a program with an embedded table would: the grammar is compiled and stored, the
stored table is read back, the tokens of the formula are parsed one at a time,
and the steps are replayed as soon as they can no longer change.

The grammar has one non-terminal and is ambiguous as it stands; the priorities
make multiplication and division bind more strongly than addition and
subtraction, and let all four group to the left.  Division cuts off towards zero.
Dividing by zero is an error at the first token of the dividend.  Where a number
would not fit into 64 bits, the calculator is broken off.
-/

namespace BoundedLR
namespace Calculator

/-! ## The grammar -/

/-- The one non-terminal. -/
def expression : Symbol := .nonTerminal 0

/-- The rule that makes an expression of given symbols. -/
def expressionRule (body : List Symbol) : Rule :=
  ⟨expression, body.map .symbol, 0, false⟩

/-- The grammar of formulas. -/
def grammar : Grammar where
  start := expression
  rules :=
    [expressionRule [expression, plus, expression],
      expressionRule [expression, minus, expression],
      expressionRule [expression, times, expression],
      expressionRule [expression, divide, expression],
      expressionRule [openParen, expression, closeParen],
      expressionRule [number]]
  priorities := [⟨[plus, minus], .left⟩, ⟨[times, divide], .left⟩]

/-! ## Values -/

/-- A division by zero. -/
structure DivisionByZero where
  /-- The first token of the dividend. -/
  token : Nat
  deriving DecidableEq, Repr

/-- The wording of the complaint about a division by zero. -/
def DivisionByZero.message (e : DivisionByZero) : String :=
  "division by zero at token " ++ toString e.token

/-- Why an operation has no result. -/
inductive Failure where
  | divisionByZero (error : DivisionByZero)
  | overflow (overflow : Overflow)
  deriving DecidableEq, Repr

/-- The wording of the complaint about an operation. -/
def Failure.message : Failure → String
  | divisionByZero e => e.message
  | overflow e => e.message

/-- What an operation comes to, or that it does not fit. -/
def result (operation : Operation) (v : Int) : Except Failure Int64 :=
  (fit operation v).mapError .overflow

/-- The value of a rule, given the values of its elements. -/
def operate (rule token : Nat) (values : List Int64) : Except Failure Int64 :=
  match rule, values with
  | 0, [a, _, b] => result .add (a.toInt + b.toInt)
  | 1, [a, _, b] => result .subtract (a.toInt - b.toInt)
  | 2, [a, _, b] => result .multiply (a.toInt * b.toInt)
  | 3, [a, _, b] =>
    if b = 0 then .error (.divisionByZero ⟨token⟩)
    else result .divide (a.toInt.tdiv b.toInt)
  | 4, [_, a, _] => .ok a
  | _, values => .ok (values.headD 0)

/-- Evaluates a formula with given tokens.  There is no state to keep. -/
def reducer (lexemes : List Lexeme) : Reducer Unit Failure Int64 where
  terminal _ _ token := ((), .ok ((lexemes[token]?.map (·.value)).getD 0))
  nonTerminal _ r := ((), operate r.rule r.tokens.start (r.children.map (·.value)))
  predict _ _ := ((), .ok ())

/-! ## Evaluation -/

/-- Why a formula has no value. -/
inductive EvaluationError where
  | rejected (rejection : Rejection)
  | replay (error : ReplayError Failure)
  | fault (fault : Fault)
  deriving DecidableEq, Repr

/-- The wording of the complaint about a formula. -/
def EvaluationError.message : EvaluationError → String
  | rejected rejection => rejection.message
  | replay error => error.message Failure.message
  | fault .outOfBounds => "the table does not hold what it refers to"
  | fault .outOfFuel => "the table keeps the parser from coming to an end"

/-- The result of a look-up, as part of an evaluation. -/
def ofRead {α : Type} : Read α → Except EvaluationError α
  | .ok a => .ok a
  | .error f => .error (.fault f)

/-- An evaluation that is going on. -/
structure Evaluation where
  session : Session Nat Nat
  replay : Replay Int64

/-- Replays the steps that can no longer change. -/
def Evaluation.settle (lexemes : List Lexeme) (e : Evaluation) :
    Except EvaluationError Evaluation :=
  let (steps, session) := e.session.clearSteps
  match e.replay.consume (reducer lexemes) () steps with
  | (_, replay, .ok ()) => .ok ⟨session, replay⟩
  | (_, _, .error error) => .error (.replay error)

/-- Takes the outcome of giving a token to the session. -/
def Evaluation.after (lexemes : List Lexeme) (e : Evaluation)
    (outcome : Read (Session Nat Nat × Except Rejection Unit)) :
    Except EvaluationError Evaluation := do
  match ← ofRead outcome with
  | (_, .error rejection) => throw (.rejected rejection)
  | (session, .ok ()) => Evaluation.settle lexemes { e with session := session }

/-- How many moves one token may take.  A move that pushes no token makes the
stack shorter or is followed by one that does. -/
def movesFor (lexemes : List Lexeme) : Nat := 4 * lexemes.length + 16

/-- Takes the tokens that are left, the first of them with a given index. -/
def Evaluation.takeAll (t : Table) (moves : Nat) (lexemes : List Lexeme) (e : Evaluation) :
    Nat → List Lexeme → Except EvaluationError Evaluation
  | _, [] => .ok e
  | index, lexeme :: rest => do
    let e ← e.after lexemes (e.session.consume t.table moves lexeme.symbol index)
    Evaluation.takeAll t moves lexemes e (index + 1) rest

/-- The value of a formula with given tokens, found with a stored table. -/
def evaluate (t : Table) (lexemes : List Lexeme) : Except EvaluationError Int64 := do
  let moves := movesFor lexemes
  let session ← ofRead (Session.start t.table moves)
  let e ← Evaluation.takeAll t moves lexemes ⟨session, .start⟩ 0 lexemes
  let e ← e.after lexemes (e.session.endOfInput t.table moves)
  match e.replay.finish with
  | .ok value => return value
  | .error error => throw (.replay error)

/-! ## The command line -/

/-- What the calculator leaves behind if it ends by itself. -/
structure Transcript where
  code : UInt32
  output : String
  errors : String
  deriving DecidableEq, Repr

/-- How a run of the calculator ends. -/
inductive Outcome where
  | ended (transcript : Transcript)
  /-- After the given output a number does not fit. -/
  | brokenOff (output : String) (overflow : Overflow)
  deriving DecidableEq, Repr

/-- The transcript of a failure, after the given output. -/
def failure (output message : String) : Transcript := ⟨1, output, message ++ "\n"⟩

/-- How the calculator ends if a text has no tokens. -/
def LexicalError.outcome (output : String) : LexicalError → Outcome
  | stray e => .ended (failure output e.message)
  | overflow e => .brokenOff output e

/-- How the calculator ends if a formula has no value. -/
def EvaluationError.outcome (output : String) : EvaluationError → Outcome
  | replay (.reducer (.overflow e)) => .brokenOff output e
  | e => .ended (failure output e.message)

/-- The formula that is evaluated if none is given. -/
def sample : String := "(42 + 24) / 2"

/-- The formula that arguments stand for. -/
def formula (arguments : List String) : String :=
  let text := String.intercalate " " arguments
  if text.isEmpty then sample else text

/-- Runs the calculator on the arguments of a command line. -/
def run (arguments : List String) : Outcome :=
  let text := formula arguments
  match grammar.compile 1 with
  | .error e => .ended (failure "" ("grammar error: " ++ e.message))
  | .ok parser =>
    match parser.toTable .bits16 with
    | .error e => .ended (failure "" e.message)
    | .ok buffer =>
      let size := "table: " ++ toString parser.nodes.size ++ " nodes, " ++
        toString buffer.words.size ++ " words\n"
      match Table.ofWords buffer.words with
      | .error e => .ended (failure size e.message)
      | .ok table =>
        match tokens text with
        | .error e => e.outcome size
        | .ok lexemes =>
          match evaluate table lexemes with
          | .error e => e.outcome size
          | .ok value =>
            .ended ⟨0, size ++ text ++ " = " ++ toString value.toInt ++ "\n", ""⟩

end Calculator
end BoundedLR
