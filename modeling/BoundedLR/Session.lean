import BoundedLR.Ascending
import BoundedLR.Machine.DryRun
import BoundedLR.Text.Listing

/-!
# Parsing one token at a time

A session takes the tokens of an input one after the other.  Each call either
takes the token, which may mean that it is only buffered as lookahead, or rejects
it and leaves the session as it was; so the caller may try another token.

A token is first tried out in a dry run and recorded only if that succeeds.  A
rejection lists the symbols that would have been taken in its place, in ascending
order.

The steps of the parse can be taken out while it is still going on: `clearSteps`
removes those that can no longer change.

Every operation that moves the machine is given the number of moves that one run
may make, and reads the table; it fails with a `Fault` if the moves do not
suffice, or if the table turns out not to hold what it refers to.
-/

namespace BoundedLR

/-- A token that was not taken. -/
structure Rejection where
  symbol : Symbol
  token : Nat
  /-- The symbols that would have been taken, ascending. -/
  expected : List Symbol
  deriving DecidableEq, Repr

/-- The wording of a rejection. -/
def Rejection.message (r : Rejection) : String :=
  "unacceptable symbol " ++ r.symbol.text ++ " at token " ++ toString r.token ++
    " (expected one of " ++ listing (r.expected.map Symbol.text) ++ ")"

/-- A parse that is going on. -/
structure Session (Node Level : Type) where
  configuration : Configuration (Record Node) Level
  /-- The index of the next token, unless the caller says otherwise. -/
  next : Nat
  deriving DecidableEq, Repr

namespace Session

variable {Node Level : Type}

/-- Whether the input has been accepted. -/
def accepted (s : Session Node Level) : Bool := s.configuration.stack.accepted

/-- The steps that are held. -/
def steps (s : Session Node Level) : List Step := s.configuration.stack.steps

/-- A session that has taken no token yet.  The startup node may reduce empty
productions before there is any. -/
def start (t : ParseTable Node Level) (moves : Nat) : Read (Session Node Level) := do
  let root ← t.root t.startup
  let (c, _) ← Machine.run t moves ⟨Record.start t.startup, [], ⟨root, 0⟩⟩
  return ⟨c, 0⟩

/-- Whether a symbol would be taken. -/
def wouldAccept (t : ParseTable Node Level) (moves : Nat) (s : Session Node Level)
    (symbol : Symbol) : Read Bool := do
  let c := s.configuration
  let (_, stall) ← Machine.run t moves
    ⟨DryRun.ofRecord c.stack, c.buffer ++ [⟨symbol, s.next⟩], c.cursor⟩
  return stall.isNone

/-- The symbols that would be taken, the end of input among them, ascending. -/
def expected (t : ParseTable Node Level) (moves : Nat) (s : Session Node Level) :
    Read (List Symbol) := do
  if s.accepted then return []
  else
    let top ← Read.ofOption (StateStack.peek s.configuration.stack 0)
    let symbols ← t.symbols top s.configuration.cursor.level
    let taken ← symbols.filterM (s.wouldAccept t moves)
    return ascending taken

/-- Takes a token, or rejects it. -/
def consume (t : ParseTable Node Level) (moves : Nat) (s : Session Node Level)
    (symbol : Symbol) (token : Nat) : Read (Session Node Level × Except Rejection Unit) := do
  if ← s.wouldAccept t moves symbol then
    let c := s.configuration
    let (c, stall) ← Machine.run t moves { c with buffer := c.buffer ++ [⟨symbol, token⟩] }
    let after : Session Node Level := ⟨c, nextTokenIndex token⟩
    match stall with
    | none => return (after, .ok ())
    | some _ => return (after, .error ⟨symbol, token, []⟩)
  else
    let expected ← s.expected t moves
    return (s, .error ⟨symbol, token, expected⟩)

/-- Takes the end of input.  Succeeds only if the tokens taken make up a
sentence. -/
def endOfInput (t : ParseTable Node Level) (moves : Nat) (s : Session Node Level) :
    Read (Session Node Level × Except Rejection Unit) := do
  let (after, result) ← s.consume t moves .endOfInput s.next
  match result with
  | .error rejection => return (after, .error rejection)
  | .ok () =>
    if after.accepted then return (after, .ok ())
    else
      let expected ← after.expected t moves
      return (after, .error ⟨.endOfInput, s.next, expected⟩)

/-- Removes the steps that can no longer change, and returns them. -/
def clearSteps (s : Session Node Level) : List Step × Session Node Level :=
  let (steps, stack) := s.configuration.stack.clearSteps
  (steps, { s with configuration := { s.configuration with stack := stack } })

end Session

end BoundedLR
