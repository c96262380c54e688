import BoundedLR.Step

/-!
# Replaying a parse

The steps of a parse are turned into a value by a *reducer*, which says what a
token is worth, what a reduced rule is worth given its elements, and what to do
about an announcement.  A reducer may keep a state of its own, and it may fail;
its state survives a failure.

`Replay` keeps the stack of completed elements between batches of steps, so the
steps can be handed over as they become available.  Each element knows the
tokens that it covers.  An element without children covers none, and its place is
behind the last token shifted so far.
-/

namespace BoundedLR

/-- The tokens from `start` on and before `stop`. -/
structure TokenRange where
  start : Nat
  stop : Nat
  deriving DecidableEq, Repr

/-- A completed element, with the value that the reducer gave it. -/
structure Element (α : Type) where
  symbol : Symbol
  tokens : TokenRange
  value : α
  deriving DecidableEq, Repr

/-- A rule that is reduced, with its elements. -/
structure ReducedRule (α : Type) where
  symbol : Symbol
  mask : UInt64
  rule : Nat
  tokens : TokenRange
  children : List (Element α)
  deriving DecidableEq, Repr

/-- A rule that is announced. -/
structure Announcement where
  symbol : Symbol
  mask : UInt64
  rule : Nat
  /-- The first token of the rule, unless it covers none. -/
  token : Nat
  deriving DecidableEq, Repr

/-- Gives values to the elements of a parse.  Each callback takes the state of the
reducer and returns the next one, together with a value or an error. -/
structure Reducer (σ ε α : Type) where
  terminal : σ → Symbol → Nat → σ × Except ε α
  nonTerminal : σ → ReducedRule α → σ × Except ε α
  predict : σ → Announcement → σ × Except ε Unit

/-- Why a replay cannot go on. -/
inductive ReplayError (ε : Type) where
  /-- The reducer failed. -/
  | reducer (error : ε)
  /-- A rule needs more elements than there are. -/
  | underflow (rule needed available : Nat)
  /-- The replay ends with some other number of elements than one. -/
  | unfinished (remaining : Nat)
  deriving DecidableEq, Repr

/-- The wording of a complaint about a replay. -/
def ReplayError.message {ε : Type} (text : ε → String) : ReplayError ε → String
  | reducer error => "reducer failed: " ++ text error
  | underflow rule needed available =>
    "reduce of production " ++ toString rule ++ " needs " ++ toString needed ++
      " elements, only " ++ toString available ++ " available"
  | unfinished remaining =>
    "parsing finished with " ++ toString remaining ++ " elements on the stack"

/-- A replay that is going on. -/
structure Replay (α : Type) where
  /-- The completed elements, the latest first. -/
  stack : List (Element α)
  /-- The index behind the last token. -/
  next : Nat
  deriving DecidableEq, Repr

namespace Replay

variable {σ ε α : Type}

/-- A replay that has seen no step. -/
def start : Replay α := ⟨[], 0⟩

/-- The tokens that neighbouring elements cover.  Without elements the range is
empty and lies at the given index. -/
def cover (next : Nat) (children : List (Element α)) : TokenRange :=
  match children.head?, children.getLast? with
  | some first, some last => ⟨first.tokens.start, last.tokens.stop⟩
  | _, _ => ⟨next, next⟩

/-- Carries out one step.  The elements of a reduced rule are gone also if the
reducer then fails. -/
def step (r : Reducer σ ε α) (s : σ) (p : Replay α) :
    Step → σ × Replay α × Except (ReplayError ε) Unit
  | .shift symbol token _ =>
    match r.terminal s symbol token with
    | (s, .error e) => (s, p, .error (.reducer e))
    | (s, .ok value) =>
      let stop := nextTokenIndex token
      (s, ⟨⟨symbol, ⟨token, stop⟩, value⟩ :: p.stack, stop⟩, .ok ())
  | .reduce symbol mask rule count _ =>
    if p.stack.length < count then
      (s, p, .error (.underflow rule count p.stack.length))
    else
      let children := (p.stack.take count).reverse
      let rest := p.stack.drop count
      let tokens := cover p.next children
      match r.nonTerminal s ⟨symbol, mask, rule, tokens, children⟩ with
      | (s, .error e) => (s, { p with stack := rest }, .error (.reducer e))
      | (s, .ok value) => (s, { p with stack := ⟨symbol, tokens, value⟩ :: rest }, .ok ())
  | .predict symbol mask rule =>
    match r.predict s ⟨symbol, mask, rule, p.next⟩ with
    | (s, .error e) => (s, p, .error (.reducer e))
    | (s, .ok ()) => (s, p, .ok ())

/-- Carries out steps up to the first that fails. -/
def consume (r : Reducer σ ε α) (s : σ) (p : Replay α) :
    List Step → σ × Replay α × Except (ReplayError ε) Unit
  | [] => (s, p, .ok ())
  | x :: rest =>
    match step r s p x with
    | (s, p, .ok ()) => consume r s p rest
    | (s, p, .error e) => (s, p, .error e)

/-- Ends a replay.  The value of the one element left is the result. -/
def finish (p : Replay α) : Except (ReplayError ε) α :=
  match p.stack with
  | [element] => .ok element.value
  | stack => .error (.unfinished stack.length)

/-- Replays a whole parse. -/
def process (r : Reducer σ ε α) (s : σ) (steps : List Step) :
    σ × Except (ReplayError ε) α :=
  match consume r s start steps with
  | (s, p, .ok ()) => (s, p.finish)
  | (s, _, .error e) => (s, .error e)

end Replay

end BoundedLR
