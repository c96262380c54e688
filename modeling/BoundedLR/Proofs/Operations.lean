import BoundedLR.Proofs.MachineMoves
import BoundedLR.Session

/-!
# Sequences of operations

What is proved about a session is proved about sequences of operations on it.
There are two of them here.  `Session.parse` is the ordinary use: the tokens of an
input one after the other, and then the end of input.  `Session.transcript` is any
use at all, and keeps what a caller gets to see.

`consume_eq_ok` says in terms of the machine when a token is taken, and
`feed_keeps` is the induction over the tokens of an input.
-/

namespace BoundedLR
namespace Session

variable {Node Level : Type} {t : ParseTable Node Level} {moves : Nat}
  {s after : Session Node Level}

/-! ## Inputs -/

/-- Feeds tokens to a session, up to the first that is rejected. -/
def feed (t : ParseTable Node Level) (moves : Nat) (s : Session Node Level) :
    List Token → Read (Session Node Level × Except Rejection Unit)
  | [] => return (s, .ok ())
  | token :: rest => do
    let (after, answer) ← s.consume t moves token.symbol token.index
    match answer with
    | .ok () => feed t moves after rest
    | .error rejection => return (after, .error rejection)

/-- Parses an input with a fresh session: its tokens, then the end of input. -/
def parse (t : ParseTable Node Level) (moves : Nat) (tokens : List Token) :
    Read (Session Node Level × Except Rejection Unit) := do
  let (s, answer) ← feed t moves (← start t moves) tokens
  match answer with
  | .ok () => s.endOfInput t moves
  | .error rejection => return (s, .error rejection)

/-- A configuration with one more token in its buffer. -/
def withToken {σ : Type} (c : Configuration σ Level) (token : Token) : Configuration σ Level :=
  { c with buffer := c.buffer ++ [token] }

/-- The configuration in which a token is tried out. -/
def dryRun (c : Configuration (Record Node) Level) : Configuration (DryRun Node) Level :=
  ⟨DryRun.ofRecord c.stack, c.buffer, c.cursor⟩

/-- **A token is taken** if the machine does not stall on it, neither in the dry run
nor on the record. -/
theorem consume_eq_ok {symbol : Symbol} {token : Nat} :
    s.consume t moves symbol token = .ok (after, .ok ()) ↔
      (∃ d, Machine.run t moves (withToken (dryRun s.configuration) ⟨symbol, s.next⟩) =
        .ok (d, none)) ∧
      Machine.run t moves (withToken s.configuration ⟨symbol, token⟩) =
        .ok (after.configuration, none) ∧ after.next = nextTokenIndex token := by
  have hwould : ∀ {b : Bool}, s.wouldAccept t moves symbol = .ok b ↔ ∃ d stall,
      Machine.run t moves (withToken (dryRun s.configuration) ⟨symbol, s.next⟩) =
        .ok (d, stall) ∧ stall.isNone = b := by
    intro b
    rw [wouldAccept, bind_eq_ok]
    constructor
    · rintro ⟨⟨d, stall⟩, hrun, hb⟩
      exact ⟨d, stall, hrun, Except.ok.inj hb⟩
    · rintro ⟨d, stall, hrun, rfl⟩
      exact ⟨(d, stall), hrun, rfl⟩
  constructor
  · intro h
    obtain ⟨b, hb, h⟩ := bind_eq_ok.1 h
    cases b with
    | false =>
        rw [if_neg Bool.false_ne_true] at h
        obtain ⟨expected, -, h⟩ := bind_eq_ok.1 h
        cases h
    | true =>
        obtain ⟨d, stall, hrun, hstall⟩ := hwould.1 hb
        rw [Option.isNone_iff_eq_none] at hstall
        subst hstall
        rw [if_pos rfl] at h
        obtain ⟨⟨c, stall⟩, hrecord, h⟩ := bind_eq_ok.1 h
        cases stall with
        | some why => cases h
        | none =>
            cases Except.ok.inj h
            exact ⟨⟨d, hrun⟩, hrecord, rfl⟩
  · rintro ⟨⟨d, hrun⟩, hrecord, hnext⟩
    obtain ⟨c, next⟩ := after
    dsimp only at hrecord hnext
    have hb : s.wouldAccept t moves symbol = .ok true := hwould.2 ⟨d, none, hrun, rfl⟩
    rw [consume, hb, ok_bind, if_pos rfl]
    change (Machine.run t moves (withToken s.configuration ⟨symbol, token⟩) >>= _) = _
    rw [hrecord, hnext]
    rfl

/-- The end of input is taken if it is taken as a token and then the input has been
accepted. -/
theorem endOfInput_eq_ok :
    s.endOfInput t moves = .ok (after, .ok ()) ↔
      s.consume t moves .endOfInput s.next = .ok (after, .ok ()) ∧ after.accepted = true := by
  constructor
  · intro h
    obtain ⟨⟨after', answer⟩, hconsume, h⟩ := bind_eq_ok.1 h
    cases answer with
    | error rejection => cases h
    | ok u =>
        dsimp only at h
        split at h
        · rename_i hacc
          cases Except.ok.inj h
          exact ⟨hconsume, hacc⟩
        · obtain ⟨expected, -, h⟩ := bind_eq_ok.1 h
          cases h
  · rintro ⟨hconsume, hacc⟩
    rw [endOfInput, hconsume, ok_bind]
    dsimp only
    rw [if_pos hacc]
    rfl

/-- Whether the end of input is taken or not, the session after it is that after the
token. -/
theorem exists_consume_of_endOfInput {result : Except Rejection Unit}
    (h : s.endOfInput t moves = .ok (after, result)) : ∃ answer,
      s.consume t moves .endOfInput s.next = .ok (after, answer) ∧
        ∀ rejection, answer = .error rejection → result = .error rejection := by
  obtain ⟨⟨fed, answer⟩, hconsume, h⟩ := bind_eq_ok.1 h
  cases answer with
  | error rejection =>
      cases Except.ok.inj h
      exact ⟨_, hconsume, fun _ h => h⟩
  | ok u =>
      refine ⟨.ok u, ?_, fun _ => nofun⟩
      dsimp only at h
      split at h
      · cases Except.ok.inj h
        exact hconsume
      · obtain ⟨expected, -, h⟩ := bind_eq_ok.1 h
        cases Except.ok.inj h
        exact hconsume

theorem start_eq_ok : start t moves = .ok s ↔ s.next = 0 ∧ ∃ root stall,
    t.root t.startup = .ok root ∧ Machine.run t moves ⟨Record.start t.startup, [], ⟨root, 0⟩⟩ =
      .ok (s.configuration, stall) := by
  rw [start, bind_eq_ok]
  constructor
  · rintro ⟨root, hroot, h⟩
    obtain ⟨⟨c, stall⟩, hrun, h⟩ := bind_eq_ok.1 h
    cases Except.ok.inj h
    exact ⟨rfl, root, stall, hroot, hrun⟩
  · rintro ⟨hnext, root, stall, hroot, hrun⟩
    obtain ⟨c, next⟩ := s
    dsimp only at hnext hrun
    subst hnext
    exact ⟨root, hroot, bind_eq_ok.2 ⟨_, hrun, rfl⟩⟩

/-- **What holds of the tokens taken so far** and of the configuration, if every
token that is taken keeps it, holds after a whole input. -/
theorem feed_keeps {P : List Token → Configuration (Record Node) Level → Prop}
    (hP : ∀ taken c token c', P taken c →
      Machine.run t moves (withToken c token) = .ok (c', none) → P (taken ++ [token]) c')
    {taken tokens : List Token} (hs : P taken s.configuration)
    (h : s.feed t moves tokens = .ok (after, .ok ())) :
    P (taken ++ tokens) after.configuration := by
  induction tokens generalizing s taken with
  | nil =>
      cases Except.ok.inj h
      rw [List.append_nil]
      exact hs
  | cons token rest ih =>
      obtain ⟨⟨next, answer⟩, hconsume, h⟩ := bind_eq_ok.1 h
      cases answer with
      | error rejection => cases h
      | ok u =>
          have hnext := hP taken s.configuration token _ hs (consume_eq_ok.1 hconsume).2.1
          have hrest := ih hnext h
          rw [List.append_assoc] at hrest
          exact hrest

/-! ## Arbitrary operations -/

/-- An operation on a session. -/
inductive Operation where
  | consume (symbol : Symbol) (token : Nat)
  | endOfInput
  | clear
  | clearSteps
  | expected
  deriving DecidableEq, Repr

/-- What an operation returns. -/
inductive Answer where
  /-- Whether a token, or the end of input, has been taken. -/
  | taken (result : Except Rejection Unit)
  /-- The session has been put back to its beginning. -/
  | cleared
  /-- The steps that have been taken out. -/
  | drained (steps : List Step)
  /-- The symbols that would be taken. -/
  | expected (symbols : List Symbol)

/-- What a caller gets to see of an operation: its answer, and the session after
it. -/
structure Reply where
  answer : Answer
  steps : List Step
  accepted : Bool

/-- Carries out an operation. -/
def perform (t : ParseTable Node Level) (moves : Nat) (s : Session Node Level) :
    Operation → Read (Session Node Level × Answer)
  | .consume symbol token => do
    let (after, result) ← s.consume t moves symbol token
    return (after, .taken result)
  | .endOfInput => do
    let (after, result) ← s.endOfInput t moves
    return (after, .taken result)
  | .clear => do
    let after ← start t moves
    return (after, .cleared)
  | .clearSteps => return (s.clearSteps.2, .drained s.clearSteps.1)
  | .expected => do
    let symbols ← s.expected t moves
    return (s, .expected symbols)

/-- Carries out operations one after the other, and keeps what a caller gets to
see. -/
def converse (t : ParseTable Node Level) (moves : Nat) (s : Session Node Level) :
    List Operation → Read (List Reply)
  | [] => return []
  | operation :: rest => do
    let (after, answer) ← s.perform t moves operation
    let replies ← converse t moves after rest
    return ⟨answer, after.steps, after.accepted⟩ :: replies

/-- What a caller gets to see who carries out operations on a fresh session. -/
def transcript (t : ParseTable Node Level) (moves : Nat) (operations : List Operation) :
    Read (List Reply) := do
  converse t moves (← start t moves) operations

/-- The sessions that operations lead to. -/
inductive Reachable (t : ParseTable Node Level) (moves : Nat) : Session Node Level → Prop where
  | start {s : Session Node Level} : start t moves = .ok s → Reachable t moves s
  | perform {s after : Session Node Level} {operation : Operation} {answer : Answer} :
      Reachable t moves s → s.perform t moves operation = .ok (after, answer) →
      Reachable t moves after

theorem Reachable.consume (h : Reachable t moves s) {symbol : Symbol} {index : Nat}
    {answer : Except Rejection Unit}
    (hconsume : s.consume t moves symbol index = .ok (after, answer)) :
    Reachable t moves after := by
  have hperform : s.perform t moves (.consume symbol index) = .ok (after, .taken answer) :=
    bind_eq_ok.2 ⟨_, hconsume, rfl⟩
  exact h.perform hperform

theorem converse_eq_error {e : Fault} {operation : Operation} {rest : List Operation} :
    s.converse t moves (operation :: rest) = .error e ↔
      s.perform t moves operation = .error e ∨ ∃ after answer,
        s.perform t moves operation = .ok (after, answer) ∧
          after.converse t moves rest = .error e := by
  rw [converse, bind_eq_error]
  constructor
  · rintro (h | ⟨⟨after, answer⟩, hnow, h⟩)
    · exact .inl h
    · rcases bind_eq_error.1 h with hlater | ⟨replies, -, h⟩
      · exact .inr ⟨after, answer, hnow, hlater⟩
      · cases h
  · rintro (h | ⟨after, answer, hnow, hlater⟩)
    · exact .inl h
    · exact .inr ⟨_, hnow, bind_eq_error.2 (.inl hlater)⟩

/-- **Operations break off** at a session that they have led to. -/
theorem exists_transcript_eq_error {e : Fault} :
    (∃ operations, transcript t moves operations = .error e) ↔
      start t moves = .error e ∨ ∃ s operation, Reachable t moves s ∧
        s.perform t moves operation = .error e := by
  constructor
  · rintro ⟨operations, htranscript⟩
    rcases bind_eq_error.1 htranscript with hstart | ⟨s, hstart, h⟩
    · exact .inl hstart
    · right
      have hs : Reachable t moves s := .start hstart
      clear hstart htranscript
      induction operations generalizing s with
      | nil => cases h
      | cons operation rest ih =>
          rcases converse_eq_error.1 h with hnow | ⟨after, answer, hnow, hlater⟩
          · exact ⟨s, operation, hs, hnow⟩
          · exact ih after hlater (hs.perform hnow)
  · rintro (hstart | ⟨s, operation, hs, hfails⟩)
    · exact ⟨[], bind_eq_error.2 (.inl hstart)⟩
    · -- What has led to the session is done first.
      have hconverse : s.converse t moves [operation] = .error e :=
        converse_eq_error.2 (.inl hfails)
      generalize [operation] = operations at hconverse
      clear hfails
      induction hs generalizing operations with
      | start hstart => exact ⟨operations, bind_eq_error.2 (.inr ⟨_, hstart, hconverse⟩)⟩
      | perform _ hnow ih => exact ih _ (converse_eq_error.2 (.inr ⟨_, _, hnow, hconverse⟩))

end Session
end BoundedLR
