import BoundedLR.Parser
import BoundedLR.Proofs.AlikeReads
import BoundedLR.Proofs.Operations
import BoundedLR.Proofs.TrieLevels

/-!
# What a session expects

`Session.expected` tries out the symbols that have an entry at the level under the
cursor, and no others.  That is all of them that can be taken: a session stands where
its last run has ended, with the cursor behind the buffer, and what the machine does
first with one more token is to look its symbol up at this level
(`Machine.find_of_run`).  So a symbol that is taken is expected, and a session that
expects nothing can not go on.

The number of moves that are allowed does not matter for this, as long as it
suffices.  The first section says so for all the operations on the way.
-/

namespace BoundedLR

variable {Node Level : Type} {t : ParseTable Node Level} {moves more : Nat}
  {s fresh fed after : Session Node Level}

/-! ## More moves than are needed -/

namespace Session

theorem start_mono (hle : moves ≤ more) (h : start t moves = .ok s) : start t more = .ok s := by
  obtain ⟨hnext, root, stall, hroot, hrun⟩ := start_eq_ok.1 h
  exact start_eq_ok.2 ⟨hnext, root, stall, hroot, Machine.run_mono hle hrun⟩

theorem consume_mono (hle : moves ≤ more) {symbol : Symbol} {token : Nat}
    (h : s.consume t moves symbol token = .ok (after, .ok ())) :
    s.consume t more symbol token = .ok (after, .ok ()) := by
  obtain ⟨⟨d, hdry⟩, hrun, hnext⟩ := consume_eq_ok.1 h
  exact consume_eq_ok.2 ⟨⟨d, Machine.run_mono hle hdry⟩, Machine.run_mono hle hrun, hnext⟩

theorem feed_cons_eq_ok {token : Token} {rest : List Token} :
    s.feed t moves (token :: rest) = .ok (after, .ok ()) ↔ ∃ next,
      s.consume t moves token.symbol token.index = .ok (next, .ok ()) ∧
        next.feed t moves rest = .ok (after, .ok ()) := by
  rw [feed, bind_eq_ok]
  constructor
  · rintro ⟨⟨next, answer⟩, hconsume, h⟩
    cases answer with
    | error rejection => cases h
    | ok u => exact ⟨next, hconsume, h⟩
  · rintro ⟨next, hconsume, h⟩
    exact ⟨(next, .ok ()), hconsume, h⟩

theorem feed_mono (hle : moves ≤ more) {tokens : List Token}
    (h : s.feed t moves tokens = .ok (after, .ok ())) :
    s.feed t more tokens = .ok (after, .ok ()) := by
  induction tokens generalizing s with
  | nil => exact h
  | cons token rest ih =>
      obtain ⟨next, hconsume, h⟩ := feed_cons_eq_ok.1 h
      exact feed_cons_eq_ok.2 ⟨next, consume_mono hle hconsume, ih h⟩

/-- Tokens can be fed in two goes. -/
theorem feed_append {tokens rest : List Token} (h : s.feed t moves tokens = .ok (fed, .ok ())) :
    s.feed t moves (tokens ++ rest) = fed.feed t moves rest := by
  induction tokens generalizing s with
  | nil =>
      cases Except.ok.inj h
      rfl
  | cons token tokens ih =>
      obtain ⟨next, hconsume, h⟩ := feed_cons_eq_ok.1 h
      rw [List.cons_append, feed, hconsume, ok_bind]
      exact ih h

theorem endOfInput_mono (hle : moves ≤ more) (h : s.endOfInput t moves = .ok (after, .ok ())) :
    s.endOfInput t more = .ok (after, .ok ()) := by
  obtain ⟨hconsume, hacc⟩ := endOfInput_eq_ok.1 h
  exact endOfInput_eq_ok.2 ⟨consume_mono hle hconsume, hacc⟩

/-- An input that is parsed is fed to a fresh session, and then the end of input is
taken. -/
theorem parse_eq_ok {tokens : List Token} :
    parse t moves tokens = .ok (after, .ok ()) ↔ ∃ fresh fed, start t moves = .ok fresh ∧
      fresh.feed t moves tokens = .ok (fed, .ok ()) ∧
        fed.endOfInput t moves = .ok (after, .ok ()) := by
  rw [parse, bind_eq_ok]
  constructor
  · rintro ⟨fresh, hstart, h⟩
    obtain ⟨⟨fed, answer⟩, hfeed, h⟩ := bind_eq_ok.1 h
    cases answer with
    | error rejection => cases h
    | ok u => exact ⟨fresh, fed, hstart, hfeed, h⟩
  · rintro ⟨fresh, fed, hstart, hfeed, h⟩
    exact ⟨fresh, hstart, bind_eq_ok.2 ⟨(fed, .ok ()), hfeed, h⟩⟩

/-- **The rest of an input that is parsed** can be fed to the session that has been fed
its beginning. -/
theorem feed_rest_of_parse {tokens rest : List Token} (hstart : start t moves = .ok fresh)
    (hfeed : fresh.feed t moves tokens = .ok (s, .ok ()))
    (h : parse t more (tokens ++ rest) = .ok (after, .ok ())) : ∃ fed,
      s.feed t (max moves more) rest = .ok (fed, .ok ()) ∧
        fed.endOfInput t (max moves more) = .ok (after, .ok ()) := by
  obtain ⟨fresh', fed, hstart', hfed, hend⟩ := parse_eq_ok.1 h
  obtain rfl : fresh' = fresh := by
    have hsame := start_mono (Nat.le_max_right moves more) hstart'
    rw [start_mono (Nat.le_max_left moves more) hstart] at hsame
    exact (Except.ok.inj hsame).symm
  refine ⟨fed, ?_, endOfInput_mono (Nat.le_max_right moves more) hend⟩
  rw [← feed_append (feed_mono (Nat.le_max_left moves more) hfeed)]
  exact feed_mono (Nat.le_max_right moves more) hfed

/-- Whether a symbol would be taken does not depend on the number of moves. -/
theorem wouldAccept_unique {symbol : Symbol} {b b' : Bool}
    (h : s.wouldAccept t moves symbol = .ok b) (h' : s.wouldAccept t more symbol = .ok b') :
    b = b' := by
  obtain ⟨⟨d, stall⟩, hrun, hb⟩ := bind_eq_ok.1 h
  obtain ⟨⟨d', stall'⟩, hrun', hb'⟩ := bind_eq_ok.1 h'
  have hsame := Machine.run_mono (Nat.le_max_left moves more) hrun
  rw [Machine.run_mono (Nat.le_max_right moves more) hrun'] at hsame
  cases hsame
  exact (Except.ok.inj hb).symm.trans (Except.ok.inj hb')

/-- What is taken would have been taken. -/
theorem wouldAccept_of_consume {symbol : Symbol} {token : Nat}
    (h : s.consume t moves symbol token = .ok (after, .ok ())) :
    s.wouldAccept t moves symbol = .ok true := by
  obtain ⟨⟨d, hrun⟩, -, -⟩ := consume_eq_ok.1 h
  exact bind_eq_ok.2 ⟨(d, none), hrun, rfl⟩

end Session

/-! ## What the machine does first with another token -/

namespace Machine

variable {σ : Type} [StateStack σ Node] {c c' : Configuration σ Level} {top : Node}
  {stall : Option Stall} {token : Token}

/-- Carrying out an action never ends in waiting. -/
theorem perform_ne_waiting {action : Action Node Level} :
    perform t c top action ≠ .ok .waiting := by
  intro h
  cases action with
  | descend level => cases h
  | shift target predict =>
      rw [perform] at h
      split at h
      · cases h
      · obtain ⟨root, -, h⟩ := bind_eq_ok.1 h
        cases h
  | reduce index =>
      rw [perform] at h
      obtain ⟨property, -, h⟩ := bind_eq_ok.1 h
      split at h
      · cases h
      · split at h
        · cases h
        · obtain ⟨landing, -, h⟩ := bind_eq_ok.1 h
          cases landing with
          | none => cases h
          | some landing =>
              obtain ⟨root, -, h⟩ := bind_eq_ok.1 h
              cases h

/-- **A machine that waits has looked at all of its buffer.** -/
theorem length_le_of_waiting (h : step t c = .ok .waiting) : c.buffer.length ≤ c.cursor.depth := by
  cases hacc : StateStack.isAccepted c.stack with
  | true =>
      rw [step_of_accepted hacc] at h
      split at h
      · rename_i hempty
        rw [List.isEmpty_iff.1 hempty]
        exact Nat.zero_le _
      · cases h
  | false =>
      obtain ⟨top, -, ⟨action, -, hperform⟩ | ⟨-, hnone⟩ | ⟨token, -, -, hr⟩⟩ := step_cases h hacc
      · exact absurd hperform perform_ne_waiting
      · exact List.getElem?_eq_none_iff.1 hnone
      · cases hr

/-- A reduction does not look at the buffer. -/
theorem exists_moves_reduce {index : Nat}
    (h : Moves t (Session.withToken c token) top (.reduce index) c') :
    ∃ next, Moves t c top (.reduce index) next := by
  cases h with
  | accept hproperty hacc => exact ⟨_, .accept hproperty hacc⟩
  | reduce hproperty hacc hlast hlanding hroot =>
      exact ⟨_, .reduce hproperty hacc hlast hlanding hroot⟩

/-- What a machine that has come to its end does first with another token is to look
it up at the level under its cursor. -/
theorem find_of_moved (hends : Ends t c stall) (hdepth : c.cursor.depth = c.buffer.length)
    (h : step t (Session.withToken c token) = .ok (.moved c')) :
    StateStack.isAccepted c.stack = false ∧ ∃ top action, StateStack.peek c.stack 0 = some top ∧
      t.find top c.cursor.level token.symbol = .ok (some action) := by
  obtain ⟨hacc, top, action, htop, hc, hm⟩ := step_eq_moved.1 h
  refine ⟨hacc, top, action, htop, ?_⟩
  cases hc with
  | @always index hd hal =>
      -- without the token the machine would not have come to its end
      obtain ⟨next, hm⟩ := exists_moves_reduce hm
      have hmoved : step t c = .ok (.moved next) :=
        step_eq_moved.2 ⟨hacc, top, .reduce index, htop, .always hd hal, hm⟩
      cases hends with
      | waiting hend => cases hmoved.symm.trans hend
      | stalled hend => cases hmoved.symm.trans hend
  | found hal hb hf =>
      rw [Session.withToken, hdepth, List.getElem?_concat_length, Option.some.injEq] at hb
      rw [hb]
      exact hf

/-- **A token that a machine can do anything with** has an entry at the level under its
cursor. -/
theorem find_of_run (hends : Ends t c stall) (hdepth : c.cursor.depth = c.buffer.length)
    (h : run t moves (Session.withToken c token) = .ok (c', none)) :
    StateStack.isAccepted c.stack = false ∧ ∃ top action, StateStack.peek c.stack 0 = some top ∧
      t.find top c.cursor.level token.symbol = .ok (some action) := by
  cases moves with
  | zero => cases h
  | succ moves =>
      cases hstep : step t (Session.withToken c token) with
      | error e =>
          rw [run, hstep] at h
          cases h
      | ok r =>
          cases r with
          | moved next => exact find_of_moved hends hdepth hstep
          | stalled why =>
              rw [run_of_stalled hstep] at h
              cases h
          | waiting =>
              have hle := length_le_of_waiting hstep
              simp only [Session.withToken, List.length_append, List.length_singleton] at hle
              omega

end Machine

/-! ## Taken symbols are expected -/

/-- The symbols of a level list everything that can be looked up there. -/
def ParseTable.Lists (t : ParseTable Node Level) : Prop :=
  ∀ {top : Node} {level : Level} {symbol : Symbol} {action : Action Node Level}
    {symbols : List Symbol}, t.find top level symbol = .ok (some action) →
    t.symbols top level = .ok symbols → symbol ∈ symbols

theorem Parser.lists (p : Parser) : p.table.Lists := by
  intro top level symbol action symbols hfind hsymbols
  by_contra hmem
  cases Except.ok.inj hsymbols
  have hnone : level.find? symbol = none := Trie.find?_eq_none_iff.2 hmem
  obtain ⟨entry, hentry, -⟩ := Option.map_eq_some_iff.1 (Except.ok.inj hfind)
  rw [hnone] at hentry
  cases hentry

namespace Session

/-- A session that stands where a run has ended, behind its buffer. -/
structure Settled (t : ParseTable Node Level) (c : Configuration (Record Node) Level) : Prop where
  ends : ∃ stall, Machine.Ends t c stall
  depth : c.cursor.depth = c.buffer.length

/-- **A symbol that is taken is expected.** -/
theorem mem_expected (ht : t.Lists) (hs : Settled t s.configuration) {symbol : Symbol} {token : Nat}
    {symbols : List Symbol} (h : s.consume t moves symbol token = .ok (after, .ok ()))
    (hexpected : s.expected t more = .ok symbols) : symbol ∈ symbols := by
  obtain ⟨-, hrun, -⟩ := consume_eq_ok.1 h
  obtain ⟨stall, hends⟩ := hs.ends
  obtain ⟨hacc, top, action, htop, hfind⟩ := Machine.find_of_run hends hs.depth hrun
  have hrunning : s.accepted ≠ true := by
    rw [show s.accepted = false from hacc]
    exact Bool.false_ne_true
  rw [expected, if_neg hrunning, htop, Read.ofOption, ok_bind] at hexpected
  obtain ⟨listed, hlisted, hexpected⟩ := bind_eq_ok.1 hexpected
  obtain ⟨taken, hfilter, hexpected⟩ := bind_eq_ok.1 hexpected
  cases Except.ok.inj hexpected
  refine mem_ascending.2 (mem_of_filterM_eq_ok hfilter (ht hfind hlisted) fun b hb => ?_)
  exact wouldAccept_unique hb (wouldAccept_of_consume h)

end Session

end BoundedLR
