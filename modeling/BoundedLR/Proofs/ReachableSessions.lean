import BoundedLR.Proofs.Expectations
import BoundedLR.Proofs.Transactions

/-!
# Sessions that operations lead to

Whatever is asked of a session, only three things ever happen to its configuration: it
begins anew, it takes one more token, or the first of its steps are handed out.  A
rejected token leaves no trace, and listing what is expected looks only.  So what holds
at the beginning, and is kept by taking a token and by handing out steps, holds of every
session that operations lead to (`reachable_keeps`).

In particular such a session has always come to the end of a run, with the cursor behind
its buffer (`settled_of_reachable`).
-/

namespace BoundedLR

open Machine

variable {Node Level : Type} {t : ParseTable Node Level} {moves : Nat}
  {s after : Session Node Level} {symbol : Symbol} {token : Nat}

namespace Session

/-! ## Taken or rejected -/

/-- A symbol that would be taken is taken. -/
theorem exists_consume_of_wouldAccept (h : s.wouldAccept t moves symbol = .ok true)
    (token : Nat) : ∃ after, s.consume t moves symbol token = .ok (after, .ok ()) := by
  obtain ⟨⟨d, stall⟩, hdry, hb⟩ := bind_eq_ok.1 h
  obtain rfl : stall = none := Option.isNone_iff_eq_none.1 (Except.ok.inj hb)
  obtain ⟨c, hrun, -⟩ := run_dryRun hdry token
  exact ⟨⟨c, nextTokenIndex token⟩, consume_eq_ok.2 ⟨⟨d, hdry⟩, hrun, rfl⟩⟩

/-- A symbol that would not be taken is rejected with the symbols that are expected. -/
theorem consume_of_not_wouldAccept (h : s.wouldAccept t moves symbol = .ok false)
    {symbols : List Symbol} (hexpected : s.expected t moves = .ok symbols) (token : Nat) :
    s.consume t moves symbol token = .ok (s, .error ⟨symbol, token, symbols⟩) := by
  rw [consume, h, ok_bind, if_neg Bool.false_ne_true, hexpected]
  rfl

/-- **A rejection** leaves the session as it was, and names what is expected. -/
theorem eq_of_consume_eq_error {rejection : Rejection}
    (h : s.consume t moves symbol token = .ok (after, .error rejection)) :
    after = s ∧ s.wouldAccept t moves symbol = .ok false ∧
      ∃ symbols, s.expected t moves = .ok symbols ∧ rejection = ⟨symbol, token, symbols⟩ := by
  obtain ⟨b, hwould, hrest⟩ := bind_eq_ok.1 h
  cases b with
  | true =>
      obtain ⟨taken, htaken⟩ := exists_consume_of_wouldAccept hwould token
      cases htaken.symm.trans h
  | false =>
      rw [if_neg Bool.false_ne_true] at hrest
      obtain ⟨symbols, hexpected, hrest⟩ := bind_eq_ok.1 hrest
      cases Except.ok.inj hrest
      exact ⟨rfl, hwould, symbols, hexpected, rfl⟩

/-! ## What operations keep -/

/-- Handing out steps does nothing that a table could see. -/
theorem inStep_clearSteps (c : Configuration (Record Node) Level) :
    InStep { c with stack := c.stack.clearSteps.2 } c where
  peek n := by
    refine (Record.shows _ n).trans (Eq.trans ?_ (c.stack.shows n).symm)
    rw [Record.clearSteps, List.map_map]
    rfl
  isAccepted := rfl
  symbols := rfl
  cursor := rfl

variable {P : Configuration (Record Node) Level → Prop}

theorem consume_keeps
    (htake : ∀ {moves c token c'}, P c → run t moves (withToken c token) = .ok (c', none) → P c')
    {answer : Except Rejection Unit} (hs : P s.configuration)
    (h : s.consume t moves symbol token = .ok (after, answer)) : P after.configuration := by
  cases answer with
  | error rejection =>
      rw [(eq_of_consume_eq_error h).1]
      exact hs
  | ok u => exact htake hs (consume_eq_ok.1 h).2.1

/-- A fresh session has done nothing but the first run. -/
theorem start_keeps
    (hstart : ∀ {moves root c stall}, t.root t.startup = .ok root →
      run t moves ⟨Record.start t.startup, [], ⟨root, 0⟩⟩ = .ok (c, stall) → P c)
    (h : start t moves = .ok s) : P s.configuration := by
  obtain ⟨-, root, stall, hroot, hrun⟩ := start_eq_ok.1 h
  exact hstart hroot hrun

/-- An operation that hands out no steps keeps what beginning anew and taking a token
keep. -/
theorem perform_keeps_of_ne
    (hstart : ∀ {moves root c stall}, t.root t.startup = .ok root →
      run t moves ⟨Record.start t.startup, [], ⟨root, 0⟩⟩ = .ok (c, stall) → P c)
    (htake : ∀ {moves c token c'}, P c → run t moves (withToken c token) = .ok (c', none) → P c')
    {operation : Operation} {answer : Answer} (hne : operation ≠ .clearSteps)
    (hs : P s.configuration) (h : s.perform t moves operation = .ok (after, answer)) :
    P after.configuration := by
  cases operation with
  | consume symbol token =>
      obtain ⟨⟨next, result⟩, hconsume, h⟩ := bind_eq_ok.1 h
      cases Except.ok.inj h
      exact consume_keeps htake hs hconsume
  | endOfInput =>
      obtain ⟨⟨next, result⟩, hend, h⟩ := bind_eq_ok.1 h
      cases Except.ok.inj h
      obtain ⟨taken, hconsume, -⟩ := exists_consume_of_endOfInput hend
      exact consume_keeps htake hs hconsume
  | clear =>
      obtain ⟨fresh, hfresh, h⟩ := bind_eq_ok.1 h
      cases Except.ok.inj h
      exact start_keeps hstart hfresh
  | clearSteps => exact absurd rfl hne
  | expected =>
      obtain ⟨symbols, -, h⟩ := bind_eq_ok.1 h
      cases Except.ok.inj h
      exact hs

/-- **One operation keeps** what beginning anew, taking a token and handing out steps
keep. -/
theorem perform_keeps
    (hstart : ∀ {moves root c stall}, t.root t.startup = .ok root →
      run t moves ⟨Record.start t.startup, [], ⟨root, 0⟩⟩ = .ok (c, stall) → P c)
    (htake : ∀ {moves c token c'}, P c → run t moves (withToken c token) = .ok (c', none) → P c')
    (hclear : ∀ {c}, P c → P { c with stack := c.stack.clearSteps.2 })
    {operation : Operation} {answer : Answer} (hs : P s.configuration)
    (h : s.perform t moves operation = .ok (after, answer)) : P after.configuration := by
  by_cases hne : operation = .clearSteps
  · subst hne
    cases Except.ok.inj h
    exact hclear hs
  · exact perform_keeps_of_ne hstart htake hne hs h

/-- **What every operation keeps** holds of all sessions that operations lead to. -/
theorem reachable_keeps
    (hstart : ∀ {moves root c stall}, t.root t.startup = .ok root →
      run t moves ⟨Record.start t.startup, [], ⟨root, 0⟩⟩ = .ok (c, stall) → P c)
    (htake : ∀ {moves c token c'}, P c → run t moves (withToken c token) = .ok (c', none) → P c')
    (hclear : ∀ {c}, P c → P { c with stack := c.stack.clearSteps.2 })
    (h : Reachable t moves s) : P s.configuration := by
  induction h with
  | start hs => exact start_keeps hstart hs
  | perform _ hnow ih => exact perform_keeps hstart htake hclear ih hnow

/-- Feeding tokens is a series of operations. -/
theorem Reachable.feed (h : Reachable t moves s) {tokens : List Token}
    {answer : Except Rejection Unit} (hfeed : s.feed t moves tokens = .ok (after, answer)) :
    Reachable t moves after := by
  induction tokens generalizing s with
  | nil =>
      cases Except.ok.inj hfeed
      exact h
  | cons token rest ih =>
      obtain ⟨⟨next, taken⟩, hconsume, hfeed⟩ := bind_eq_ok.1 hfeed
      cases taken with
      | error rejection =>
          cases Except.ok.inj hfeed
          exact h.consume hconsume
      | ok u => exact ih (h.consume hconsume) hfeed

end Session

/-! ## Where a session stands -/

namespace Machine

variable {σ σ' : Type} [StateStack σ Node] [StateStack σ' Node] {c : Configuration σ Level}
  {c' : Configuration σ' Level} {d : Configuration σ Level} {stall : Option Stall}

/-- A move looks at no more tokens than there are, and never makes the buffer longer. -/
theorem depth_le_of_moved (h : step t c = .ok (.moved d)) (hc : c.cursor.depth ≤ c.buffer.length) :
    d.cursor.depth ≤ d.buffer.length ∧ d.buffer.length ≤ c.buffer.length := by
  obtain ⟨-, top, action, -, hconsults, hmoves⟩ := step_eq_moved.1 h
  cases hmoves with
  | descend =>
      cases hconsults with
      | found _ hb _ => exact ⟨(List.getElem?_eq_some_iff.1 hb).1, Nat.le_refl _⟩
  | @shift target predict token rest root hb hroot =>
      refine ⟨Nat.zero_le _, ?_⟩
      rw [hb]
      exact Nat.le_succ _
  | accept => exact ⟨hc, Nat.le_refl _⟩
  | reduce => exact ⟨Nat.zero_le _, Nat.le_refl _⟩

theorem depth_le_of_run (hc : c.cursor.depth ≤ c.buffer.length)
    (h : run t moves c = .ok (d, stall)) : (d.cursor.depth ≤ d.buffer.length ∧
      d.buffer.length ≤ c.buffer.length) ∧ Ends t d stall :=
  run_keeps (P := fun d => d.cursor.depth ≤ d.buffer.length ∧ d.buffer.length ≤ c.buffer.length)
    (fun _ _ hd hstep => by
      obtain ⟨hdepth, hle⟩ := depth_le_of_moved hstep hd.1
      exact ⟨hdepth, Nat.le_trans hle hd.2⟩)
    ⟨hc, Nat.le_refl _⟩ h

/-- Where one machine has come to its end, so has a machine that is in step with it. -/
theorem Ends.of_inStep [LawfulStack σ Node] [LawfulStack σ' Node] (h : Ends t c stall)
    (hstep : InStep c c') : Ends t c' stall := by
  have htogether := step_together hstep t
  generalize hnext : step t c' = next at htogether
  cases h with
  | waiting hw =>
      rw [hw] at htogether
      cases htogether with
      | ok hr =>
          cases hr
          exact .waiting hnext
  | stalled hw =>
      rw [hw] at htogether
      cases htogether with
      | ok hr =>
          cases hr
          exact .stalled hnext

end Machine

/-- **A session that operations lead to** has come to the end of a run, behind its
buffer. -/
theorem Session.settled_of_reachable (h : Reachable t moves s) : Settled t s.configuration := by
  refine reachable_keeps (P := Settled t) (fun hroot hrun => ?_) (fun hc hrun => ?_)
    (fun {c} hc => ⟨?_, hc.depth⟩) h
  · obtain ⟨⟨hdepth, hlength⟩, hends⟩ := depth_le_of_run (Nat.le_refl 0) hrun
    exact ⟨⟨_, hends⟩, Nat.le_antisymm hdepth (Nat.le_trans hlength (Nat.zero_le _))⟩
  · have hle := Nat.le_of_eq hc.depth
    obtain ⟨⟨hdepth, -⟩, hends⟩ := depth_le_of_run (by
      rw [withToken, List.length_append]
      exact Nat.le_add_right_of_le hle) hrun
    refine ⟨⟨none, hends⟩, Nat.le_antisymm hdepth ?_⟩
    cases hends with
    | waiting hwaiting => exact length_le_of_waiting hwaiting
  · obtain ⟨stall, hends⟩ := hc.ends
    exact ⟨stall, hends.of_inStep (inStep_clearSteps c).symm⟩

end BoundedLR
