import Mathlib.Data.List.TakeDrop
import BoundedLR.Proofs.DrainedRecords
import BoundedLR.Proofs.Foresight
import BoundedLR.Proofs.Transactions

/-!
# Handing out steps early loses none

`Session.clearSteps` hands out the steps of a parse while it is still going on.  An
announcement that is inserted later may belong in front of some of them, and then it
would be too late.  This module shows that it never is, for every table that foresees
its announcements: a session that hands out steps whenever it is asked to, and one
that keeps them all, differ only in where the steps are.

The two sessions are compared operation by operation.  The stack of the first is that
of the second, drained of the steps that have been handed out (`Trails`).  This could
go wrong only in a reduction with an announcement.  Such a reduction comes from a
marked node, and a machine whose topmost node is not marked never comes to a marked
node again.  While the topmost node is marked, all elements on the stack are
provisional, so that nothing has been handed out at all.
-/

namespace BoundedLR

open Machine

variable {Node Level : Type} {t : ParseTable Node Level} {marked : Node → Prop}
  {c c' d d' : Configuration (Record Node) Level} {top : Node} {action : Action Node Level}

/-! ## What is on the stack -/

/-- An announcement may still become due. -/
def Pending (marked : Node → Prop) (c : Configuration (Record Node) Level) : Prop :=
  ∃ n, StateStack.peek c.stack 0 = some n ∧ marked n

/-- The machine has come where the references of the table lead, and the elements on
its stack are provisional as long as an announcement may become due. -/
structure Foreseen (t : ParseTable Node Level) (marked : Node → Prop)
    (c : Configuration (Record Node) Level) : Prop where
  grounded : c.stack.Grounded
  reached : ∀ k n, StateStack.peek c.stack k = some n → ∃ l, t.Reaches n l
  top : ∀ n, StateStack.peek c.stack 0 = some n → t.Reaches n c.cursor.level
  provisional : Pending marked c → ∀ e ∈ c.stack.entries.dropLast, e.provisional = true

theorem offers_of_consults {index : Nat} (h : Consults t c top (.reduce index)) :
    t.Offers top c.cursor.level index := by
  cases h with
  | always _ hal => exact .inl hal
  | found _ _ hf => exact .inr ⟨_, hf⟩

namespace Foreseen

theorem start {root : Level} (h : t.root t.startup = .ok root) :
    Foreseen t marked ⟨Record.start t.startup, [], ⟨root, 0⟩⟩ where
  grounded := Record.grounded_start _
  reached k n hn := by
    cases k with
    | zero =>
        cases hn
        exact ⟨root, .startup h⟩
    | succ k => cases hn
  top n hn := by
    cases hn
    exact .startup h
  provisional _ e he := absurd he List.not_mem_nil

/-- An announcement is due only if one may be. -/
theorem pending_of_due (h : Foreseen t marked c) (ht : t.Foresees marked)
    (htop : StateStack.peek c.stack 0 = some top) {index : Nat} {q : ReductionProperty}
    (hconsults : Consults t c top (.reduce index)) (hq : t.property top index = .ok q)
    (hpredict : q.predict = true) : Pending marked c :=
  ⟨top, htop, ht.due (h.top top htop) (offers_of_consults hconsults) hq hpredict⟩

/-- An element is pushed on the stack.  What is needed of the node that is entered is
that its flag is set if it is marked, and that the mark is not new. -/
theorem push {e : Entry Node} {steps : List Step} {accepted : Bool} {buffer : List Token}
    {root : Level} (h : Foreseen t marked c) (dropped : Nat)
    (hgrounded : (⟨e :: c.stack.entries.drop dropped, steps, accepted⟩ : Record Node).Grounded)
    (hreaches : t.Reaches e.node root)
    (hmarked : marked e.node → e.provisional = true ∧ Pending marked c) :
    Foreseen t marked
      ⟨⟨e :: c.stack.entries.drop dropped, steps, accepted⟩, buffer, ⟨root, 0⟩⟩ where
  grounded := hgrounded
  reached k n hn := by
    cases k with
    | zero =>
        cases hn
        exact ⟨root, hreaches⟩
    | succ k =>
        refine h.reached (dropped + k) n ?_
        rw [← hn]
        change (c.stack.entries[dropped + k]?).map _ = ((c.stack.entries.drop dropped)[k]?).map _
        rw [List.getElem?_drop]
  top n hn := by
    cases hn
    exact hreaches
  provisional := by
    rintro ⟨n, hn, hmark⟩ x hx
    cases hn
    obtain ⟨hprovisional, hpending⟩ := hmarked hmark
    cases hrest : c.stack.entries.drop dropped with
    | nil =>
        rw [hrest] at hx
        exact absurd hx List.not_mem_nil
    | cons y rest =>
        rw [hrest, List.dropLast_cons_of_ne_nil (List.cons_ne_nil y rest), List.mem_cons] at hx
        rcases hx with rfl | hx
        · exact hprovisional
        · refine h.provisional hpending x ?_
          rw [← hrest, List.dropLast_drop_eq_drop_dropLast] at hx
          exact List.mem_of_mem_drop hx

/-- **What a move keeps.**  If an announcement may become due after a move, it might
have been before. -/
theorem moves (h : Foreseen t marked c) (ht : t.Foresees marked)
    (htop : StateStack.peek c.stack 0 = some top) (hconsults : Consults t c top action)
    (hmoves : Moves t c top action c') :
    Foreseen t marked c' ∧ (Pending marked c' → Pending marked c) := by
  have hreaches := h.top top htop
  cases hmoves with
  | descend =>
      refine ⟨⟨h.grounded, h.reached, fun n hn => ?_, h.provisional⟩, id⟩
      cases hconsults with
      | found _ _ hf =>
          cases htop.symm.trans hn
          exact hreaches.descend hf
  | @shift target predict token rest root hb hroot =>
      cases hconsults with
      | found _ _ hf =>
          have hmarked : marked target → predict = true ∧ Pending marked c := fun hmark =>
            (ht.shift hreaches hf hmark).imp_right fun hm => ⟨top, htop, hm⟩
          refine ⟨h.push 0 (h.grounded.shift token ⟨target, predict⟩)
            (hreaches.shift hf hroot) hmarked, ?_⟩
          rintro ⟨n, hn, hmark⟩
          cases hn
          exact (hmarked hmark).2
  | accept => exact ⟨⟨⟨h.grounded.base, h.grounded.within⟩, h.reached, h.top, h.provisional⟩, id⟩
  | @reduce index q last landing root hq hacc hlast hlanding hroot =>
      have hoffers := offers_of_consults hconsults
      obtain ⟨m, hm⟩ := h.reached _ _ hlast
      have hmarked : marked landing.target → landing.predict = true ∧ Pending marked c :=
        fun hmark => (ht.landing hreaches hoffers hm hlanding hmark).imp_right
          fun hm => ⟨top, htop, hm⟩
      have hlen : q.count < c.stack.entries.length := by
        obtain ⟨entry, hentry, -⟩ := Option.map_eq_some_iff.1 hlast
        exact (List.getElem?_eq_some_iff.1 hentry).1
      refine ⟨h.push q.count (h.grounded.reduce hlen landing)
        (.landing hreaches hoffers hm hlanding hroot) hmarked, ?_⟩
      rintro ⟨n, hn, hmark⟩
      cases hn
      exact (hmarked hmark).2

end Foreseen

/-! ## One session behind the other -/

/-- The first machine is where the second one is, but some of its steps have been handed
out.  Nothing has been while an announcement may become due. -/
structure Trails (t : ParseTable Node Level) (marked : Node → Prop) (handed : List Step)
    (d c : Configuration (Record Node) Level) : Prop where
  foreseen : Foreseen t marked c
  stack : d.stack = c.stack.drained handed.length
  first : c.stack.steps.take handed.length = handed
  buffer : d.buffer = c.buffer
  cursor : d.cursor = c.cursor
  early : Pending marked c → handed = []

namespace Trails

variable {handed : List Step}

theorem refl (h : Foreseen t marked c) : Trails t marked [] c c :=
  ⟨h, (Record.drained_zero _).symm, rfl, rfl, rfl, fun _ => rfl⟩

theorem inStep (h : Trails t marked handed d c) : InStep d c where
  peek n := by rw [h.stack, Record.peek_drained]
  isAccepted := by
    rw [h.stack]
    rfl
  symbols := congrArg _ h.buffer
  cursor := h.cursor

theorem length_le (h : Trails t marked handed d c) : handed.length ≤ c.stack.steps.length := by
  rw [← h.first, List.length_take]
  exact Nat.min_le_right _ _

/-- What has been handed out and what is left are all the steps. -/
theorem steps_eq (h : Trails t marked handed d c) : handed ++ d.stack.steps = c.stack.steps := by
  calc handed ++ d.stack.steps
      = c.stack.steps.take handed.length ++ c.stack.steps.drop handed.length := by
        rw [h.first, h.stack]
        rfl
    _ = c.stack.steps := List.take_append_drop _ _

/-- **Moves that carry out the same action** leave the one machine behind the other. -/
theorem moves (h : Trails t marked handed d c) (ht : t.Foresees marked)
    (htop : StateStack.peek d.stack 0 = some top) (hconsults : Consults t d top action)
    (hd : Moves t d top action d') (hc : Moves t c top action c') :
    Trails t marked handed d' c' := by
  have htop' := (h.inStep.peek 0).symm.trans htop
  have hconsults' := h.inStep.consults hconsults
  obtain ⟨hforeseen, hpending⟩ := h.foreseen.moves ht htop' hconsults' hc
  have hlen := h.length_le
  cases hc with
  | descend =>
      cases hd
      refine ⟨hforeseen, h.stack, h.first, h.buffer, ?_, h.early⟩
      rw [h.cursor]
  | @shift target predict token rest root hb hroot =>
      cases hd with
      | shift hb' hroot' =>
          cases hb.symm.trans (h.buffer.symm.trans hb')
          cases hroot.symm.trans hroot'
          refine ⟨hforeseen, ?_, ?_, rfl, rfl, fun hp => h.early (hpending hp)⟩
          · rw [h.stack]
            exact Record.shift_drained hlen token _
          · exact (Record.take_steps_shift hlen token _).trans h.first
  | accept hq hacc =>
      cases hd with
      | accept =>
          refine ⟨hforeseen, ?_, h.first, h.buffer, h.cursor, h.early⟩
          rw [h.stack]
          rfl
      | reduce hq' hacc' =>
          cases hq.symm.trans hq'
          rw [hacc] at hacc'
          cases hacc'
  | @reduce index q last landing root hq hacc hlast hlanding hroot =>
      cases hd with
      | accept hq' hacc' =>
          cases hq.symm.trans hq'
          rw [hacc] at hacc'
          cases hacc'
      | reduce hq' _ hlast' hlanding' hroot' =>
          cases hq.symm.trans hq'
          cases ((h.inStep.peek _).symm.trans hlast').symm.trans hlast
          cases hlanding.symm.trans hlanding'
          cases hroot.symm.trans hroot'
          -- An announcement is inserted only while nothing has been handed out.
          have hnone : q.predict = true → handed.length = 0 := fun hpredict => by
            rw [h.early (h.foreseen.pending_of_due ht htop' hconsults' hq hpredict)]
            rfl
          refine ⟨hforeseen, ?_, ?_, h.buffer, rfl, fun hp => h.early (hpending hp)⟩
          · rw [h.stack]
            exact Record.reduce_drained hlen hnone landing
          · exact (Record.take_steps_reduce hlen hnone landing).trans h.first

/-- So do whole runs. -/
theorem run (h : Trails t marked handed d c) (ht : t.Foresees marked) (moves : Nat) :
    Alike (fun _ => True) (fun x y => Trails t marked handed x.1 y.1 ∧ x.2 = y.2)
      (Machine.run t moves d) (Machine.run t moves c) :=
  (run_together (fun _ h htop hconsults hd hc => h.moves ht htop hconsults hd hc) h.inStep h
    moves).mono fun _ _ hends => ⟨hends.1.2, hends.2⟩

/-- Handing out what is settled. -/
theorem clearSteps (h : Trails t marked handed d c) :
    Trails t marked (handed ++ d.stack.clearSteps.1)
      { d with stack := d.stack.clearSteps.2 } c := by
  have hsettled : d.stack.settled = c.stack.settled - handed.length := by
    rw [h.stack, Record.settled_drained]
  have hle := h.foreseen.grounded.settled_le
  have hsteps : d.stack.steps = c.stack.steps.drop handed.length := by
    rw [h.stack]
    rfl
  have hlength : (handed ++ d.stack.clearSteps.1).length = handed.length + d.stack.settled := by
    rw [Record.clearSteps_eq, List.length_append, List.length_take, hsteps, List.length_drop]
    omega
  refine ⟨h.foreseen, ?_, ?_, h.buffer, h.cursor, fun hp => ?_⟩
  · rw [hlength, ← Record.drained_drained, ← h.stack]
    rfl
  · rw [hlength, List.take_add, h.first, ← hsteps]
    rfl
  · have hzero := h.foreseen.grounded.settled_eq_zero (h.foreseen.provisional hp)
    rw [h.early hp, Record.clearSteps_eq, hsettled, hzero, Nat.zero_sub, List.take_zero]
    rfl

end Trails

/-! ## Operations -/

namespace Session

variable {s s' : Session Node Level} {moves : Nat} {handed : List Step}

/-- Symbols are tried out with the same outcome in configurations that are in step. -/
theorem wouldAccept_of_inStep (h : InStep s.configuration s'.configuration)
    (t : ParseTable Node Level) (moves : Nat) (symbol : Symbol) :
    s.wouldAccept t moves symbol = s'.wouldAccept t moves symbol := by
  have hdry : InStep (withToken (dryRun s.configuration) ⟨symbol, s.next⟩)
      (withToken (dryRun s'.configuration) ⟨symbol, s'.next⟩) :=
    inStep_withToken (((inStep_dryRun _).trans h).trans (inStep_dryRun _).symm) rfl
  have hrun := run_together (t := t) (K := fun _ _ => True) (fun _ _ _ _ _ _ => trivial) hdry
    trivial moves
  exact (hrun.bind fun x y hxy => .ok (congrArg Option.isNone hxy.2)).eq

theorem expected_of_inStep (h : InStep s.configuration s'.configuration)
    (t : ParseTable Node Level) (moves : Nat) : s.expected t moves = s'.expected t moves := by
  have hacc : s.accepted = s'.accepted := h.isAccepted
  have hwould : s.wouldAccept t moves = s'.wouldAccept t moves :=
    funext fun symbol => wouldAccept_of_inStep h t moves symbol
  rw [expected, expected, hacc, h.peek 0, h.cursor, hwould]

/-- The first session is where the second one is, but some of its steps have been handed
out. -/
structure Lags (t : ParseTable Node Level) (marked : Node → Prop) (handed : List Step)
    (s s' : Session Node Level) : Prop where
  configuration : Trails t marked handed s.configuration s'.configuration
  next : s.next = s'.next

namespace Lags

theorem consume (h : Lags t marked handed s s') (ht : t.Foresees marked) (moves : Nat)
    (symbol : Symbol) (token : Nat) :
    Alike (fun _ => True) (fun x y => Lags t marked handed x.1 y.1 ∧ x.2 = y.2)
      (s.consume t moves symbol token) (s'.consume t moves symbol token) := by
  have hinStep := h.configuration.inStep
  rw [Session.consume, Session.consume, wouldAccept_of_inStep hinStep,
    expected_of_inStep hinStep]
  refine .bind_read fun b _ => ?_
  cases b with
  | false =>
      rw [if_neg Bool.false_ne_true, if_neg Bool.false_ne_true]
      exact .bind_read fun expected _ => .ok ⟨h, rfl⟩
  | true =>
      rw [if_pos rfl, if_pos rfl]
      have hfed : Trails t marked handed (withToken s.configuration ⟨symbol, token⟩)
          (withToken s'.configuration ⟨symbol, token⟩) := by
        have hc := h.configuration
        refine ⟨⟨hc.foreseen.grounded, hc.foreseen.reached, hc.foreseen.top,
          hc.foreseen.provisional⟩, hc.stack, hc.first, ?_, hc.cursor, hc.early⟩
        exact congrArg (· ++ [⟨symbol, token⟩]) hc.buffer
      refine (hfed.run ht moves).bind fun x y hxy => ?_
      obtain ⟨c, stall⟩ := x
      obtain ⟨c', stall'⟩ := y
      obtain ⟨hc, rfl⟩ := hxy
      cases stall with
      | none => exact .ok ⟨⟨hc, rfl⟩, rfl⟩
      | some why => exact .ok ⟨⟨hc, rfl⟩, rfl⟩

theorem endOfInput (h : Lags t marked handed s s') (ht : t.Foresees marked) (moves : Nat) :
    Alike (fun _ => True) (fun x y => Lags t marked handed x.1 y.1 ∧ x.2 = y.2)
      (s.endOfInput t moves) (s'.endOfInput t moves) := by
  rw [Session.endOfInput, Session.endOfInput, ← h.next]
  refine (h.consume ht moves .endOfInput s.next).bind fun x y hxy => ?_
  obtain ⟨after, answer⟩ := x
  obtain ⟨after', answer'⟩ := y
  obtain ⟨hafter, rfl⟩ := hxy
  have hinStep := hafter.configuration.inStep
  have hacc : after.accepted = after'.accepted := hinStep.isAccepted
  cases answer with
  | error rejection => exact .ok ⟨hafter, rfl⟩
  | ok u =>
      dsimp only at hafter ⊢
      rw [expected_of_inStep hinStep, hacc]
      by_cases haccepted : after'.accepted = true
      · rw [if_pos haccepted, if_pos haccepted]
        exact .ok ⟨hafter, rfl⟩
      · rw [if_neg haccepted, if_neg haccepted]
        exact .bind_read fun expected _ => .ok ⟨hafter, rfl⟩

/-- A session that is put to its beginning has handed out nothing. -/
theorem start (ht : t.Foresees marked) (h : Session.start t moves = .ok s) :
    Lags t marked [] s s := by
  obtain ⟨-, root, stall, hroot, hrun⟩ := start_eq_ok.1 h
  refine ⟨.refl (run_keeps (P := Foreseen t marked) (fun c c' hc hstep => ?_)
    (.start hroot) hrun).1, rfl⟩
  obtain ⟨-, top, action, htop, hconsults, hmoves⟩ := step_eq_moved.1 hstep
  exact (hc.moves ht htop hconsults hmoves).1

end Lags

/-! ## Handing out -/

namespace Answer

/-- Whether an answer is a batch of steps. -/
def isDrained : Answer → Bool
  | .drained _ => true
  | _ => false

/-- What has been handed out after an answer, if this much has been before it.  A session
that is put back to its beginning starts afresh. -/
def handOut (handed : List Step) : Answer → List Step
  | .drained steps => handed ++ steps
  | .cleared => []
  | _ => handed

end Answer

/-- The batches of steps that have been handed out, put together. -/
def handedOut (answers : List Answer) : List Step := answers.foldl Answer.handOut []

/-- Carries out operations one after the other, and keeps their answers. -/
def play (t : ParseTable Node Level) (moves : Nat) (s : Session Node Level) :
    List Operation → Read (Session Node Level × List Answer)
  | [] => return (s, [])
  | operation :: rest => do
    let (after, answer) ← s.perform t moves operation
    let (last, answers) ← play t moves after rest
    return (last, answer :: answers)

/-- Carries out operations on a fresh session. -/
def playFresh (t : ParseTable Node Level) (moves : Nat) (operations : List Operation) :
    Read (Session Node Level × List Answer) := do
  play t moves (← start t moves) operations

/-- The operations without those that hand out steps. -/
def keepingSteps (operations : List Operation) : List Operation :=
  operations.filter fun operation => operation ≠ .clearSteps

namespace Lags

/-- **Every other operation** returns the same for both sessions. -/
theorem perform (h : Lags t marked handed s s') (ht : t.Foresees marked) (moves : Nat)
    {operation : Operation} (hop : operation ≠ .clearSteps) :
    Alike (fun _ => True) (fun x y => Lags t marked (x.2.handOut handed) x.1 y.1 ∧ x.2 = y.2 ∧
      x.2.isDrained = false) (s.perform t moves operation) (s'.perform t moves operation) := by
  cases operation with
  | consume symbol token =>
      exact (h.consume ht moves symbol token).bind fun x y hxy =>
        .ok ⟨hxy.1, congrArg Answer.taken hxy.2, rfl⟩
  | endOfInput =>
      exact (h.endOfInput ht moves).bind fun x y hxy =>
        .ok ⟨hxy.1, congrArg Answer.taken hxy.2, rfl⟩
  | clear => exact .bind_read fun fresh hfresh => .ok ⟨start ht hfresh, rfl, rfl⟩
  | clearSteps => exact absurd rfl hop
  | expected =>
      rw [Session.perform, Session.perform, expected_of_inStep h.configuration.inStep]
      exact .bind_read fun symbols _ => .ok ⟨h, rfl, rfl⟩

/-- **A session that hands out steps** stays behind one that does not. -/
theorem play (h : Lags t marked handed s s') (ht : t.Foresees marked) (moves : Nat)
    (operations : List Operation) :
    Alike (fun _ => True) (fun x y => Lags t marked (x.2.foldl Answer.handOut handed) x.1 y.1 ∧
      y.2 = x.2.filter fun answer => !answer.isDrained)
      (s.play t moves operations) (s'.play t moves (keepingSteps operations)) := by
  induction operations generalizing handed s s' with
  | nil => exact .ok ⟨h, rfl⟩
  | cons operation rest ih =>
      by_cases hop : operation = .clearSteps
      · -- Nothing corresponds to it in the session that keeps its steps.
        subst hop
        have hcleared : Lags t marked (handed ++ s.clearSteps.1) s.clearSteps.2 s' :=
          ⟨h.configuration.clearSteps, h.next⟩
        have hrest := ih hcleared
        have hkeeping : keepingSteps (.clearSteps :: rest) = keepingSteps rest := by
          simp [keepingSteps]
        rw [hkeeping]
        change Alike _ _ ((s.clearSteps.2).play t moves rest >>= fun x => Except.ok
          (x.1, .drained s.clearSteps.1 :: x.2)) _
        generalize s.clearSteps.2.play t moves rest = outcome at hrest ⊢
        generalize s'.play t moves (keepingSteps rest) = outcome' at hrest ⊢
        cases hrest with
        | ok hxy => exact .ok hxy
        | fault _ => exact .fault trivial
      · have hkeeping : keepingSteps (operation :: rest) = operation :: keepingSteps rest := by
          simp [keepingSteps, hop]
        rw [hkeeping]
        refine (h.perform ht moves hop).bind fun x y hxy => ?_
        obtain ⟨after, answer⟩ := x
        obtain ⟨after', answer'⟩ := y
        obtain ⟨hafter, rfl, hdrained⟩ := hxy
        dsimp only at hafter hdrained
        refine (ih hafter).bind fun x y hxy => .ok ⟨hxy.1, ?_⟩
        rw [List.filter_cons, hdrained, hxy.2]
        rfl

end Lags

/-! ## All steps, in order -/

/-- How a session that has handed out steps compares with one that has kept them: the
answers are the same, and all steps are there, in order.  Whatever token comes next, the
place of an announcement that becomes due lies behind the steps that are gone. -/
structure Lossless (t : ParseTable Node Level) (moves : Nat)
    (x y : Session Node Level × List Answer) : Prop where
  answers : y.2 = x.2.filter fun answer => !answer.isDrained
  accepted : x.1.accepted = y.1.accepted
  steps : handedOut x.2 ++ x.1.steps = y.1.steps
  inTime : ∀ {token c top index q},
    Visits t moves (withToken y.1.configuration token) c → StateStack.peek c.stack 0 = some top →
    Consults t c top (.reduce index) → t.property top index = .ok q → q.predict = true →
    (handedOut x.2).length ≤ c.stack.spanStart q.count

/-- What a session has handed out is in time, and no step of it is lost. -/
theorem Lags.lossless {x y : Session Node Level × List Answer}
    (h : Lags t marked (handedOut x.2) x.1 y.1) (ht : t.Foresees marked)
    (hanswers : y.2 = x.2.filter fun answer => !answer.isDrained) (moves : Nat) :
    Lossless t moves x y where
  answers := hanswers
  accepted := h.configuration.inStep.isAccepted
  steps := h.configuration.steps_eq
  inTime {token c top index q} hvisits htop hconsults hq hpredict := by
    have hforeseen := h.configuration.foreseen
    have hkept := hvisits.keeps
      (P := fun c => Foreseen t marked c ∧ (Pending marked c → Pending marked y.1.configuration))
      (fun c c' hc hstep => by
        obtain ⟨-, top, action, htop, hconsults, hmoves⟩ := step_eq_moved.1 hstep
        obtain ⟨hnext, hpending⟩ := hc.1.moves ht htop hconsults hmoves
        exact ⟨hnext, fun hp => hc.2 (hpending hp)⟩)
      ⟨⟨hforeseen.grounded, hforeseen.reached, hforeseen.top, hforeseen.provisional⟩, id⟩
    have hpending := hkept.1.pending_of_due ht htop hconsults hq hpredict
    rw [h.configuration.early (hkept.2 hpending)]
    exact Nat.zero_le _

/-- Operations on a fresh session come to the same whether its steps are handed out on
the way or kept. -/
def Streams (t : ParseTable Node Level) : Prop :=
  ∀ moves operations, Alike (fun _ => True) (Lossless t moves) (playFresh t moves operations)
    (playFresh t moves (keepingSteps operations))

/-- **A table that foresees its announcements** streams without loss. -/
theorem streams_of_foresees (ht : t.Foresees marked) : Streams t := by
  intro moves operations
  refine .bind_read fun fresh hfresh => ?_
  exact ((Lags.start ht hfresh).play ht moves operations).mono fun x y hxy =>
    hxy.1.lossless ht hxy.2 moves

end Session

/-- **Streaming is lossless.**  Take a compiled grammar, or the table that it is stored
as, and any operations on a fresh session.  If the steps that can no longer change are
taken out at arbitrary points in between, the batches that have been taken out, followed
by the steps that are left, are the steps of a session from which none were taken; and no
announcement is ever due in front of a step that has been taken out. -/
theorem Grammar.streams_of_compile {grammar : Grammar} {bound : Nat} {p : Parser}
    (hp : grammar.compile bound = .ok p) : Session.Streams p.table ∧
      ∀ {w : Width} {b : Buffer} {t : Table}, p.toTable w = .ok b →
        Table.ofWords b.words = .ok t → Session.Streams t.table := by
  refine ⟨?_, fun hb ht => ?_⟩
  · obtain ⟨-, hcompiled⟩ := Grammar.compiled_of_compile hp
    exact Session.streams_of_foresees hcompiled.foresees
  · obtain ⟨marked, hforesees⟩ := Grammar.foresees_of_toTable hp hb ht
    exact Session.streams_of_foresees hforesees

/-- A sentence of the forked grammar, with its steps taken out after every token. -/
def Grammar.forkedOperations : List Session.Operation :=
  [.consume (.terminal 2) 0, .clearSteps, .consume (.terminal 0) 1, .clearSteps, .endOfInput,
    .clearSteps]

/-- Neither the forked grammar nor its table loses a step of the sentence. -/
theorem Grammar.streams_of_compile_forked : ∃ p b t x y, forked.compile 1 = .ok p ∧
    p.toTable .bits16 = .ok b ∧ Table.ofWords b.words = .ok t ∧ Session.Streams t.table ∧
    Session.playFresh p.table 9 forkedOperations = .ok x ∧
    Session.playFresh p.table 9 (Session.keepingSteps forkedOperations) = .ok y ∧
    Session.handedOut x.2 ++ x.1.steps = y.1.steps := by
  obtain ⟨p, b, hp, hb⟩ := exists_of_stores
    (show forked.stores 1 .bits16 = true by decide +kernel)
  obtain ⟨-, -, hcontains⟩ := contains_of_toTable hp hb
  have ht : Table.ofWords b.words = .ok ⟨b.words, _, Scan.header_eq_ok.2 ⟨_, hcontains⟩⟩ :=
    Table.ofWords_eq_ok.2 rfl
  obtain ⟨hparser, htable⟩ := streams_of_compile hp
  obtain ⟨p', s, hp', hs, hplays⟩ := exists_of_passes (show forked.passes 1 9
    (fun p s => yields (s.play p.table 9 (Session.keepingSteps forkedOperations)) fun _ => true) =
      true by decide +kernel)
  cases hp.symm.trans hp'
  obtain ⟨y, hy, -⟩ := exists_of_yields hplays
  have hfresh : Session.playFresh p.table 9 (Session.keepingSteps forkedOperations) = .ok y :=
    bind_eq_ok.2 ⟨s, hs, hy⟩
  obtain ⟨x, hx, hlossless⟩ := (hparser 9 forkedOperations).exists_of_ok hfresh
  exact ⟨p, b, _, x, y, hp, hb, ht, htable hb ht, hx, hfresh, hlossless.steps⟩

end BoundedLR
