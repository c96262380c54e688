import BoundedLR.Proofs.Lockstep
import BoundedLR.Proofs.Soundness

/-!
# Taking a token is all or nothing

A session tries a token out in a dry run, and takes it by a run on its record.  If
the second run could stall although the first did not, a token would be rejected
after it had already left its marks on the record.

It cannot.  A dry run begins in step with the record that it borrows its entries
from: the same nodes lie on both stacks, and the two tokens differ in their index
at most.  So both runs do the same thing, and end in step (`run_dryRun`).  This holds
of any table, whether or not it has been made from a grammar, and of any session.
-/

namespace BoundedLR

open Machine

namespace Session

variable {Node Level : Type} {t : ParseTable Node Level} {moves : Nat}

/-! ## The two runs -/

/-- A token may be put into both buffers, with any index. -/
theorem inStep_withToken {σ σ' : Type} [StateStack σ Node] [StateStack σ' Node]
    {c : Configuration σ Level} {c' : Configuration σ' Level} (h : InStep c c')
    {token token' : Token} (hsymbol : token.symbol = token'.symbol) :
    InStep (withToken c token) (withToken c' token') where
  peek := h.peek
  isAccepted := h.isAccepted
  symbols := by
    rw [withToken, withToken, List.map_append, List.map_append, h.symbols, List.map_singleton,
      List.map_singleton, hsymbol]
  cursor := h.cursor

/-- A dry run begins in step with the record. -/
theorem inStep_dryRun (c : Configuration (Record Node) Level) : InStep (dryRun c) c where
  peek n := (DryRun.shows_ofRecord c.stack.shows n).trans (c.stack.shows n).symm
  isAccepted := rfl
  symbols := rfl
  cursor := rfl

/-- What a dry run and a run on the record have in common at their ends. -/
structure Confirms (d : Configuration (DryRun Node) Level)
    (c : Configuration (Record Node) Level) : Prop where
  nodes : d.stack.pushed ++ d.stack.kept.map (·.node) = c.stack.entries.map (·.node)
  cursor : d.cursor = c.cursor
  buffered : d.buffer.length = c.buffer.length
  accepted : d.stack.accepted = c.stack.accepted

theorem confirms_of_inStep {d : Configuration (DryRun Node) Level}
    {c : Configuration (Record Node) Level} (h : InStep d c) : Confirms d c where
  nodes := by
    refine (Record.nodes_eq_of_shows fun n => ?_).symm
    exact (h.peek n).symm.trans (d.stack.shows n)
  cursor := h.cursor
  buffered := by
    rw [← List.length_map (fun token : Token => token.symbol), h.symbols, List.length_map]
  accepted := h.isAccepted

/-- **A run on the record does what the dry run did**, with any index for the token. -/
theorem run_dryRun {c : Configuration (Record Node) Level} {symbol : Symbol} {index : Nat}
    {d : Configuration (DryRun Node) Level} {stall : Option Stall}
    (h : run t moves (withToken (dryRun c) ⟨symbol, index⟩) = .ok (d, stall)) (token : Nat) :
    ∃ c', run t moves (withToken c ⟨symbol, token⟩) = .ok (c', stall) ∧ Confirms d c' := by
  have hbegin : InStep (withToken (dryRun c) ⟨symbol, index⟩) (withToken c ⟨symbol, token⟩) :=
    inStep_withToken (inStep_dryRun c) rfl
  have halike := run_together (t := t) (K := fun _ _ => True) (fun _ _ _ _ _ _ => trivial) hbegin
    trivial moves
  generalize run t moves (withToken c ⟨symbol, token⟩) = outcome at halike ⊢
  rw [h] at halike
  cases halike with
  | @ok _ b hends =>
      obtain ⟨⟨hend, -⟩, hstall⟩ := hends
      exact ⟨b.1, by rw [show stall = b.2 from hstall], confirms_of_inStep hend⟩

/-! ## Rejected and taken -/

/-- **Taking a token is all or nothing.**  A session that rejects a token is left as it
was, down to the offsets in its record.  A token that the dry run does not stall on
is taken, and the session ends where the dry run did: with the same nodes on its
stack, the cursor at the same place, as many tokens in its buffer, and with the input
accepted or not in the same way. -/
theorem consume_all_or_nothing (t : ParseTable Node Level) (moves : Nat) (s : Session Node Level)
    (symbol : Symbol) (token : Nat) :
    (∀ after rejection, s.consume t moves symbol token = .ok (after, .error rejection) →
      after = s) ∧
    ∀ d, run t moves (withToken (dryRun s.configuration) ⟨symbol, s.next⟩) = .ok (d, none) →
      ∃ after, s.consume t moves symbol token = .ok (after, .ok ()) ∧
        Confirms d after.configuration := by
  constructor
  · intro after rejection h
    obtain ⟨b, hwould, h⟩ := bind_eq_ok.1 h
    cases b with
    | false =>
        obtain ⟨expected, -, h⟩ := bind_eq_ok.1 h
        cases h
        rfl
    | true =>
        -- The dry run has not stalled, so the run on the record does not either.
        obtain ⟨⟨d, stall⟩, hdry, hb⟩ := bind_eq_ok.1 hwould
        have hnone : stall = none := Option.isNone_iff_eq_none.1 (Except.ok.inj hb)
        subst hnone
        obtain ⟨c, hrun, -⟩ := run_dryRun hdry token
        have htaken : s.consume t moves symbol token = .ok (⟨c, nextTokenIndex token⟩, .ok ()) :=
          consume_eq_ok.2 ⟨⟨d, hdry⟩, hrun, rfl⟩
        cases htaken.symm.trans (bind_eq_ok.2 ⟨true, hwould, h⟩)
  · intro d hdry
    obtain ⟨c, hrun, hconfirms⟩ := run_dryRun hdry token
    exact ⟨⟨c, nextTokenIndex token⟩, consume_eq_ok.2 ⟨⟨d, hdry⟩, hrun, rfl⟩, hconfirms⟩

/-- A fresh session of the forked grammar rejects one terminal and takes another. -/
theorem consume_all_or_nothing_forked : ∃ p s, Grammar.forked.compile 1 = .ok p ∧
    start p.table 9 = .ok s ∧
    (∃ rejection, s.consume p.table 9 (.terminal 0) 0 = .ok (s, .error rejection)) ∧
    ∃ d after, run p.table 9 (withToken (dryRun s.configuration) ⟨.terminal 2, s.next⟩) =
        .ok (d, none) ∧
      s.consume p.table 9 (.terminal 2) 0 = .ok (after, .ok ()) ∧
      Confirms d after.configuration := by
  obtain ⟨p, s, hp, hs, htest⟩ := Grammar.exists_of_passes
    (show Grammar.forked.passes 1 9 (fun p s =>
      yields (s.consume p.table 9 (.terminal 2) 0) (·.2.toBool) &&
      yields (s.consume p.table 9 (.terminal 0) 0) (!·.2.toBool)) = true by decide +kernel)
  rw [Bool.and_eq_true] at htest
  obtain ⟨⟨after, rejection | ⟨⟩⟩, htaken, haccepts⟩ := exists_of_yields htest.1
  · cases haccepts
  obtain ⟨⟨unchanged, rejection | ⟨⟩⟩, hrejected, hrejects⟩ := exists_of_yields htest.2
  · obtain ⟨d, hdry⟩ := (consume_eq_ok.1 htaken).1
    have hsame :=
      (consume_all_or_nothing p.table 9 s (.terminal 0) 0).1 unchanged rejection hrejected
    rw [hsame] at hrejected
    exact ⟨p, s, hp, hs, ⟨rejection, hrejected⟩, d,
      ((consume_all_or_nothing p.table 9 s (.terminal 2) 0).2 d hdry).imp fun _ h => ⟨hdry, h⟩⟩
  · cases hrejects

end Session
end BoundedLR
