import BoundedLR.Proofs.HaltingRuns
import BoundedLR.Proofs.ReachableSessions

/-!
# A compiled parser never spins

Every operation on a session is made of runs of the machine, and the number of moves that a
run may make is a parameter of all of them.  Here this number is done away with.  If a
grammar compiles and its slots can be filled, each run comes to an end, so each operation
returns once it is given enough moves, and then always the same (`Returns`).

Runs have been followed on stacks that have recorded trees.  The other configurations that
operations run the machine on are in step with one of these: a dry run borrows the entries of
the record, and handing out steps changes nothing that a table could see.  Such a
configuration is said to *shadow* recorded trees, and its runs are those of the configuration
that it is in step with.
-/

namespace BoundedLR

open Machine Session

/-! ## Enough moves -/

/-- A computation returns if it is only given enough moves, and then what it returns does not
depend on their number. -/
def Returns {α : Type} (f : Nat → Read α) : Prop :=
  ∃ least r, ∀ moves, least ≤ moves → f moves = .ok r

namespace Returns

variable {α β : Type} {f : Nat → Read α}

theorem ok (r : α) : Returns fun _ => .ok r := ⟨0, r, fun _ _ => rfl⟩

/-- One computation after another. -/
theorem bind {h : Nat → α → Read β} (hf : Returns f)
    (hh : ∀ moves r, f moves = .ok r → Returns fun more => h more r) :
    Returns fun moves => f moves >>= h moves := by
  obtain ⟨least, r, hr⟩ := hf
  obtain ⟨more, r', hr'⟩ := hh least r (hr least (Nat.le_refl least))
  refine ⟨max least more, r', fun moves hmoves => ?_⟩
  dsimp only
  rw [hr moves (by omega), ok_bind]
  exact hr' moves (by omega)

/-- Filtering returns if each test does. -/
theorem filterM {test : Nat → α → Read Bool} {xs : List α}
    (h : ∀ x ∈ xs, Returns fun moves => test moves x) :
    Returns fun moves => xs.filterM (test moves) := by
  have haux : ∀ kept, Returns fun moves => xs.filterAuxM (test moves) kept := by
    induction xs with
    | nil => exact fun kept => .ok kept
    | cons x xs ih =>
        intro kept
        rw [List.forall_mem_cons] at h
        exact h.1.bind fun _ _ _ => ih h.2 _
  exact (haux []).bind fun _ _ _ => .ok _

end Returns

/-- A run that comes to an end returns. -/
theorem Machine.Halts.returns {σ Node Level : Type} [StateStack σ Node]
    {t : ParseTable Node Level} {c : Configuration σ Level} (h : Halts t c) :
    Returns fun moves => run t moves c := by
  obtain ⟨least, r, hr⟩ := h
  exact ⟨least, r, fun moves hmoves => run_mono hmoves hr⟩

/-! ## Shadows of recorded trees -/

variable {p : Parser} {start : Symbol} {moves : Nat}

section Shadows

variable {σ : Type} [StateStack σ Nat] {c c' : Configuration σ (Trie Decision)}

/-- A run of a configuration that is in step with recorded trees leads to one that is, too. -/
theorem Parser.Compiled.growth_of_inStep [LawfulStack σ Nat] (hp : p.Compiled start)
    {taken : List Token} {d : Configuration (Record Nat) (Trie Decision)} {trees : List (Tree Nat)}
    {stall : Option Stall} (hs : p.Growth taken d trees) (hstep : InStep c d)
    (hrun : run p.table moves c = .ok (c', stall)) :
    ∃ d' trees', p.Growth taken d' trees' ∧ InStep c' d' ∧ Ends p.table d' stall := by
  have halike := run_together (t := p.table) (K := fun _ _ => True)
    (fun _ _ _ _ _ _ => trivial) hstep trivial moves
  generalize hother : run p.table moves d = other at halike
  rw [hrun] at halike
  cases halike with
  | @ok _ r hends =>
      obtain ⟨⟨hend, -⟩, hstall⟩ := hends
      obtain ⟨⟨trees', hs'⟩, hends'⟩ := hp.growth_run ⟨trees, hs⟩ hother
      obtain rfl : stall = r.2 := hstall
      exact ⟨r.1, trees', hs', hend, hends'⟩

/-- A configuration is in step with one that has recorded trees. -/
def Parser.Shadows (p : Parser) (c : Configuration σ (Trie Decision)) : Prop :=
  ∃ taken d trees, p.Growth taken d trees ∧ InStep c d

namespace Parser.Shadows

theorem withToken (h : p.Shadows c) (token : Token) : p.Shadows (withToken c token) := by
  obtain ⟨taken, d, trees, hs, hstep⟩ := h
  exact ⟨_, _, trees, hs.withToken token, inStep_withToken hstep rfl⟩

theorem of_inStep {σ' : Type} [StateStack σ' Nat] {c' : Configuration σ' (Trie Decision)}
    (h : p.Shadows c) (hstep : InStep c' c) : p.Shadows c' := by
  obtain ⟨taken, d, trees, hs, hd⟩ := h
  exact ⟨taken, d, trees, hs, hstep.trans hd⟩

theorem exists_top (h : p.Shadows c) : ∃ top, StateStack.peek c.stack 0 = some top := by
  obtain ⟨taken, d, trees, hs, hstep⟩ := h
  obtain ⟨top, below, -, htop⟩ := hs.exists_top
  exact ⟨top, (hstep.peek 0).trans htop⟩

variable [LawfulStack σ Nat]

/-- A run leaves the shadow of one. -/
theorem run (hp : p.Compiled start) (h : p.Shadows c) {stall : Option Stall}
    (hrun : run p.table moves c = .ok (c', stall)) : p.Shadows c' := by
  obtain ⟨taken, d, trees, hs, hstep⟩ := h
  obtain ⟨d', trees', hs', hend, -⟩ := hp.growth_of_inStep hs hstep hrun
  exact ⟨taken, d', trees', hs', hend⟩

/-- **A run from a shadow comes to an end.** -/
theorem halts (hp : p.Compiled start) (hprod : p.productions.Productive) (h : p.Shadows c) :
    Halts p.table c := by
  obtain ⟨taken, d, trees, hs, hstep⟩ := h
  obtain ⟨moves, r, hrun⟩ := hp.halts hprod hs
  obtain ⟨r', hrun', -⟩ := (run_together (t := p.table) (K := fun _ _ => True)
    (fun _ _ _ _ _ _ => trivial) hstep trivial moves).exists_of_ok hrun
  exact ⟨moves, r', hrun'⟩

end Parser.Shadows

end Shadows

/-! ## Operations -/

namespace Parser.Compiled

variable {s after : Session Nat (Trie Decision)} (hp : p.Compiled start)

include hp

/-! ### What operations keep -/

/-- A parse begins with recorded trees. -/
theorem shadows_of_run {root : Trie Decision} {c : Configuration (Record Nat) (Trie Decision)}
    {stall : Option Stall} (hroot : p.table.root p.table.startup = .ok root)
    (hrun : run p.table moves ⟨Record.start p.table.startup, [], ⟨root, 0⟩⟩ = .ok (c, stall)) :
    p.Shadows c := by
  obtain ⟨⟨trees, hs⟩, -⟩ := hp.growth_run ⟨[], growth_start hroot⟩ hrun
  exact ⟨[], c, trees, hs, ⟨fun _ => rfl, rfl, rfl, rfl⟩⟩

/-- Taking a token keeps them. -/
theorem shadows_of_taken {c c' : Configuration (Record Nat) (Trie Decision)} {token : Token}
    (h : p.Shadows c) (hrun : run p.table moves (withToken c token) = .ok (c', none)) :
    p.Shadows c' :=
  (h.withToken token).run hp hrun

/-- **A session that operations lead to** shadows recorded trees. -/
theorem shadows_of_reachable (h : Reachable p.table moves s) : p.Shadows s.configuration :=
  reachable_keeps (P := p.Shadows) hp.shadows_of_run hp.shadows_of_taken
    (fun hc => hc.of_inStep (inStep_clearSteps _)) h

theorem shadows_of_perform {operation : Operation} {answer : Answer}
    (hs : p.Shadows s.configuration)
    (h : s.perform p.table moves operation = .ok (after, answer)) : p.Shadows after.configuration :=
  perform_keeps (P := p.Shadows) hp.shadows_of_run hp.shadows_of_taken
    (fun hc => hc.of_inStep (inStep_clearSteps _)) hs h

/-! ### What operations return -/

variable (hprod : p.productions.Productive)

include hprod

theorem start_returns : Returns (Session.start p.table) := by
  obtain ⟨root, hroot⟩ := hp.exists_root hp.realises.count_pos
  have hread : Returns fun _ => p.table.root p.table.startup := ⟨0, root, fun _ _ => hroot⟩
  refine hread.bind fun _ root' hroot' => ?_
  exact (hp.halts hprod (growth_start hroot')).returns.bind fun _ _ _ => .ok _

variable (hs : p.Shadows s.configuration)

include hs

theorem wouldAccept_returns (symbol : Symbol) :
    Returns fun moves => s.wouldAccept p.table moves symbol :=
  (((hs.of_inStep (inStep_dryRun _)).withToken ⟨symbol, s.next⟩).halts hp hprod).returns.bind
    fun _ _ _ => .ok _

theorem expected_returns : Returns fun moves => s.expected p.table moves := by
  simp only [Session.expected]
  cases s.accepted with
  | true => exact .ok []
  | false =>
      obtain ⟨top, htop⟩ := hs.exists_top
      rw [htop]
      exact (Returns.filterM fun symbol _ => hp.wouldAccept_returns hprod hs symbol).bind
        fun _ _ _ => .ok _

theorem consume_returns (symbol : Symbol) (token : Nat) :
    Returns fun moves => s.consume p.table moves symbol token := by
  refine (hp.wouldAccept_returns hprod hs symbol).bind fun _ b _ => ?_
  cases b with
  | false => exact (hp.expected_returns hprod hs).bind fun _ _ _ => .ok _
  | true =>
      refine ((hs.withToken ⟨symbol, token⟩).halts hp hprod).returns.bind fun _ r _ => ?_
      obtain ⟨c, stall⟩ := r
      cases stall with
      | none => exact .ok _
      | some why => exact .ok _

theorem endOfInput_returns : Returns fun moves => s.endOfInput p.table moves := by
  refine (hp.consume_returns hprod hs .endOfInput s.next).bind fun _ r hconsume => ?_
  obtain ⟨after, answer⟩ := r
  have hafter : p.Shadows after.configuration :=
    consume_keeps (P := p.Shadows) hp.shadows_of_taken hs hconsume
  cases answer with
  | error rejection => exact .ok _
  | ok u =>
      dsimp only
      cases after.accepted with
      | true => exact .ok _
      | false => exact (hp.expected_returns hprod hafter).bind fun _ _ _ => .ok _

/-- **Every operation returns.** -/
theorem perform_returns (operation : Operation) :
    Returns fun moves => s.perform p.table moves operation := by
  cases operation with
  | consume symbol token =>
      exact (hp.consume_returns hprod hs symbol token).bind fun _ _ _ => .ok _
  | endOfInput => exact (hp.endOfInput_returns hprod hs).bind fun _ _ _ => .ok _
  | clear => exact (hp.start_returns hprod).bind fun _ _ _ => .ok _
  | clearSteps => exact .ok _
  | expected => exact (hp.expected_returns hprod hs).bind fun _ _ _ => .ok _

/-- So does any sequence of them. -/
theorem converse_returns (operations : List Operation) :
    Returns fun moves => s.converse p.table moves operations := by
  induction operations generalizing s with
  | nil => exact .ok []
  | cons operation rest ih =>
      refine (hp.perform_returns hprod hs operation).bind fun moves r hperform => ?_
      obtain ⟨after, answer⟩ := r
      exact (ih (hp.shadows_of_perform hs hperform)).bind fun _ _ _ => .ok _

end Parser.Compiled

/-! ## Never spinning -/

/-- **A compiled parser never spins.**  Let a grammar compile and be productive.  In every
session that operations lead to, trying out a token and recording it are runs of the machine
that come to an end after finitely many moves, whatever the token is, and every operation
returns.  So a session can be begun, and any sequence of operations can be carried out
on it. -/
theorem Grammar.returns_of_compile {grammar : Grammar} {bound : Nat}
    (hp : grammar.compile bound = .ok p) (hprod : p.productions.Productive) :
    Returns (Session.start p.table) ∧
    (∀ reached s, Reachable p.table reached s →
      (∀ token : Token,
        Returns (fun moves => run p.table moves (withToken (dryRun s.configuration) token)) ∧
        Returns fun moves => run p.table moves (withToken s.configuration token)) ∧
      ∀ operation, Returns fun moves => s.perform p.table moves operation) ∧
    ∀ operations, Returns fun moves => Session.transcript p.table moves operations := by
  obtain ⟨-, hcompiled⟩ := compiled_of_compile hp
  refine ⟨hcompiled.start_returns hprod, fun reached s hreached => ?_, fun operations => ?_⟩
  · have hs := hcompiled.shadows_of_reachable hreached
    refine ⟨fun token => ⟨?_, ?_⟩, hcompiled.perform_returns hprod hs⟩
    · exact (((hs.of_inStep (inStep_dryRun _)).withToken token).halts hcompiled hprod).returns
    · exact ((hs.withToken token).halts hcompiled hprod).returns
  · refine (hcompiled.start_returns hprod).bind fun moves s hstart => ?_
    exact hcompiled.converse_returns hprod (hcompiled.shadows_of_reachable (.start hstart))
      operations

/-- Some terminals and behind them some others.  Both lists may be empty, and the first is
begun before there is a token. -/
def Grammar.lists : Grammar where
  start := .nonTerminal 0
  rules :=
    [⟨.nonTerminal 0, [.symbol (.nonTerminal 1), .symbol (.nonTerminal 2)], 0, false⟩,
      ⟨.nonTerminal 1, [], 0, false⟩,
      ⟨.nonTerminal 1, [.symbol (.nonTerminal 1), .symbol (.terminal 0)], 0, false⟩,
      ⟨.nonTerminal 2, [], 0, false⟩,
      ⟨.nonTerminal 2, [.symbol (.terminal 1), .symbol (.nonTerminal 2)], 0, false⟩]
  priorities := []

/-- Empty lists are reduced without shifting anything, and yet no session spins. -/
theorem Grammar.returns_of_compile_lists : ∃ p, lists.compile 1 = .ok p ∧
    p.productions.Productive ∧ Returns (Session.start p.table) ∧
    (∀ reached s, Reachable p.table reached s →
      (∀ token : Token,
        Returns (fun moves => run p.table moves (withToken (dryRun s.configuration) token)) ∧
        Returns fun moves => run p.table moves (withToken s.configuration token)) ∧
      ∀ operation, Returns fun moves => s.perform p.table moves operation) ∧
    ∀ operations, Returns fun moves => Session.transcript p.table moves operations := by
  obtain ⟨p, s, hp, -, hfills⟩ := exists_of_passes
    (show lists.passes 1 3 (fun p _ => p.productions.fillsAll 2) = true by decide +kernel)
  have hprod := Productions.productive_of_fillsAll hfills
  exact ⟨p, hp, hprod, returns_of_compile hp hprod⟩

end BoundedLR
