import BoundedLR.Proofs.Completeness
import BoundedLR.Proofs.Completions
import BoundedLR.Proofs.Expectations
import BoundedLR.Proofs.LargerBounds

/-!
# What has been shifted can be completed

A parser without lookahead detects an error at the earliest possible moment: it takes
a token only if some sentence goes on with it.  With lookahead this holds of the
tokens that have been *shifted*.  Each of them has become part of a tree on the stack,
and a stack of trees is the beginning of a sentence if the slots of the grammar can be
filled.  The tokens that are still in the buffer have only been looked at.

The tries are built from all stacks that a state may be on top of, so a token may be
looked at that is possible in another context only.  There are fewer such tokens than
the bound on the lookahead, since each of them has led one level down in a trie.  If
the buffer is empty, the input can be completed and so there is a symbol to go on with.
Otherwise there need not be: the grammar at the end of this module lets a parser look
at a symbol behind which nothing can come.
-/

namespace BoundedLR

variable {p : Parser} {start : Symbol} {grammar : Grammar} {bound moves : Nat}
  {tokens : List Token}

/-! ## How far a parser looks ahead -/

theorem Grammar.bound_of_compile (h : grammar.compile bound = .ok p) : p.bound = bound := by
  obtain ⟨g, nodes, -, -, rfl⟩ := compile_eq_ok.1 h
  rfl

/-- **A parser looks at fewer symbols than its bound** before it settles on an
action. -/
theorem Parser.Compiled.length_le_of_walk (hp : p.Compiled start) {n : Nat} {word : List Symbol}
    {root level : Trie Decision} (hroot : p.table.root n = .ok root)
    (hw : root.walk word = some level) : word.length ≤ p.bound - 1 := by
  obtain ⟨node, -, hfor, rfl⟩ := hp.root_eq_ok hroot
  cases hfor with
  | reduces _ _ _ hdone =>
      rw [hdone] at hw
      cases word with
      | nil => exact Nat.zero_le _
      | cons s word => cases hw
  | shifts _ _ htrie =>
      rw [htrie] at hw
      rw [eq_nil_of_walk_shiftTrie hw]
      exact Nat.zero_le _
  | settled _ _ hsettle =>
      obtain ⟨levels, found, hbound, -, hsplit⟩ := Contest.settle_eq_ok hsettle
      have hlevels : p.bound = levels + 1 := hbound
      rw [hlevels]
      exact Contest.length_le_of_walk hsplit hw

/-! ## Sessions that have been fed -/

namespace Session

variable {fresh s : Session Nat (Trie Decision)}

/-- A session that has been fed has recorded trees, and stands behind its buffer. -/
theorem growth_of_feed (hp : p.Compiled start) (hstart : Session.start p.table moves = .ok fresh)
    (hfeed : fresh.feed p.table moves tokens = .ok (s, .ok ())) :
    (∃ trees, p.Growth tokens s.configuration trees) ∧ Settled p.table s.configuration := by
  obtain ⟨-, root, stall, hroot, hrun⟩ := start_eq_ok.1 hstart
  have hfresh : (∃ trees, p.Growth [] fresh.configuration trees) ∧
      Settled p.table fresh.configuration := by
    obtain ⟨⟨trees, hs⟩, hends⟩ := hp.growth_run ⟨[], Parser.growth_start hroot⟩ hrun
    refine ⟨⟨trees, hs⟩, ⟨stall, hends⟩, ?_⟩
    have hbuffer : fresh.configuration.buffer = [] := (List.append_eq_nil_iff.1 hs.leaves).2
    have hle := hs.depth_le
    rw [hbuffer, List.length_nil] at hle ⊢
    omega
  refine feed_keeps (P := fun taken c => (∃ trees, p.Growth taken c trees) ∧ Settled p.table c)
    (fun taken c token c' ⟨⟨trees, hs⟩, _⟩ hrun => ?_) hfresh hfeed
  -- the machine has taken the token, so it waits behind its buffer
  obtain ⟨⟨trees', hs'⟩, hends⟩ := hp.growth_run ⟨trees, hs.withToken token⟩ hrun
  refine ⟨⟨trees', hs'⟩, ⟨none, hends⟩, ?_⟩
  cases hends with
  | waiting hwaiting =>
      exact Nat.le_antisymm hs'.depth_le (Machine.length_le_of_waiting hwaiting)

/-- The buffer holds fewer tokens than the bound. -/
theorem length_buffer_le (hp : p.Compiled start) {trees : List (Tree Nat)}
    (hs : p.Growth tokens s.configuration trees) (hsettled : Settled p.table s.configuration) :
    s.configuration.buffer.length ≤ p.bound - 1 := by
  obtain ⟨top, below, -, htop⟩ := hs.exists_top
  obtain ⟨root, hroot, hwalk⟩ := hs.cursor top htop
  have hle := hp.length_le_of_walk hroot hwalk
  rw [hsettled.depth, List.take_length, List.length_map] at hle
  exact hle

/-- Some tokens can be fed to a session such that the end of input is taken behind
them.  How many moves are allowed does not matter, if they suffice. -/
def CanComplete {Node Level : Type} (t : ParseTable Node Level) (s : Session Node Level) : Prop :=
  ∃ rest moves fed after, s.feed t moves rest = .ok (fed, .ok ()) ∧
    fed.endOfInput t moves = .ok (after, .ok ())

/-- Who goes on takes a symbol. -/
theorem CanComplete.exists_consume {Node Level : Type} {t : ParseTable Node Level}
    {s : Session Node Level} (h : s.CanComplete t) : ∃ moves symbol token after,
      s.consume t moves symbol token = .ok (after, .ok ()) := by
  obtain ⟨rest, moves, fed, after, hfeed, hend⟩ := h
  cases rest with
  | nil =>
      cases Except.ok.inj hfeed
      exact ⟨moves, .endOfInput, s.next, after, (endOfInput_eq_ok.1 hend).1⟩
  | cons token rest =>
      obtain ⟨next, hconsume, -⟩ := feed_cons_eq_ok.1 hfeed
      exact ⟨moves, token.symbol, token.index, next, hconsume⟩

/-- **A session that can be completed expects something.** -/
theorem CanComplete.expects {Node Level : Type} {t : ParseTable Node Level}
    {s : Session Node Level} (ht : t.Lists) (hs : Settled t s.configuration)
    (h : s.CanComplete t) : s.accepted = false ∧ ∀ moves, s.expected t moves ≠ .ok [] := by
  obtain ⟨moves, symbol, token, after, hconsume⟩ := h.exists_consume
  obtain ⟨stall, hends⟩ := hs.ends
  refine ⟨?_, fun more hexpected => ?_⟩
  · exact (Machine.find_of_run hends hs.depth (consume_eq_ok.1 hconsume).2.1).1
  · exact List.not_mem_nil (mem_expected ht hs hconsume hexpected)

end Session

/-! ## Continuations -/

/-- **What has been shifted can be completed.**  Let a compiled grammar be productive,
and let a fresh session take some tokens, none of them the end of input.  All but fewer
than the bound have been shifted, and those are the beginning of an input that is
accepted.  If nothing is left in the buffer, or if what is left there belongs to such an
input, too, then the session itself can be completed; it has not accepted yet, and there
are symbols that it expects. -/
theorem Grammar.continuation_of_feed {fresh s : Session Nat (Trie Decision)}
    (hp : grammar.compile bound = .ok p) (hprod : p.productions.Productive)
    (htokens : ∀ token ∈ tokens, token.symbol ≠ .endOfInput)
    (hstart : Session.start p.table moves = .ok fresh)
    (hfeed : fresh.feed p.table moves tokens = .ok (s, .ok ())) :
    ∃ shifted, tokens = shifted ++ s.configuration.buffer ∧
      s.configuration.buffer.length ≤ bound - 1 ∧
      (∃ rest more after, Session.parse p.table more (shifted ++ rest) = .ok (after, .ok ())) ∧
      (s.configuration.buffer = [] ∨
          (∃ rest more after, Session.parse p.table more (tokens ++ rest) = .ok (after, .ok ())) →
        s.CanComplete p.table ∧ s.accepted = false ∧
          ∀ more, s.expected p.table more ≠ .ok []) := by
  obtain ⟨-, hcompiled⟩ := Grammar.compiled_of_compile hp
  obtain ⟨⟨trees, hs⟩, hsettled⟩ := Session.growth_of_feed hcompiled hstart hfeed
  have hbuffer := Session.length_buffer_le hcompiled hs hsettled
  rw [Grammar.bound_of_compile hp] at hbuffer
  obtain ⟨tree, rest, hsentence, hleaves⟩ := hs.grown.exists_sentence hcompiled.realises
    hcompiled.wellFormed hprod fun token htoken => htokens token (by
      rw [← hs.leaves]
      exact List.mem_append_left _ htoken)
  obtain ⟨least, after, -, hparse⟩ := hcompiled.parse_leaves hsentence
  have hcompleted : Session.parse p.table least (Tree.leavesOfAll trees.reverse ++ rest) =
      .ok (after, .ok ()) := by
    rw [← hleaves]
    exact hparse least (Nat.le_refl least)
  refine ⟨Tree.leavesOfAll trees.reverse, hs.leaves.symm, hbuffer, ⟨rest, least, after, hcompleted⟩,
    fun h => ?_⟩
  obtain ⟨rest', more, after', hparse'⟩ :
      ∃ rest more after, Session.parse p.table more (tokens ++ rest) = .ok (after, .ok ()) := by
    rcases h with hempty | h
    · have hall := hs.leaves
      rw [hempty, List.append_nil] at hall
      exact ⟨rest, least, after, hall ▸ hcompleted⟩
    · exact h
  obtain ⟨fed, hfed, hend⟩ := Session.feed_rest_of_parse hstart hfeed hparse'
  have hcomplete : s.CanComplete p.table := ⟨rest', max moves more, fed, after', hfed, hend⟩
  exact ⟨hcomplete, hcomplete.expects p.lists hsettled⟩

/-! ## A symbol of another context -/

/-- A grammar with two contexts, in which the same symbol has to be reduced in two
ways.  Behind the first context the terminal `3` follows either way, and the terminal
behind it decides; behind the second the terminals `6` and `7` decide at once. -/
def Grammar.contexts : Grammar where
  start := .nonTerminal 0
  rules :=
    [⟨.nonTerminal 0, [.symbol (.terminal 0), .symbol (.nonTerminal 1), .symbol (.terminal 3),
        .symbol (.terminal 4)], 0, false⟩,
      ⟨.nonTerminal 0, [.symbol (.terminal 0), .symbol (.nonTerminal 2), .symbol (.terminal 3),
        .symbol (.terminal 5)], 0, false⟩,
      ⟨.nonTerminal 0, [.symbol (.terminal 1), .symbol (.nonTerminal 1), .symbol (.terminal 6)],
        0, false⟩,
      ⟨.nonTerminal 0, [.symbol (.terminal 1), .symbol (.nonTerminal 2), .symbol (.terminal 7)],
        0, false⟩,
      ⟨.nonTerminal 1, [.symbol (.terminal 2)], 0, false⟩,
      ⟨.nonTerminal 2, [.symbol (.terminal 2)], 0, false⟩]
  priorities := []

/-- Whether a session takes some tokens, keeps given ones of them in its buffer, does not
accept yet and then expects given symbols. -/
def Session.goesOn (p : Parser) (moves : Nat) (tokens buffered : List Token)
    (symbols : List Symbol) (s : Session Nat (Trie Decision)) : Bool :=
  s.takes p moves tokens fun fed => yields (fed.expected p.table moves) fun expected =>
    fed.configuration.buffer == buffered && !fed.accepted && expected == symbols

theorem Session.exists_of_goesOn {buffered : List Token} {symbols : List Symbol}
    {fresh : Session Nat (Trie Decision)}
    (h : goesOn p moves tokens buffered symbols fresh = true) :
    ∃ s, fresh.feed p.table moves tokens = .ok (s, .ok ()) ∧ s.configuration.buffer = buffered ∧
      s.accepted = false ∧ s.expected p.table moves = .ok symbols := by
  obtain ⟨s, hfeed, h⟩ := exists_of_takes h
  obtain ⟨expected, hexpected, h⟩ := exists_of_yields h
  simp only [Bool.and_eq_true, Bool.not_eq_true', beq_iff_eq] at h
  obtain ⟨⟨hbuffer, hacc⟩, rfl⟩ := h
  exact ⟨s, hfeed, hbuffer, hacc, hexpected⟩

/-- In the second context the symbol that is reduced in two ways has been shifted, and
nothing has been looked at yet. -/
theorem Grammar.continuation_of_feed_contexts : ∃ p fresh s, contexts.compile 2 = .ok p ∧
    p.productions.Productive ∧ Session.start p.table 9 = .ok fresh ∧
    fresh.feed p.table 9 [⟨.terminal 1, 0⟩, ⟨.terminal 2, 1⟩] = .ok (s, .ok ()) ∧
    s.configuration.buffer = [] ∧ s.CanComplete p.table ∧ s.accepted = false ∧
    ∀ more, s.expected p.table more ≠ .ok [] := by
  obtain ⟨p, fresh, hp, hstart, htest⟩ := exists_of_passes
    (show contexts.passes 2 9 (fun p s => p.productions.fillsAll 3 && s.goesOn p 9
      [⟨.terminal 1, 0⟩, ⟨.terminal 2, 1⟩] [] [.terminal 3, .terminal 6, .terminal 7]) = true by
      decide +kernel)
  rw [Bool.and_eq_true] at htest
  have hprod := Productions.productive_of_fillsAll htest.1
  obtain ⟨s, hfeed, hbuffer, -, -⟩ := Session.exists_of_goesOn htest.2
  obtain ⟨shifted, -, -, -, hgoesOn⟩ := continuation_of_feed hp hprod (by decide) hstart hfeed
  exact ⟨p, fresh, s, hp, hprod, hstart, hfeed, hbuffer, hgoesOn (.inl hbuffer)⟩

/-- The terminal `3` is then taken, since it is possible behind the first context.  It
stays in the buffer, and is a dead end. -/
theorem Grammar.not_canComplete_contexts : ∃ p fresh s, contexts.compile 2 = .ok p ∧
    p.productions.Productive ∧ Session.start p.table 9 = .ok fresh ∧
    fresh.feed p.table 9 [⟨.terminal 1, 0⟩, ⟨.terminal 2, 1⟩, ⟨.terminal 3, 2⟩] =
      .ok (s, .ok ()) ∧
    s.configuration.buffer = [⟨.terminal 3, 2⟩] ∧ ¬ s.CanComplete p.table ∧ s.accepted = false ∧
    s.expected p.table 9 = .ok [] := by
  obtain ⟨p, fresh, hp, hstart, htest⟩ := exists_of_passes
    (show contexts.passes 2 9 (fun p s => p.productions.fillsAll 3 && s.goesOn p 9
      [⟨.terminal 1, 0⟩, ⟨.terminal 2, 1⟩, ⟨.terminal 3, 2⟩] [⟨.terminal 3, 2⟩] []) = true by
      decide +kernel)
  rw [Bool.and_eq_true] at htest
  have hprod := Productions.productive_of_fillsAll htest.1
  obtain ⟨s, hfeed, hbuffer, hacc, hexpected⟩ := Session.exists_of_goesOn htest.2
  refine ⟨p, fresh, s, hp, hprod, hstart, hfeed, hbuffer, fun hcomplete => ?_, hacc, hexpected⟩
  obtain ⟨-, hsettled⟩ := Session.growth_of_feed (compiled_of_compile hp).2 hstart hfeed
  exact (hcomplete.expects p.lists hsettled).2 9 hexpected

end BoundedLR
