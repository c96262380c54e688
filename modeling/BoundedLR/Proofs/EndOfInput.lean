import BoundedLR.Proofs.ReturningSessions
import BoundedLR.Proofs.Streaming
import BoundedLR.Proofs.Suggestions
import BoundedLR.Proofs.ValidPrefixes

/-!
# The end of input

The end of input is a token like any other as far as the machine is concerned: it is tried
out, it may have to be looked at before an action is settled, and it is shifted.  What sets
it apart is that it stands in one slot only, the last of the synthetic production.  Three
things follow for a compiled grammar.

* No trie has a level below the end of input, so it is never left in the buffer.
* Once it has been shifted, the state on top of the stack can do nothing but accept, and it
  does so without looking at the input.  A machine that takes the end of input therefore
  does not wait before it has accepted.
* A machine accepts on a stack of a sentence and the end of input, so it has taken the end
  of input last.

`AcceptsAtEnd` is what a table has to satisfy for sessions to come out accordingly.  It is
about sessions alone, so it carries over from a compiled grammar to the words it is stored
as.  That the end of input is taken entirely or not at all, and that nothing can be taken
behind it, follows for any table that has the property
(`Session.allOrNothing_of_acceptsAtEnd`).
-/

namespace BoundedLR

open Machine Session

variable {p : Parser} {start : Symbol} {moves : Nat}

/-! ## Where the end of input stands -/

/-- Only a tree of the synthetic production has the end of input among its leaves. -/
theorem Productions.WellFormed.eq_zero_of_endOfInput_mem {g : Productions} (hg : g.WellFormed start)
    {q e : Nat} {t : Tree Nat} (h : g.Fits q e t) {token : Token} (hmem : token ∈ t.leaves)
    (hend : token.symbol = .endOfInput) : q = 0 := by
  induction h with
  | token hs hsym _ =>
      simp only [Tree.leaves, List.mem_singleton] at hmem
      subst hmem
      exact (hg.eq_zero_of_slot?_endOfInput hs (hsym.symm.trans hend)).1
  | production hs hh _ _ _ ih =>
      rw [Tree.leaves, Tree.leavesOfAll_eq_flatMap, List.mem_flatMap] at hmem
      obtain ⟨child, hchild, hmem⟩ := hmem
      obtain ⟨i, hi⟩ := List.getElem?_of_mem hchild
      exact absurd (ih i child hi hmem) (hg.ne_zero_of_head?_slot hs hh)

namespace Automaton

variable {a : Automaton} {g : Productions} {n m : Nat} {t : Tree Nat}

/-- The edge on the end of input leads to the state that accepts. -/
theorem Realises.accepts_of_edge (ha : a.Realises g) (hg : g.WellFormed start) {e : Edge}
    (he : e ∈ a.edges n) (hs : e.symbol = .endOfInput) : (⟨0, 2⟩ : Item) ∈ a.items e.target := by
  obtain ⟨⟨q, d⟩, hi, hnext⟩ := ha.exists_item he
  rw [hs] at hnext
  obtain ⟨slot, hslot, hsymbol⟩ := Option.map_eq_some_iff.1 hnext
  obtain ⟨rfl, rfl⟩ := hg.eq_zero_of_slot?_endOfInput hslot hsymbol
  obtain ⟨e', he', hs', hk⟩ := ha.shift_spec hi hnext rfl
  have hsame : e'.target = e.target :=
    ha.target_eq_of_terminal he he' (hs'.trans hs.symm) (by rw [hs]; rfl)
  exact ha.kernel_subset (ha.target_lt he) (hsame ▸ hk)

/-- A tree with the end of input among its leaves is the end of input, and leads to the
state that accepts. -/
theorem Leads.accepts (ha : a.Realises g) (hg : g.WellFormed start) (h : a.Leads g n t m)
    {token : Token} (hmem : token ∈ t.leaves) (hend : token.symbol = .endOfInput) :
    (⟨0, 2⟩ : Item) ∈ a.items m := by
  cases h with
  | token he hes _ =>
      simp only [Tree.leaves, List.mem_singleton] at hmem
      subst hmem
      exact ha.accepts_of_edge hg he (hes.trans hend)
  | production he hes _ hh _ _ hfits =>
      rw [Tree.leaves, Tree.leavesOfAll_eq_flatMap, List.mem_flatMap] at hmem
      obtain ⟨child, hchild, hmem⟩ := hmem
      obtain ⟨i, hi⟩ := List.getElem?_of_mem hchild
      obtain rfl := hg.eq_zero_of_endOfInput_mem (hfits i child hi) hmem hend
      -- no edge is on the start marker, so the synthetic production leads nowhere
      obtain ⟨item, -, hnext⟩ := ha.exists_item he
      obtain ⟨slot, hslot, hsymbol⟩ := Option.map_eq_some_iff.1 hnext
      rw [hg.head?_zero, Option.some.injEq] at hh
      exact absurd (hsymbol.trans (hes.trans hh.symm)) (hg.symbol_ne_start hslot)

/-- **The end of input is on top** wherever it is: nothing can be put on it. -/
theorem Grown.accepts (ha : a.Realises g) (hg : g.WellFormed start) {top : Nat} {stack : List Nat}
    {trees : List (Tree Nat)} (h : a.Grown g (top :: stack) trees) {token : Token}
    (hmem : token ∈ Tree.leavesOfAll trees) (hend : token.symbol = .endOfInput) :
    (⟨0, 2⟩ : Item) ∈ a.items top := by
  generalize hfull : top :: stack = full at h
  induction h generalizing top stack with
  | start => simp [Tree.leavesOfAll] at hmem
  | @push n m below t trees hgrown hleads ih =>
      obtain ⟨rfl, -⟩ := List.cons.inj hfull
      rw [Tree.leavesOfAll, List.mem_append] at hmem
      rcases hmem with htop | hbelow
      · exact hleads.accepts ha hg htop hend
      · obtain ⟨e, he, -⟩ := hleads.exists_edge
        have hnone := ha.edges_of_accepting hg (ih hbelow rfl) hgrown.path
        rw [hnone] at he
        exact absurd he List.not_mem_nil

end Automaton

/-- **No node looks past the end of input.** -/
theorem Parser.Compiled.endOfInput_notMem_of_walk (hp : p.Compiled start) {n : Nat}
    {word : List Symbol} {root level : Trie Decision} (hroot : p.table.root n = .ok root)
    (hw : root.walk word = some level) : .endOfInput ∉ word := by
  obtain ⟨node, -, hfor, rfl⟩ := hp.root_eq_ok hroot
  cases hfor with
  | reduces _ _ _ hdone =>
      rw [hdone] at hw
      cases word with
      | nil => exact List.not_mem_nil
      | cons s word => cases hw
  | shifts _ _ htrie =>
      rw [htrie] at hw
      rw [eq_nil_of_walk_shiftTrie hw]
      exact List.not_mem_nil
  | settled _ _ hsettle =>
      obtain ⟨levels, found, -, -, hsplit⟩ := Contest.settle_eq_ok hsettle
      exact Contest.endOfInput_notMem_of_walk hsplit hw

/-! ## Recorded trees -/

section Recorded

variable {taken : List Token} {c : Configuration (Record Nat) (Trie Decision)}
  {trees : List (Tree Nat)}

/-- The end of input is not among the tokens that have been looked at. -/
theorem Parser.Growth.endOfInput_notMem (hp : p.Compiled start) (hs : p.Growth taken c trees)
    (hdepth : c.cursor.depth = c.buffer.length) : .endOfInput ∉ c.buffer.map (·.symbol) := by
  obtain ⟨top, below, -, htop⟩ := hs.exists_top
  obtain ⟨root, hroot, hwalk⟩ := hs.cursor top htop
  rw [hdepth, List.take_length] at hwalk
  exact hp.endOfInput_notMem_of_walk hroot hwalk

/-- A machine that waits has looked at all of its buffer. -/
theorem Parser.Growth.depth_eq (hs : p.Growth taken c trees) (hw : step p.table c = .ok .waiting) :
    c.cursor.depth = c.buffer.length :=
  Nat.le_antisymm hs.depth_le (length_le_of_waiting hw)

/-- A machine that has accepted only waits if nothing is left. -/
theorem Machine.buffer_of_accepted {Node Level : Type} {t : ParseTable Node Level}
    {c : Configuration (Record Node) Level} (hacc : c.stack.accepted = true)
    (hw : step t c = .ok .waiting) : c.buffer = [] := by
  rw [step_of_accepted hacc] at hw
  split at hw
  · rename_i hempty
    exact List.isEmpty_iff.1 hempty
  · cases hw

/-- **A machine that waits after a token has accepted** if and only if the token is the end
of input. -/
theorem Parser.Growth.accepted_iff (hp : p.Compiled start) {token : Token}
    (hs : p.Growth (taken ++ [token]) c trees) (hw : step p.table c = .ok .waiting) :
    c.stack.accepted = true ↔ token.symbol = .endOfInput := by
  constructor
  · intro hacc
    obtain ⟨tree, last, rfl, -, hlast⟩ := hs.accepted hacc
    have hleaves := hs.leaves
    rw [buffer_of_accepted hacc hw, List.append_nil, List.reverse_cons, Tree.leavesOfAll_append]
      at hleaves
    obtain ⟨-, heq⟩ := List.append_inj' hleaves rfl
    rw [← (List.cons.inj heq).1]
    exact hlast
  · intro hend
    by_contra hrunning
    -- the end of input has been looked at and is not in the buffer, so it is on the stack
    have hmem : token ∈ Tree.leavesOfAll trees.reverse ++ c.buffer := by
      rw [hs.leaves]
      exact List.mem_append_right _ List.mem_cons_self
    have hbuffered : token ∉ c.buffer := fun h =>
      hs.endOfInput_notMem hp (hs.depth_eq hw) (hend ▸ List.mem_map_of_mem h)
    have hleaf : token ∈ Tree.leavesOfAll trees := by
      have h := (List.mem_append.1 hmem).resolve_right hbuffered
      rw [Tree.leavesOfAll_eq_flatMap, List.mem_flatMap] at h ⊢
      simpa only [List.mem_reverse] using h
    obtain ⟨top, below, hnodes, htop⟩ := hs.exists_top
    have hgrown := hs.grown
    rw [hnodes] at hgrown
    have hitem := hgrown.accepts hp.realises hp.wellFormed hleaf hend
    rw [← hp.wellFormed.length_zero] at hitem
    obtain ⟨halways, hdone, -⟩ := hp.always_of_accepting hitem hgrown.path
    have hdepth : c.cursor.depth = 0 := by
      obtain ⟨root, hroot, hwalk⟩ := hs.cursor top htop
      rw [Except.ok.inj (hroot.symm.trans hdone), hs.depth_eq hw, List.take_length] at hwalk
      rw [hs.depth_eq hw]
      cases hb : c.buffer with
      | nil => rfl
      | cons next rest =>
          rw [hb] at hwalk
          cases hwalk
    rw [step_of_consults (Bool.eq_false_iff.2 hrunning) htop (.always hdepth halways)] at hw
    exact perform_ne_waiting hw

end Recorded

/-! ## Tables that accept at the end -/

/-- The sessions on a table accept when they take the end of input and at no other time,
and they do not leave it in the buffer. -/
structure ParseTable.AcceptsAtEnd {Node Level : Type} (t : ParseTable Node Level) : Prop where
  fresh : ∀ {moves s}, Session.start t moves = .ok s → s.accepted = false
  unbuffered : ∀ {moves s}, Reachable t moves s →
    .endOfInput ∉ s.configuration.buffer.map (·.symbol)
  accepted_iff : ∀ {reached moves s after symbol token}, Reachable t reached s →
    s.consume t moves symbol token = .ok (after, .ok ()) →
    (after.accepted = true ↔ symbol = .endOfInput)

/-- **Compiled grammars accept at the end.** -/
theorem Parser.Compiled.acceptsAtEnd (hp : p.Compiled start) : p.table.AcceptsAtEnd where
  fresh {moves s} h := by
    obtain ⟨-, root, stall, hroot, hrun⟩ := start_eq_ok.1 h
    obtain ⟨⟨trees, hs⟩, -⟩ := hp.growth_run ⟨[], growth_start hroot⟩ hrun
    refine Bool.eq_false_iff.2 fun hacc => ?_
    obtain ⟨tree, last, rfl, -, -⟩ := hs.accepted hacc
    have hleaves := hs.leaves
    simp [Tree.leavesOfAll, Tree.leaves] at hleaves
  unbuffered {moves s} h := by
    obtain ⟨taken, d, trees, hs, hstep⟩ := hp.shadows_of_reachable h
    rw [hstep.symbols]
    refine hs.endOfInput_notMem hp ?_
    rw [← hstep.cursor, (settled_of_reachable h).depth, ← List.length_map (·.symbol),
      hstep.symbols, List.length_map]
  accepted_iff {reached moves s after symbol token} h hconsume := by
    obtain ⟨taken, d, trees, hs, hstep⟩ := hp.shadows_of_reachable h
    obtain ⟨-, hrun, -⟩ := consume_eq_ok.1 hconsume
    obtain ⟨d', trees', hs', hend, hends⟩ := hp.growth_of_inStep (hs.withToken ⟨symbol, token⟩)
      (inStep_withToken hstep rfl) hrun
    cases hends with
    | waiting hw =>
        rw [← hs'.accepted_iff hp hw]
        exact Bool.eq_iff_iff.1 hend.isAccepted

/-- A session on one of two tables that correspond is alike to one on the other. -/
theorem Correspondence.exists_reachable {Node Level Node' Level' : Type} {F : Fault → Prop}
    {R : Correspondence Node Level Node' Level'} {t : ParseTable Node Level}
    {t' : ParseTable Node' Level'} (h : R.Respected F t t') {s' : Session Node' Level'}
    (hs' : Reachable t' moves s') : ∃ s, Reachable t moves s ∧ R.SessionsAlike s s' := by
  induction hs' with
  | start hstart =>
      obtain ⟨s, hs, halike⟩ := (start_alike h moves).exists_of_ok hstart
      exact ⟨s, .start hs, halike⟩
  | perform _ hnow ih =>
      obtain ⟨s, hs, halike⟩ := ih
      obtain ⟨⟨after, answer⟩, hperform, hafter, -⟩ :=
        (operation_alike h halike moves _).exists_of_ok hnow
      exact ⟨after, hs.perform hperform, hafter⟩

/-- **So do tables that correspond to them.** -/
theorem Correspondence.Respected.acceptsAtEnd {Node Level Node' Level' : Type} {F : Fault → Prop}
    {R : Correspondence Node Level Node' Level'} {t : ParseTable Node Level}
    {t' : ParseTable Node' Level'} (h : R.Respected F t t') (ht : t.AcceptsAtEnd) :
    t'.AcceptsAtEnd where
  fresh {moves s'} hstart := by
    obtain ⟨s, hs, halike⟩ := (start_alike h moves).exists_of_ok hstart
    exact halike.configuration.stack.accepted.symm.trans (ht.fresh hs)
  unbuffered {moves s'} hs' := by
    obtain ⟨s, hs, halike⟩ := exists_reachable h hs'
    rw [← halike.configuration.buffer]
    exact ht.unbuffered hs
  accepted_iff {reached moves s' after' symbol token} hs' hconsume' := by
    obtain ⟨s, hs, halike⟩ := exists_reachable h hs'
    obtain ⟨⟨after, answer⟩, hconsume, hafter, hanswer⟩ :=
      (consume_alike h halike moves symbol token).exists_of_ok hconsume'
    obtain rfl : answer = .ok () := hanswer
    rw [← ht.accepted_iff hs hconsume]
    exact Bool.eq_iff_iff.1 hafter.configuration.stack.accepted.symm

/-! ## All or nothing -/

namespace Session

variable {Node Level : Type} {t : ParseTable Node Level} {s after : Session Node Level}

/-- Taking the end of input is all or nothing, for every session that operations lead
to. -/
structure AllOrNothing (t : ParseTable Node Level) : Prop where
  /-- It succeeds exactly if the session accepts with it, and then nothing is left. -/
  succeeds_iff : ∀ {reached moves s after result}, Reachable t reached s →
    s.endOfInput t moves = .ok (after, result) →
    (result = .ok () ↔ after.accepted = true ∧ s.accepted = false)
  buffer_eq_nil : ∀ {reached moves s after}, Reachable t reached s →
    s.endOfInput t moves = .ok (after, .ok ()) → after.configuration.buffer = []
  /-- If it fails, it leaves the session as it was. -/
  unchanged : ∀ {reached moves s after rejection}, Reachable t reached s →
    s.endOfInput t moves = .ok (after, .error rejection) → after = s
  /-- The end of input is not left in the buffer: a session that takes it accepts. -/
  unbuffered : ∀ {moves s}, Reachable t moves s →
    ∀ token ∈ s.configuration.buffer, token.symbol ≠ .endOfInput
  accepts : ∀ {reached moves s after token}, Reachable t reached s →
    s.consume t moves .endOfInput token = .ok (after, .ok ()) → after.accepted = true
  /-- Nothing else makes a session accept. -/
  only : ∀ {reached moves s operation after answer}, Reachable t reached s →
    s.perform t moves operation = .ok (after, answer) → after.accepted = true →
    s.accepted = true ∨ operation = .endOfInput ∨ ∃ token, operation = .consume .endOfInput token
  fresh : ∀ {moves s}, Session.start t moves = .ok s → s.accepted = false
  /-- Once it has accepted, a session stays so until it is put back to its beginning, and
  rejects every token without expecting another. -/
  closed : ∀ {reached moves s operations after answers}, Reachable t reached s →
    s.accepted = true → .clear ∉ operations → s.play t moves operations = .ok (after, answers) →
    after.accepted = true ∧ ∀ more symbol token,
      after.consume t (more + 1) symbol token = .ok (after, .error ⟨symbol, token, []⟩)

/-- A session that has accepted rejects every token. -/
theorem consume_of_accepted (h : s.accepted = true) (more : Nat) (symbol : Symbol) (token : Nat) :
    s.consume t (more + 1) symbol token = .ok (s, .error ⟨symbol, token, []⟩) := by
  refine consume_of_not_wouldAccept ?_ ?_ token
  · have hstalled : run t (more + 1) (withToken (dryRun s.configuration) ⟨symbol, s.next⟩) =
        .ok (_, some .afterAcceptance) :=
      run_of_stalled (step_withToken_of_accepted (c := dryRun s.configuration) h)
    exact bind_eq_ok.2 ⟨_, hstalled, rfl⟩
  · rw [expected, if_pos h]
    rfl

/-- So it does not take any. -/
theorem running_of_consume {moves : Nat} {symbol : Symbol} {token : Nat}
    (h : s.consume t moves symbol token = .ok (after, .ok ())) : s.accepted = false := by
  refine Bool.eq_false_iff.2 fun hacc => ?_
  have hmore := consume_mono (Nat.le_succ moves) h
  rw [consume_of_accepted hacc] at hmore
  cases hmore

/-- A session that has accepted stays so under every operation but beginning anew. -/
theorem accepted_of_perform {moves : Nat} {operation : Operation} {answer : Answer}
    (hacc : s.accepted = true) (hop : operation ≠ .clear)
    (h : s.perform t moves operation = .ok (after, answer)) : after.accepted = true := by
  have hconsume : ∀ {symbol token next result},
      s.consume t moves symbol token = .ok (next, result) → next = s := by
    intro symbol token next result hconsume
    cases result with
    | error rejection => exact (eq_of_consume_eq_error hconsume).1
    | ok u => simp [running_of_consume hconsume] at hacc
  cases operation with
  | consume symbol token =>
      obtain ⟨⟨next, result⟩, htaken, h⟩ := bind_eq_ok.1 h
      cases Except.ok.inj h
      rw [hconsume htaken]
      exact hacc
  | endOfInput =>
      obtain ⟨⟨next, result⟩, hend, h⟩ := bind_eq_ok.1 h
      cases Except.ok.inj h
      obtain ⟨taken, htaken, -⟩ := exists_consume_of_endOfInput hend
      rw [hconsume htaken]
      exact hacc
  | clear => exact absurd rfl hop
  | clearSteps =>
      cases Except.ok.inj h
      exact hacc
  | expected =>
      obtain ⟨symbols, -, h⟩ := bind_eq_ok.1 h
      cases Except.ok.inj h
      exact hacc

/-- So it does under any sequence of them. -/
theorem accepted_of_play {moves : Nat} {operations : List Operation} {answers : List Answer}
    (hacc : s.accepted = true) (hops : .clear ∉ operations)
    (h : s.play t moves operations = .ok (after, answers)) : after.accepted = true := by
  induction operations generalizing s answers with
  | nil =>
      cases Except.ok.inj h
      exact hacc
  | cons operation rest ih =>
      rw [List.mem_cons, not_or] at hops
      obtain ⟨⟨next, answer⟩, hnow, h⟩ := bind_eq_ok.1 h
      obtain ⟨⟨last, later⟩, hplay, h⟩ := bind_eq_ok.1 h
      cases Except.ok.inj h
      exact ih (accepted_of_perform hacc (Ne.symm hops.1) hnow) hops.2 hplay

/-- **On a table that accepts at the end** taking the end of input is all or nothing. -/
theorem allOrNothing_of_acceptsAtEnd (ht : t.AcceptsAtEnd) : AllOrNothing t := by
  have hresult : ∀ {reached moves s after result}, Reachable t reached s →
      s.endOfInput t moves = .ok (after, result) →
      (result = .ok () ∧ after.accepted = true ∧ s.accepted = false) ∨
        (∃ rejection, result = .error rejection) ∧ after = s := by
    intro reached moves s after result hs h
    obtain ⟨answer, hconsume, herror⟩ := exists_consume_of_endOfInput h
    cases answer with
    | error rejection =>
        exact .inr ⟨⟨rejection, herror _ rfl⟩, (eq_of_consume_eq_error hconsume).1⟩
    | ok u =>
        have hacc := (ht.accepted_iff hs hconsume).2 rfl
        cases h.symm.trans (endOfInput_eq_ok.2 ⟨hconsume, hacc⟩)
        exact .inl ⟨rfl, hacc, running_of_consume hconsume⟩
  constructor
  case succeeds_iff =>
    intro reached moves s after result hs h
    rcases hresult hs h with ⟨rfl, hacc, hrunning⟩ | ⟨⟨rejection, rfl⟩, rfl⟩
    · exact iff_of_true rfl ⟨hacc, hrunning⟩
    · simp
  case buffer_eq_nil =>
    intro reached moves s after hs h
    obtain ⟨hconsume, hacc⟩ := endOfInput_eq_ok.1 h
    obtain ⟨-, hrun, -⟩ := consume_eq_ok.1 hconsume
    obtain ⟨-, hends⟩ := run_keeps (P := fun _ => True) (fun _ _ _ _ => trivial) trivial hrun
    cases hends with
    | waiting hw => exact buffer_of_accepted hacc hw
  case unchanged =>
    intro reached moves s after rejection hs h
    rcases hresult hs h with ⟨hok, -⟩ | ⟨-, rfl⟩
    · cases hok
    · rfl
  case unbuffered =>
    intro moves s hs token hmem hend
    exact ht.unbuffered hs (hend ▸ List.mem_map_of_mem hmem)
  case accepts => exact fun hs hconsume => (ht.accepted_iff hs hconsume).2 rfl
  case only =>
    intro reached moves s operation after answer hs h hacc
    cases operation with
    | consume symbol token =>
        obtain ⟨⟨next, result⟩, hconsume, h⟩ := bind_eq_ok.1 h
        cases Except.ok.inj h
        cases result with
        | error rejection => exact .inl ((eq_of_consume_eq_error hconsume).1 ▸ hacc)
        | ok u => exact .inr (.inr ⟨token, by rw [(ht.accepted_iff hs hconsume).1 hacc]⟩)
    | endOfInput => exact .inr (.inl rfl)
    | clear =>
        obtain ⟨fresh, hfresh, h⟩ := bind_eq_ok.1 h
        cases Except.ok.inj h
        simp [ht.fresh hfresh] at hacc
    | clearSteps =>
        cases Except.ok.inj h
        exact .inl hacc
    | expected =>
        obtain ⟨symbols, -, h⟩ := bind_eq_ok.1 h
        cases Except.ok.inj h
        exact .inl hacc
  case fresh => exact ht.fresh
  case closed =>
    intro reached moves s operations after answers hs hacc hops h
    have hafter := accepted_of_play hacc hops h
    exact ⟨hafter, consume_of_accepted hafter⟩

end Session

/-- **The end of input is all or nothing**, for a compiled grammar and for the tables that
it is stored as. -/
theorem Grammar.allOrNothing_of_compile {grammar : Grammar} {bound : Nat}
    (hp : grammar.compile bound = .ok p) : Session.AllOrNothing p.table ∧
      ∀ {w : Width} {b : Buffer} {t : Table}, p.toTable w = .ok b →
        Table.ofWords b.words = .ok t → Session.AllOrNothing t.table := by
  have haccepts : p.table.AcceptsAtEnd := (Grammar.compiled_of_compile hp).2.acceptsAtEnd
  refine ⟨allOrNothing_of_acceptsAtEnd haccepts, fun hb ht => ?_⟩
  obtain ⟨-, hrespected⟩ := Grammar.respected_of_toTable hp hb ht
  exact allOrNothing_of_acceptsAtEnd (hrespected.acceptsAtEnd haccepts)

/-- A sentence of the forked grammar: its session accepts with the end of input, and not
before. -/
theorem Grammar.allOrNothing_of_compile_forked : ∃ p b t fed s, forked.compile 1 = .ok p ∧
    p.toTable .bits16 = .ok b ∧ Table.ofWords b.words = .ok t ∧ Session.AllOrNothing p.table ∧
    Session.AllOrNothing t.table ∧ Reachable p.table 9 fed ∧
    fed.endOfInput p.table 9 = .ok (s, .ok ()) ∧ fed.accepted = false ∧ s.accepted = true ∧
    s.configuration.buffer = [] := by
  obtain ⟨p, b, hp, hb⟩ := exists_of_stores
    (show forked.stores 1 .bits16 = true by decide +kernel)
  obtain ⟨-, -, hcontains⟩ := contains_of_toTable hp hb
  have ht : Table.ofWords b.words = .ok ⟨b.words, _, Scan.header_eq_ok.2 ⟨_, hcontains⟩⟩ :=
    Table.ofWords_eq_ok.2 rfl
  obtain ⟨hparser, htable⟩ := allOrNothing_of_compile hp
  obtain ⟨p', s, hp', hparse⟩ := exists_of_parses
    (show forked.parses 1 9 [⟨.terminal 2, 0⟩, ⟨.terminal 0, 1⟩] = true by decide +kernel)
  cases hp.symm.trans hp'
  obtain ⟨fresh, fed, hstart, hfeed, hend⟩ := parse_eq_ok.1 hparse
  obtain ⟨first, hfirst, hfeed⟩ := feed_cons_eq_ok.1 hfeed
  obtain ⟨second, hsecond, hfeed⟩ := feed_cons_eq_ok.1 hfeed
  obtain rfl : second = fed := congrArg Prod.fst (Except.ok.inj hfeed)
  have hfed : Reachable p.table 9 second :=
    ((Reachable.start hstart).consume hfirst).consume hsecond
  obtain ⟨hacc, hrunning⟩ := (hparser.succeeds_iff hfed hend).1 rfl
  exact ⟨p, b, _, second, s, hp, hb, ht, hparser, htable hb ht, hfed, hend, hrunning, hacc,
    hparser.buffer_eq_nil hfed hend⟩

end BoundedLR
