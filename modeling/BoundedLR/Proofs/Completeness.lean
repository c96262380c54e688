import BoundedLR.Proofs.CorrectRuns
import BoundedLR.Proofs.Operations
import BoundedLR.Proofs.RecordedTrees
import BoundedLR.Proofs.Soundness

/-!
# Every sentence is parsed, and parsed in one way

The turns of a sentence are a course for the machine, so it takes the tokens of the
sentence one after the other, and then the end of input.  `Tree.assemble` says what
the turns build: carried out on an empty stack they build the sentence, so what has
been recorded at the end is the trace of this very tree.

The trace of a sentence determines the sentence (`Productions.Fits.rebuild_trace`).
Since a parser only ever gives one answer, a grammar that compiles has no two
sentences with the same leaves.
-/

namespace BoundedLR

variable {p : Parser} {g : Productions} {start : Symbol}

namespace Tree

/-! ## Building trees -/

/-- Builds trees on top of others, as the turns demand, taking the leaves from a
list of tokens. -/
def assemble (g : Productions) : List (Tree Nat) → List Turn → List Token → List (Tree Nat)
  | trees, [], _ => trees
  | trees, .shift _ :: turns, token :: tokens => assemble g (.leaf token :: trees) turns tokens
  | trees, .shift _ :: _, [] => trees
  | trees, .reduce q :: turns, tokens =>
    assemble g (.node q (trees.take (g.length q)).reverse :: trees.drop (g.length q)) turns tokens

/-- Builds trees on top of others, as the steps of a parse say. -/
def rebuild : List (Tree Nat) → List Step → List (Tree Nat)
  | trees, [] => trees
  | trees, .shift s i _ :: steps => rebuild (.leaf ⟨s, i⟩ :: trees) steps
  | trees, .predict _ _ _ :: steps => rebuild trees steps
  | trees, .reduce _ _ rule count _ :: steps =>
    rebuild (.node (productionOfRule rule) (trees.take count).reverse :: trees.drop count) steps

/-- The topmost trees of a stack, put under a new node. -/
theorem take_drop_children {children : List (Tree Nat)} {count : Nat}
    (h : children.length = count) (trees : List (Tree Nat)) :
    ((children.reverse ++ trees).take count).reverse = children ∧
      (children.reverse ++ trees).drop count = trees := by
  subst h
  rw [← List.length_reverse, List.take_left, List.drop_left, List.reverse_reverse]
  exact ⟨rfl, rfl⟩

/-- What builds each of some neighbouring trees builds all of them. -/
theorem assemble_children {children : List (Tree Nat)}
    (h : ∀ t ∈ children, ∀ trees turns tokens,
      assemble g trees (t.turns ++ turns) (t.leaves ++ tokens) =
        assemble g (t :: trees) turns tokens)
    (trees : List (Tree Nat)) (turns : List Turn) (tokens : List Token) :
    assemble g trees (turnsOfAll children ++ turns) (leavesOfAll children ++ tokens) =
      assemble g (children.reverse ++ trees) turns tokens := by
  induction children generalizing trees with
  | nil => rfl
  | cons t children ih =>
      rw [turnsOfAll, leavesOfAll, List.append_assoc, List.append_assoc, h t List.mem_cons_self,
        ih (fun u hu => h u (List.mem_cons_of_mem _ hu)), List.reverse_cons, List.append_assoc]
      rfl

theorem rebuild_children {property : Nat → ReductionProperty} {children : List (Tree Nat)}
    (h : ∀ t ∈ children, ∀ trees steps,
      rebuild trees (t.trace property ++ steps) = rebuild (t :: trees) steps)
    (trees : List (Tree Nat)) (steps : List Step) :
    rebuild trees (traceOfAll property children ++ steps) =
      rebuild (children.reverse ++ trees) steps := by
  induction children generalizing trees with
  | nil => rfl
  | cons t children ih =>
      rw [traceOfAll, List.append_assoc, h t List.mem_cons_self,
        ih (fun u hu => h u (List.mem_cons_of_mem _ hu)), List.reverse_cons, List.append_assoc]
      rfl

end Tree

namespace Productions

/-- **The turns of a tree build the tree.** -/
theorem Fits.assemble_turns {q e : Nat} {t : Tree Nat} (h : g.Fits q e t) :
    ∀ trees turns tokens, Tree.assemble g trees (t.turns ++ turns) (t.leaves ++ tokens) =
      Tree.assemble g (t :: trees) turns tokens := by
  induction h with
  | token => exact fun _ _ _ => rfl
  | @production q e c slot children _ _ _ hlen _ ih =>
      intro trees turns tokens
      have hall : ∀ t ∈ children, ∀ trees turns tokens,
          Tree.assemble g trees (t.turns ++ turns) (t.leaves ++ tokens) =
            Tree.assemble g (t :: trees) turns tokens := by
        intro t ht
        obtain ⟨i, hi⟩ := List.mem_iff_getElem?.1 ht
        exact ih i t hi
      obtain ⟨htake, hdrop⟩ := Tree.take_drop_children hlen trees
      rw [Tree.turns, Tree.leaves, List.append_assoc, Tree.assemble_children hall,
        List.singleton_append, Tree.assemble, htake, hdrop]

/-- **The trace of a tree determines the tree.**  The end of input leaves no trace,
so it must not be a leaf. -/
theorem Fits.rebuild_trace (hg : g.WellFormed start) {q e : Nat} {t : Tree Nat}
    (h : g.Fits q e t) (hslot : q ≠ 0 ∨ e = 0) : ∀ trees steps,
      Tree.rebuild trees (t.trace g.property ++ steps) = Tree.rebuild (t :: trees) steps := by
  induction h with
  | @token q e slot token hs hsym _ =>
      intro trees steps
      have hne : token.symbol ≠ .endOfInput := by
        intro hend
        obtain ⟨hq, he⟩ := hg.eq_zero_of_slot?_endOfInput hs (hsym.symm.trans hend)
        rcases hslot with hne | hzero
        · exact hne hq
        · rw [hzero] at he
          cases he
      rw [Tree.trace, Tree.shiftStep, if_neg hne]
      rfl
  | @production q e c slot children hs hhead _ hlen _ ih =>
      intro trees steps
      have hc := hg.ne_zero_of_head?_slot hs hhead
      have hall : ∀ t ∈ children, ∀ trees steps,
          Tree.rebuild trees (t.trace g.property ++ steps) = Tree.rebuild (t :: trees) steps := by
        intro t ht
        obtain ⟨i, hi⟩ := List.mem_iff_getElem?.1 ht
        exact ih i t hi (.inl hc)
      obtain ⟨htake, hdrop⟩ := Tree.take_drop_children (Eq.refl children.length) trees
      have hrule : productionOfRule (g.property c).rule = c := by
        obtain ⟨production, hproduction, -⟩ := Option.map_eq_some_iff.1 hhead
        rw [property, hproduction]
        obtain ⟨d, rfl⟩ := Nat.exists_eq_succ_of_ne_zero hc
        rfl
      have hannounced : ∀ trees more,
          Tree.rebuild trees (Tree.announcement (g.property c) ++ more) =
            Tree.rebuild trees more := by
        intro trees more
        unfold Tree.announcement
        split <;> rfl
      rw [Tree.trace, List.append_assoc, List.append_assoc, hannounced, Tree.rebuild_children hall,
        List.singleton_append, Tree.rebuild, htake, hdrop, hrule]

theorem Sentence.eq_of_trace_eq (hg : g.WellFormed start) {t u : Tree Nat} (ht : g.Sentence t)
    (hu : g.Sentence u) (h : t.trace g.property = u.trace g.property) : t = u := by
  have htrace := Fits.rebuild_trace hg ht (.inr rfl) [] []
  rw [h, Fits.rebuild_trace hg hu (.inr rfl) [] []] at htrace
  exact ((List.cons.inj htrace).1).symm

end Productions

namespace Parser

variable {c c' : Configuration (Record Nat) (Trie Decision)} {turns turns' : List Turn}
  {ahead tokens : List Token} {result : List (Tree Nat)} {tree : Tree Nat}

/-! ## What is recorded on the way -/

/-- The record stands for trees that the turns to come turn into a given result. -/
def Records (p : Parser) (ahead : List Token) (result : List (Tree Nat))
    (c : Configuration (Record Nat) (Trie Decision)) (turns : List Turn) : Prop :=
  ∃ trees, c.stack.Traces p.productions.property trees ∧
    Tree.assemble p.productions trees turns (c.buffer ++ ahead) = result

theorem Records.advances (h : p.Records ahead result c turns)
    (ha : p.Advances c turns c' turns') : p.Records ahead result c' turns' := by
  obtain ⟨trees, htraces, hresult⟩ := h
  cases ha with
  | look => exact ⟨trees, htraces, hresult⟩
  | @shift s turns token rest landing cursor hb =>
      rw [hb] at hresult
      exact ⟨_, htraces.shift token landing, hresult⟩
  | @reduce q last turns landing cursor hcount hpeek =>
      have hle : (p.productions.property q).count ≤ trees.length := by
        have hlt : (p.productions.property q).count < c.stack.entries.length := by
          by_contra hge
          rw [show StateStack.peek c.stack (p.productions.property q).count =
              (c.stack.entries[(p.productions.property q).count]?).map (·.node) from rfl,
            List.getElem?_eq_none (Nat.le_of_not_lt hge)] at hpeek
          cases hpeek
        rw [htraces.length_entries] at hlt
        exact Nat.le_of_lt_succ hlt
      refine ⟨_, htraces.reduce (Eq.refl (p.productions.property q)) hle landing, ?_⟩
      rw [hcount]
      exact hresult
  | accept => exact ⟨trees, ⟨htraces.length_entries, htraces.steps_eq, htraces.offset_eq⟩, hresult⟩

/-- A session in the middle of a sentence: whatever token closes the input, the
turns to come record the sentence. -/
def Parsing (p : Parser) (tree : Tree Nat) (tokens : List Token)
    (s : Session Nat (Trie Decision)) : Prop :=
  ∃ turns, p.OnCourse s.configuration turns (tokens.map (·.symbol) ++ [.endOfInput]) ∧
    ∀ closing, p.Records (tokens ++ [closing]) [.leaf closing, tree] s.configuration turns

/-! ## One token -/

/-- One more token in the buffer is one less ahead. -/
theorem OnCourse.withToken {σ : Type} [StateStack σ Nat] {c : Configuration σ (Trie Decision)}
    {s : Symbol} {ahead : List Symbol} (h : p.OnCourse c turns (s :: ahead)) (token : Token)
    (hs : token.symbol = s) : p.OnCourse (Session.withToken c token) turns ahead := by
  refine ⟨h.nodes, h.running, ?_, h.cursor, ?_⟩
  · rw [← h.word, Session.withToken, List.map_append, List.append_assoc, ← hs]
    rfl
  · rw [Session.withToken, List.length_append]
    exact Nat.le_add_right_of_le h.depth_le

/-- A dry run is on course if the record is. -/
theorem OnCourse.dryRun {ahead : List Symbol} (h : p.OnCourse c turns ahead) :
    p.OnCourse (Session.dryRun c) turns ahead := by
  obtain ⟨nodes, hshows, hcourse⟩ := h.nodes
  have hshows' := DryRun.shows_ofRecord hshows
  refine ⟨⟨nodes, hshows', hcourse⟩, h.running, h.word, fun top htop => ?_, h.depth_le⟩
  refine h.cursor top ?_
  rw [hshows 0, ← hshows' 0]
  exact htop

/-- **A token that comes next in a sentence is taken**, if only enough moves are
allowed. -/
theorem Compiled.consume_of_onCourse (hp : p.Compiled start) {s : Session Nat (Trie Decision)}
    {symbol : Symbol} {ahead : List Symbol}
    {Q : Configuration (Record Nat) (Trie Decision) → List Turn → Prop}
    (hQ : ∀ {c c' turns turns'}, p.Advances c turns c' turns' → Q c turns → Q c' turns')
    (h : p.OnCourse s.configuration turns (symbol :: ahead)) (token : Nat)
    (hq : Q (Session.withToken s.configuration ⟨symbol, token⟩) turns) :
    ∃ least after turns', (∀ moves, least ≤ moves →
        s.consume p.table moves symbol token = .ok (after, .ok ())) ∧
      Q after.configuration turns' ∧ ((p.OnCourse after.configuration turns' ahead ∧ ahead ≠ []) ∨
        (turns' = [] ∧ after.accepted = true ∧ after.configuration.buffer = [] ∧ ahead = [])) := by
  obtain ⟨dry, d, -, hdry, -, -⟩ := OnCourse.run hp (Q := fun _ _ => True) (fun _ _ => trivial) _ _
    (h.dryRun.withToken ⟨symbol, s.next⟩ rfl) trivial
  obtain ⟨moves, c', turns', hrun, hq', hend⟩ := OnCourse.run hp hQ _ _
    (h.withToken ⟨symbol, token⟩ rfl) hq
  refine ⟨max dry moves, ⟨c', nextTokenIndex token⟩, turns', fun m hm => ?_, hq', hend⟩
  exact Session.consume_eq_ok.2 ⟨⟨d, Machine.run_mono (by omega) hdry⟩,
    Machine.run_mono (by omega) hrun, rfl⟩

/-! ## All tokens -/

/-- **The tokens of a sentence are taken.** -/
theorem Compiled.feed_of_parsing (hp : p.Compiled start) {s : Session Nat (Trie Decision)}
    (h : p.Parsing tree tokens s) : ∃ least after, (∀ moves, least ≤ moves →
      s.feed p.table moves tokens = .ok (after, .ok ())) ∧ p.Parsing tree [] after := by
  induction tokens generalizing s with
  | nil => exact ⟨0, s, fun _ _ => rfl, h⟩
  | cons token rest ih =>
      obtain ⟨turns, hcourse, hrecords⟩ := h
      obtain ⟨first, after, turns', hconsume, hrecords', hend⟩ := hp.consume_of_onCourse
        (Q := fun c turns => ∀ closing, p.Records (rest ++ [closing]) [.leaf closing, tree] c turns)
        (fun ha hq closing => (hq closing).advances ha) hcourse token.index
        (fun closing => by
          obtain ⟨trees, htraces, hresult⟩ := hrecords closing
          refine ⟨trees, htraces, ?_⟩
          rw [Session.withToken, List.append_assoc]
          exact hresult)
      have hcourse' : p.OnCourse after.configuration turns'
          (rest.map (·.symbol) ++ [.endOfInput]) := by
        rcases hend with ⟨hcourse', -⟩ | ⟨-, -, -, hnil⟩
        · exact hcourse'
        · exact absurd hnil (List.append_ne_nil_of_right_ne_nil _ (List.cons_ne_nil _ _))
      obtain ⟨least, last, hfeed, hlast⟩ := ih ⟨turns', hcourse', hrecords'⟩
      refine ⟨max first least, last, fun moves hm => ?_, hlast⟩
      rw [Session.feed, hconsume moves (by omega), ok_bind]
      exact hfeed moves (by omega)

/-- **The end of input is taken** behind the tokens of a sentence, and the steps are
the trace of the sentence. -/
theorem Compiled.endOfInput_of_parsing (hp : p.Compiled start) {s : Session Nat (Trie Decision)}
    (h : p.Parsing tree [] s) : ∃ least after, (∀ moves, least ≤ moves →
      s.endOfInput p.table moves = .ok (after, .ok ())) ∧
      after.steps.map Step.unflagged = tree.trace p.productions.property := by
  obtain ⟨turns, hcourse, hrecords⟩ := h
  obtain ⟨least, after, turns', hconsume, ⟨trees, htraces, hresult⟩, hend⟩ :=
    hp.consume_of_onCourse (Q := p.Records [] [.leaf ⟨.endOfInput, s.next⟩, tree])
      (fun ha hq => hq.advances ha) hcourse s.next
      (by
        obtain ⟨trees, htraces, hresult⟩ := hrecords ⟨.endOfInput, s.next⟩
        refine ⟨trees, htraces, ?_⟩
        rw [Session.withToken, List.append_assoc]
        exact hresult)
  rcases hend with ⟨-, hne⟩ | ⟨rfl, haccepted, -, -⟩
  · exact absurd rfl hne
  · refine ⟨least, after, fun moves hm => ?_, ?_⟩
    · exact Session.endOfInput_eq_ok.2 ⟨hconsume moves hm, haccepted⟩
    · rw [Tree.assemble] at hresult
      have hsteps := htraces.steps_eq
      rw [hresult, Tree.stackedTrace_cons, Tree.stackedTrace_cons, Tree.trace, Tree.shiftStep,
        if_pos rfl, List.append_nil] at hsteps
      exact hsteps

/-- A fresh session is ready for any sentence. -/
theorem Compiled.start_of_sentence (hp : p.Compiled start) (h : p.productions.Sentence tree) :
    ∃ least s, (∀ moves, least ≤ moves → Session.start p.table moves = .ok s) ∧
      p.Parsing tree tree.leaves s := by
  obtain ⟨root, hroot⟩ := hp.exists_root hp.realises.count_pos
  obtain ⟨top, stack, hrun, htop⟩ := h.follows hp.realises hp.wellFormed
  have hword : Turn.word (tree.turns ++ [.shift .endOfInput]) =
      tree.leaves.map (·.symbol) ++ [.endOfInput] := by
    rw [Turn.word_append, Tree.word_turns]
    rfl
  have hcourse : p.OnCourse (⟨Record.start 0, [], ⟨root, 0⟩⟩ : Configuration (Record Nat) _)
      (tree.turns ++ [.shift .endOfInput]) (tree.leaves.map (·.symbol) ++ [.endOfInput]) := by
    refine ⟨⟨[0], Record.shows _, .start, ⟨top, stack, hrun, htop⟩,
      fun _ => List.getLast?_concat⟩, rfl, hword.symm, fun n hn => ?_, Nat.le_refl _⟩
    cases hn
    exact .root hroot
  obtain ⟨least, c, turns, hmoves, hrecords, hend⟩ := OnCourse.run hp
    (Q := fun c turns => ∀ closing,
      p.Records (tree.leaves ++ [closing]) [.leaf closing, tree] c turns)
    (fun ha hq closing => (hq closing).advances ha) _ _ hcourse (fun closing =>
      ⟨[], .start _ _, Productions.Fits.assemble_turns h [] [.shift .endOfInput] [closing]⟩)
  rcases hend with ⟨hcourse', -⟩ | ⟨-, -, -, hnil⟩
  · refine ⟨least, ⟨c, 0⟩, fun moves hm => ?_, turns, hcourse', hrecords⟩
    exact Session.start_eq_ok.2 ⟨rfl, root, none, hroot, Machine.run_mono hm hmoves⟩
  · exact absurd hnil (List.append_ne_nil_of_right_ne_nil _ (List.cons_ne_nil _ _))

/-- A sentence is parsed, if only enough moves are allowed. -/
theorem Compiled.parse_leaves (hp : p.Compiled start) (h : p.productions.Sentence tree) :
    ∃ least s, s.steps.map Step.unflagged = tree.trace p.productions.property ∧
      ∀ moves, least ≤ moves → Session.parse p.table moves tree.leaves = .ok (s, .ok ()) := by
  obtain ⟨first, s, hstart, hparsing⟩ := hp.start_of_sentence h
  obtain ⟨second, fed, hfeed, hfed⟩ := hp.feed_of_parsing hparsing
  obtain ⟨third, after, hend, hsteps⟩ := hp.endOfInput_of_parsing hfed
  refine ⟨max first (max second third), after, hsteps, fun moves hm => ?_⟩
  rw [Session.parse, hstart moves (by omega), ok_bind, hfeed moves (by omega), ok_bind]
  exact hend moves (by omega)

end Parser

/-! ## Completeness -/

/-- **Completeness and unambiguity.**  A parser compiled from a grammar takes the
leaves of every derivation tree and then the end of input, and records the trace of
this very tree; the number of moves only has to be large enough.  So no two
derivation trees of the grammar have the same leaves. -/
theorem Grammar.parse_of_sentence {grammar : Grammar} {bound : Nat}
    (hp : grammar.compile bound = .ok p) :
    grammar.normalize = .ok p.productions ∧
    (∀ tree, p.productions.Sentence tree → ∃ least s,
      s.steps.map Step.unflagged = tree.trace p.productions.property ∧
      ∀ moves, least ≤ moves → Session.parse p.table moves tree.leaves = .ok (s, .ok ())) ∧
    ∀ tree other, p.productions.Sentence tree → p.productions.Sentence other →
      tree.leaves = other.leaves → tree = other := by
  obtain ⟨hnormal, hcompiled⟩ := Grammar.compiled_of_compile hp
  refine ⟨hnormal, fun tree h => hcompiled.parse_leaves h, fun tree other h h' heq => ?_⟩
  obtain ⟨least, s, hsteps, hparse⟩ := hcompiled.parse_leaves h
  obtain ⟨least', s', hsteps', hparse'⟩ := hcompiled.parse_leaves h'
  have hs := hparse (max least least') (by omega)
  rw [heq, hparse' _ (by omega), Except.ok.injEq, Prod.mk.injEq] at hs
  refine h.eq_of_trace_eq hcompiled.wellFormed h' ?_
  rw [← hsteps, ← hsteps', hs.1]

/-- The forked grammar compiles, so its sentences are parsed in one way. -/
theorem Grammar.parse_of_sentence_forked : ∃ p, Grammar.forked.compile 1 = .ok p ∧
    Grammar.forked.normalize = .ok p.productions ∧
    (∀ tree, p.productions.Sentence tree → ∃ least s,
      s.steps.map Step.unflagged = tree.trace p.productions.property ∧
      ∀ moves, least ≤ moves → Session.parse p.table moves tree.leaves = .ok (s, .ok ())) ∧
    ∀ tree other, p.productions.Sentence tree → p.productions.Sentence other →
      tree.leaves = other.leaves → tree = other := by
  obtain ⟨p, -, hp, -⟩ := Grammar.exists_of_parses
    (show Grammar.forked.parses 1 9 [⟨.terminal 2, 0⟩, ⟨.terminal 0, 1⟩] = true by decide +kernel)
  exact ⟨p, hp, Grammar.parse_of_sentence hp⟩

end BoundedLR
