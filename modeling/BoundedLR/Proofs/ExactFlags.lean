import Mathlib.Logic.Relation
import BoundedLR.Proofs.CompiledTries
import BoundedLR.Proofs.DelimitedSteps
import BoundedLR.Proofs.Streaming

/-!
# Flags that are set only where they have to be

A flag that is missing corrupts what is streamed, and one that is set without need stalls
it.  That no flag is missing is what `ParseTable.Foresees` asks for.  Here is the other
half, and what both together say about the stack.

`Grammar.AnnouncesAhead` says what a flag means, in terms of the rules that the author has
declared: somewhere ahead of the state, a state is reached that may reduce a rule which
asks for an announcement.  Every flag of a compiled grammar says so about the state that it
stands before, wherever the flag has been copied to (`Parser.FlagsExact`).

On the stack it follows that the provisional elements lie at the bottom, without a gap
(`Record.Layered`).  If an element is provisional, the node that it was pushed on was
marked at that time; so all elements below it were provisional already, and they have not
changed since.
-/

namespace BoundedLR

open Machine

/-! ## What a flag means -/

/-- One move of a parser: over a terminal edge, or by a reduction to a state that one of
its tuples enters. -/
inductive Automaton.Proceeds (a : Automaton) (n : Nat) : Nat → Prop where
  | shift {e : Edge} : e ∈ a.edges n → e.symbol.isTerminal = true → Proceeds a n e.target
  | reduce {r : Reduction} {last target : Nat} :
      r ∈ a.reductions n → (last, target) ∈ r.tuples → Proceeds a n target

theorem Automaton.proceeds_iff {a : Automaton} {n m : Nat} :
    a.Proceeds n m ↔ m ∈ a.successors n := by
  rw [mem_successors]
  constructor
  · rintro (⟨he, hterm⟩ | ⟨hr, ht⟩)
    · exact .inl ⟨_, Realises.mem_terminalEdges.2 ⟨he, hterm⟩, rfl⟩
    · exact .inr ⟨_, hr, _, ht⟩
  · rintro (⟨e, he, rfl⟩ | ⟨r, hr, last, ht⟩)
    · obtain ⟨he, hterm⟩ := Realises.mem_terminalEdges.1 he
      exact .shift he hterm
    · exact .reduce hr ht

namespace Grammar

variable {grammar : Grammar} {g : Productions} {a : Automaton} {n p : Nat}

/-- Some moves lead from the state, possibly none, to one that may reduce a rule which has
been declared with an announcement. -/
def AnnouncesAhead (grammar : Grammar) (a : Automaton) (n : Nat) : Prop :=
  ∃ m, Relation.ReflTransGen a.Proceeds n m ∧ ∃ r ∈ a.reductions m, ∃ i rule,
    ruleOfProduction? r.production = some i ∧ grammar.rules[i]? = some rule ∧ rule.predict = true

/-- The production of a rule asks for an announcement if the rule does. -/
theorem predict_of_normalize (h : grammar.normalize = .ok g) (i : Nat) :
    (g.all[i + 1]?).map (·.predict) = (grammar.rules[i]?).map (·.predict) := by
  obtain ⟨hcount, rules, hrules, hproductions⟩ := exists_rules_of_normalize h
  cases hrule : grammar.rules[i]? with
  | none =>
      rw [List.getElem?_eq_none_iff] at hrule
      rw [Array.getElem?_eq_none (hcount.trans_le (Nat.succ_le_succ hrule))]
      rfl
  | some rule =>
      obtain ⟨marked, hmarked, body, -, rfl⟩ := forall₂_getElem?_left hrules hrule
      obtain ⟨production, hmade, hproduction⟩ := hproductions i _ hmarked
      obtain ⟨slots, -, hmade⟩ := bind_eq_ok.1 hmade
      rw [← productionOfRule, hproduction, ← Except.ok.inj hmade]
      rfl

/-- A production asks for an announcement exactly if it stands for a rule that does. -/
theorem predict_iff_of_normalize (h : grammar.normalize = .ok g) :
    (g.all[p]?).any (·.predict) = true ↔ ∃ i rule, ruleOfProduction? p = some i ∧
      grammar.rules[i]? = some rule ∧ rule.predict = true := by
  cases p with
  | zero =>
      rw [(wellFormed_of_normalize h).accepting]
      exact iff_of_false Bool.false_ne_true fun ⟨i, _, hi, _⟩ => nomatch hi
  | succ i =>
      have hsame := predict_of_normalize h i
      have hany : ∀ {α : Type} (o : Option α) (f : α → Bool), o.any f = (o.map f).any id := by
        intro α o f
        cases o <;> rfl
      rw [hany, hsame, ← hany, Option.any_eq_true]
      exact ⟨fun ⟨rule, hrule, hpredict⟩ => ⟨i, rule, rfl, hrule, hpredict⟩,
        fun ⟨j, rule, hj, hrule, hpredict⟩ => ⟨rule, Option.some.inj hj ▸ hrule, hpredict⟩⟩

/-- **The marks mean what they should**, in terms of the author's rules. -/
theorem announces_iff_ahead (h : grammar.normalize = .ok g) :
    a.Announces g n ↔ grammar.AnnouncesAhead a n := by
  have hhere : ∀ m, a.reducesPredicted g m = true ↔ ∃ r ∈ a.reductions m, ∃ i rule,
      ruleOfProduction? r.production = some i ∧ grammar.rules[i]? = some rule ∧
        rule.predict = true := fun m => by
    rw [Automaton.reducesPredicted, List.any_eq_true]
    exact exists_congr fun r => and_congr_right fun _ => predict_iff_of_normalize h
  constructor
  · intro hann
    induction hann with
    | here hm => exact ⟨_, .refl, (hhere _).1 hm⟩
    | later hmem _ ih =>
        obtain ⟨m, hmoves, hm⟩ := ih
        exact ⟨m, .head (Automaton.proceeds_iff.2 hmem) hmoves, hm⟩
  · rintro ⟨m, hmoves, hm⟩
    induction hmoves using Relation.ReflTransGen.head_induction_on with
    | refl => exact .here ((hhere m).2 hm)
    | head hstep _ ih => exact .later (Automaton.proceeds_iff.1 hstep) ih

end Grammar

/-! ## Where the flags stand -/

/-- Every level of an orderly trie is reached by looking at some symbols. -/
theorem Trie.Orderly.exists_walk {α : Type} {P : α → Prop} {t l : Trie α} (h : t.Orderly P)
    (hl : l ∈ t.levels) : ∃ word, t.walk word = some l := by
  have hskip : ∀ {r s : Symbol} {rest : Trie α} {entry : TrieEntry α}, s ∉ rest.symbols →
      rest.find? r = some entry → r ≠ s := by
    rintro r _ rest entry hs hfind rfl
    rw [find?_eq_none_iff.2 hs] at hfind
    cases hfind
  -- A level below the root level lies at or below one of the branches of the root level.
  have hbelow : ∀ l ∈ t.levelsBelow, ∃ s below word,
      t.find? s = some (.deeper below) ∧ below.walk word = some l := by
    clear hl
    induction h with
    | done => exact fun l hl => absurd hl List.not_mem_nil
    | leaf _ hs _ ih =>
        intro l hl
        obtain ⟨r, below, word, hfind, hw⟩ := ih l hl
        exact ⟨r, below, word, (if_neg (hskip hs hfind)).trans hfind, hw⟩
    | @branch s below rest hs _ _ ihb ihr =>
        intro l hl
        rcases List.mem_append.1 hl with hl | hl
        · rcases List.mem_cons.1 hl with rfl | hl
          · exact ⟨s, _, [], if_pos rfl, rfl⟩
          · obtain ⟨r, deeper, word, hfind, hw⟩ := ihb l hl
            exact ⟨s, below, r :: word, if_pos rfl, by rw [walk, hfind]; exact hw⟩
        · obtain ⟨r, deeper, word, hfind, hw⟩ := ihr l hl
          exact ⟨r, deeper, word, (if_neg (hskip hs hfind)).trans hfind, hw⟩
  rcases List.mem_cons.1 hl with rfl | hl
  · exact ⟨[], rfl⟩
  · obtain ⟨s, below, word, hfind, hw⟩ := hbelow l hl
    exact ⟨s :: word, by rw [walk, hfind]; exact hw⟩

namespace Parser

variable {p : Parser} {start : Symbol}

/-- Every flag of the nodes is set exactly if the state that it stands before has a given
property. -/
structure FlagsExact (p : Parser) (ahead : Nat → Prop) : Prop where
  /-- The shifts of all levels. -/
  shift : ∀ {n : Nat} {node : Node} {row : List (Symbol × Trie.RowEntry Decision)} {s : Symbol}
    {target : Nat} {predict : Bool}, p.node n = .ok node → row ∈ node.trie.rows →
    (s, .settled (.shift target predict)) ∈ row → (predict = true ↔ ahead target)
  /-- The tuples of all reductions. -/
  tuple : ∀ {n : Nat} {node : Node} {r : NodeReduction} {t : Tuple}, p.node n = .ok node →
    r ∈ node.reductions → t ∈ r.tuples → (t.predict = true ↔ ahead t.target)

/-- **The flags are copied unchanged** to wherever they stand. -/
theorem Compiled.flagsExact (hp : p.Compiled start) :
    p.FlagsExact (p.automaton.Announces p.productions) where
  shift {n node row s target predict} hnode hrow hmem := by
    obtain ⟨level, hlevel, hmirrors⟩ := forall₂_mem_right node.trie.rows_mirror hrow
    have horderly := (hp.storable hnode).trie
    obtain ⟨word, hw⟩ := horderly.exists_walk hlevel
    obtain ⟨entry, hfind, hentry⟩ :=
      (horderly.of_mem_levels level hlevel).exists_find?_of_mem_row hmirrors hmem
    cases hentry
    have hroot : p.table.root n = .ok node.trie := map_eq_ok.2 ⟨node, hnode, rfl⟩
    rw [(hp.flag_of_shift hroot hw hfind).2, announces_iff]
  tuple {n node r t} hnode hr ht := by
    obtain ⟨node', hnode', -, hreductions⟩ := hp.exists_node (hp.lt_count_of_node hnode)
    rw [hnode, Except.ok.injEq] at hnode'
    subst hnode'
    rw [hreductions] at hr
    obtain ⟨r, -, rfl⟩ := List.mem_map.1 hr
    obtain ⟨⟨last, target⟩, -, rfl⟩ := List.mem_map.1 ht
    exact announces_iff

end Parser

/-! ## Tables -/

section Tables

variable {Node Level : Type} {t : ParseTable Node Level} {marked : Node → Prop}

/-- Wherever the references of the table lead, no flag is set before a node that is not
marked. -/
structure ParseTable.Truthful (t : ParseTable Node Level) (marked : Node → Prop) : Prop where
  shift : ∀ {n l s target predict}, t.Reaches n l →
    t.find n l s = .ok (some (.shift target predict)) → predict = true → marked target
  landing : ∀ {n l index last m landing}, t.Reaches n l → t.Offers n l index → t.Reaches last m →
    t.landing n index last = .ok (some landing) → landing.predict = true → marked landing.target

theorem Parser.Compiled.truthful {p : Parser} {start : Symbol} (hp : p.Compiled start) :
    p.table.Truthful (p.automaton.Announces p.productions) where
  shift {n level s target predict} hreaches hfind hflag := by
    obtain ⟨root, word, hroot, hw⟩ := Parser.exists_walk_of_reaches hreaches
    obtain ⟨entry, hentry, haction⟩ := Option.map_eq_some_iff.1 (Except.ok.inj hfind)
    obtain rfl : entry = .settled (.shift target predict) := Parser.actionOf_injective haction
    rw [(hp.flag_of_shift hroot hw hentry).2] at hflag
    exact Parser.announces_iff.1 hflag
  landing _ _ _ hlanding hflag := by
    rw [(hp.flag_of_landing hlanding).2] at hflag
    exact Parser.announces_iff.1 hflag

/-- A table is truthful if the table that it corresponds to is. -/
theorem Correspondence.Respected.truthful {Node' Level' : Type} {F : Fault → Prop}
    {R : Correspondence Node Level Node' Level'} {t' : ParseTable Node' Level'}
    (h : R.Respected F t t') (ht : t.Truthful marked) :
    t'.Truthful fun n' => ∃ n, R.node n n' ∧ marked n where
  shift {n' l' s target' predict} hreaches' hfind' hflag := by
    obtain ⟨n, l, hreaches, hn, hl⟩ := exists_of_reaches h hreaches'
    obtain ⟨action, hfind, haction⟩ := exists_action h hn hl hfind'
    cases haction with
    | shift htarget => exact ⟨_, htarget, ht.shift hreaches hfind hflag⟩
  landing {n' l' index last' m' landing'} hreaches' hoffers' hlast' hlanding' hflag := by
    obtain ⟨n, l, hreaches, hn, hl⟩ := exists_of_reaches h hreaches'
    obtain ⟨last, m, hrlast, hlast, -⟩ := exists_of_reaches h hlast'
    obtain ⟨hoffers, hreduction⟩ := reduction_of_offers h hn hl hoffers'
    obtain ⟨found, hfound, hrel⟩ := (h.landing hn hreduction hlast).exists_of_ok hlanding'
    cases hrel with
    | some hlandings =>
        exact ⟨_, hlandings.1, ht.landing hreaches hoffers hrlast hfound (hlandings.2.trans hflag)⟩

/-! ## Provisional elements -/

/-- Below a provisional element all elements are provisional, except for the entry that the
stack starts with. -/
def Record.Layered (r : Record Node) : Prop :=
  r.entries.dropLast.Pairwise fun upper lower =>
    upper.provisional = true → lower.provisional = true

/-- An element may be pushed if it is not provisional, or all elements are. -/
theorem Record.Layered.push {r : Record Node} (h : r.Layered) {e : Entry Node} (dropped : Nat)
    (he : e.provisional = true → ∀ x ∈ r.entries.dropLast, x.provisional = true)
    (steps : List Step) (accepted : Bool) :
    (⟨e :: r.entries.drop dropped, steps, accepted⟩ : Record Node).Layered := by
  rw [Layered]
  cases hrest : r.entries.drop dropped with
  | nil => exact .nil
  | cons y rest =>
      rw [List.dropLast_cons_of_ne_nil (List.cons_ne_nil y rest), ← hrest,
        List.dropLast_drop_eq_drop_dropLast]
      refine List.pairwise_cons.2 ⟨fun x hx hprovisional => ?_, h.drop⟩
      exact he hprovisional x (List.mem_of_mem_drop hx)

/-- The machine has come where the flags tell the truth, and its stack is layered. -/
structure Tiered (t : ParseTable Node Level) (marked : Node → Prop)
    (c : Configuration (Record Node) Level) : Prop where
  foreseen : Foreseen t marked c
  layered : c.stack.Layered

namespace Tiered

variable {c c' : Configuration (Record Node) Level} {top : Node} {action : Action Node Level}

theorem start {root : Level} (h : t.root t.startup = .ok root) :
    Tiered t marked ⟨Record.start t.startup, [], ⟨root, 0⟩⟩ :=
  ⟨.start h, .nil⟩

theorem withToken (h : Tiered t marked c) (token : Token) :
    Tiered t marked (Session.withToken c token) :=
  ⟨⟨h.foreseen.grounded, h.foreseen.reached, h.foreseen.top, h.foreseen.provisional⟩, h.layered⟩

/-- Handing out steps changes neither nodes nor flags. -/
theorem clearSteps (h : Tiered t marked c) :
    Tiered t marked { c with stack := c.stack.clearSteps.2 } := by
  have hpeek : ∀ n, StateStack.peek c.stack.clearSteps.2 n = StateStack.peek c.stack n := by
    intro n
    rw [Record.clearSteps_eq, Record.peek_drained]
  have hlast : c.stack.clearSteps.2.entries.dropLast =
      c.stack.entries.dropLast.map fun e => { e with offset := e.offset - c.stack.settled } :=
    (List.map_dropLast ..).symm
  obtain ⟨⟨hgrounded, hreached, htop, hprovisional⟩, hlayered⟩ := h
  refine ⟨⟨hgrounded.drained _, fun k n hn => ?_, fun n hn => ?_, fun hp e he => ?_⟩, ?_⟩
  · exact hreached k n ((hpeek k).symm.trans hn)
  · exact htop n ((hpeek 0).symm.trans hn)
  · rw [hlast] at he
    obtain ⟨e, hmem, rfl⟩ := List.mem_map.1 he
    obtain ⟨n, hn, hmark⟩ := hp
    exact hprovisional ⟨n, (hpeek 0).symm.trans hn, hmark⟩ e hmem
  · rw [Record.Layered, hlast, List.pairwise_map]
    exact hlayered

/-- **A move keeps the layers.**  Where it pushes an element with its flag set, the element
may lead to an announcement; then the topmost node may as well, and everything on the stack
has been provisional. -/
theorem moves (h : Tiered t marked c) (hforesees : t.Foresees marked)
    (htruthful : t.Truthful marked) (htop : StateStack.peek c.stack 0 = some top)
    (hconsults : Consults t c top action) (hmoves : Moves t c top action c') :
    Tiered t marked c' := by
  refine ⟨(h.foreseen.moves hforesees htop hconsults hmoves).1, ?_⟩
  have hreaches := h.foreseen.top top htop
  cases hmoves with
  | descend => exact h.layered
  | @shift target predict token rest root hb hroot =>
      cases hconsults with
      | found _ _ hf =>
          refine h.layered.push 0 (fun hflag => ?_) _ _
          have hmarked := htruthful.shift hreaches hf hflag
          exact h.foreseen.provisional ⟨top, htop, (hforesees.shift hreaches hf hmarked).2⟩
  | accept => exact h.layered
  | @reduce index q last landing root hq hacc hlast hlanding hroot =>
      have hoffers := offers_of_consults hconsults
      obtain ⟨m, hm⟩ := h.foreseen.reached _ _ hlast
      refine h.layered.push q.count (fun hflag => ?_) _ _
      have hmarked := htruthful.landing hreaches hoffers hm hlanding hflag
      exact h.foreseen.provisional
        ⟨top, htop, (hforesees.landing hreaches hoffers hm hlanding hmarked).2⟩

/-- So does a run. -/
theorem run (h : Tiered t marked c) (hforesees : t.Foresees marked)
    (htruthful : t.Truthful marked) {moves : Nat} {stall : Option Stall}
    (hrun : Machine.run t moves c = .ok (c', stall)) : Tiered t marked c' := by
  refine (run_keeps (P := Tiered t marked) (fun d d' hd hstep => ?_) h hrun).1
  obtain ⟨-, top, action, htop, hconsults, hmoves⟩ := step_eq_moved.1 hstep
  exact hd.moves hforesees htruthful htop hconsults hmoves

end Tiered

/-- **Every session is layered** on a table whose flags are set exactly before the marked
nodes. -/
theorem Session.layered_of_reachable (hforesees : t.Foresees marked)
    (htruthful : t.Truthful marked) {moves : Nat} {s : Session Node Level}
    (h : Reachable t moves s) : s.configuration.stack.Layered := by
  refine (reachable_keeps (P := Tiered t marked) (fun hroot hrun => ?_) (fun hc hrun => ?_)
    (fun hc => hc.clearSteps) h).layered
  · exact (Tiered.start hroot).run hforesees htruthful hrun
  · exact (hc.withToken _).run hforesees htruthful hrun

end Tables

/-! ## Compiled grammars -/

/-- **Flags tell exactly what lies ahead.**  Every shift and every tuple of a compiled
grammar is flagged if and only if some moves lead from the state that it enters to one that
may reduce a rule which has been declared with an announcement.  So in every session that
operations lead to, on the grammar or on the table it is stored as, all elements below a
provisional one are provisional. -/
theorem Grammar.flags_exact_of_compile {grammar : Grammar} {bound : Nat} {p : Parser}
    (hp : grammar.compile bound = .ok p) :
    p.FlagsExact (grammar.AnnouncesAhead p.automaton) ∧
    (∀ {moves : Nat} {s : Session Nat (Trie Decision)}, Session.Reachable p.table moves s →
      s.configuration.stack.Layered) ∧
    ∀ {w : Width} {b : Buffer} {t : Table}, p.toTable w = .ok b → Table.ofWords b.words = .ok t →
      ∀ {moves : Nat} {s : Session Nat Nat}, Session.Reachable t.table moves s →
        s.configuration.stack.Layered := by
  obtain ⟨hnormal, hcompiled⟩ := compiled_of_compile hp
  have hahead : p.automaton.Announces p.productions = grammar.AnnouncesAhead p.automaton :=
    funext fun n => propext (announces_iff_ahead hnormal)
  refine ⟨hahead ▸ hcompiled.flagsExact, fun hs => ?_, fun hb ht _ _ hs => ?_⟩
  · exact Session.layered_of_reachable hcompiled.foresees hcompiled.truthful hs
  · obtain ⟨-, hrespected⟩ := respected_of_toTable hp hb ht
    refine Session.layered_of_reachable (hrespected.foresees ?_ hcompiled.foresees)
      (hrespected.truthful hcompiled.truthful) hs
    rintro n m n' ⟨hn, hplace⟩ ⟨hm, hplace'⟩
    exact p.nodeAt_injective hn hm (hplace.trans hplace'.symm)

/-- The overlapping rules: behind two of their tokens an announcement may still be due in front
of each, and the node in which a parse starts is the only one without a flag. -/
theorem Grammar.flags_exact_of_compile_overlapping : ∃ p s, overlapping.compile 0 = .ok p ∧
    p.FlagsExact (overlapping.AnnouncesAhead p.automaton) ∧ Session.Reachable p.table 9 s ∧
    s.configuration.stack.entries.map (·.provisional) = [true, true, false] ∧
    s.configuration.stack.Layered := by
  obtain ⟨p, fresh, hp, hfresh, htest⟩ := exists_of_passes (show overlapping.passes 0 9
    (fun p => Session.takes p 9 [⟨.terminal 2, 0⟩, ⟨.terminal 0, 1⟩] fun s =>
      s.configuration.stack.entries.map (·.provisional) == [true, true, false]) = true by
    decide +kernel)
  obtain ⟨s, hfeed, hflags⟩ := Session.exists_of_takes htest
  obtain ⟨hexact, hlayered, -⟩ := flags_exact_of_compile hp
  have hs := (Session.Reachable.start hfresh).feed hfeed
  exact ⟨p, s, hp, hexact, hs, beq_iff_eq.1 hflags, hlayered hs⟩

end BoundedLR
