import BoundedLR.Proofs.EndOfInput
import BoundedLR.Proofs.ExactTries
import BoundedLR.Proofs.LandingReductions
import BoundedLR.Proofs.NumberedLevels

/-!
# How many tokens are held back

A machine that goes down in the trie of its topmost node has looked at one more token
without shifting any.  The node knows in advance how far this can go, and a machine relies
on it: after each step down, its cursor has passed fewer tokens than the node may look at.
`Machine.StaysAhead` says so of a configuration, for the tokens that have been passed and
for the step down that may come next.

It holds because the cursor stands in the trie where the tokens that it has passed lead, and
a way down is shorter than the trie is high.  In memory this is part of the invariant of a
parse; a table that has been stored inherits it, since it tells the same lookahead.

Between two operations the tokens that have been passed are all that there are.  So a session
holds back fewer tokens than its topmost node may look at, if it holds back any, and with a
bound of one or less it never does.
-/

namespace BoundedLR

open Machine Session

section Machines

variable {σ Node Level : Type} [StateStack σ Node]

/-- The cursor has passed fewer tokens than the topmost node may look at, which are not more
than a given bound allows, and it will have if the next move goes one level down. -/
structure Machine.StaysAhead (t : ParseTable Node Level) (bound : Nat)
    (c : Configuration σ Level) : Prop where
  passed : 0 < c.cursor.depth → ∃ top lookahead, StateStack.peek c.stack 0 = some top ∧
    t.lookahead top = .ok lookahead ∧ c.cursor.depth < lookahead ∧ lookahead ≤ max 1 bound
  descends : ∀ top level, StateStack.peek c.stack 0 = some top →
    Consults t c top (.descend level) → ∃ lookahead, t.lookahead top = .ok lookahead ∧
      c.cursor.depth + 1 < lookahead ∧ lookahead ≤ max 1 bound

/-- No more tokens are held back than a bound allows: wherever the runs of a session come
to, the machine stays ahead, and between two operations it has looked at all tokens that
it holds. -/
structure Session.HoldsBack (t : ParseTable Node Level) (bound : Nat) : Prop where
  starting : ∀ {moves : Nat} {root : Level} {c : Configuration (Record Node) Level},
    t.root t.startup = .ok root →
    Visits t moves ⟨Record.start t.startup, [], ⟨root, 0⟩⟩ c → StaysAhead t bound c
  trying : ∀ {moves more : Nat} {s : Session Node Level} {token : Token}
    {c : Configuration (DryRun Node) Level}, Reachable t moves s →
    Visits t more (withToken (dryRun s.configuration) token) c → StaysAhead t bound c
  taking : ∀ {moves more : Nat} {s : Session Node Level} {token : Token}
    {c : Configuration (Record Node) Level}, Reachable t moves s →
    Visits t more (withToken s.configuration token) c → StaysAhead t bound c
  resting : ∀ {moves : Nat} {s : Session Node Level}, Reachable t moves s →
    StaysAhead t bound s.configuration
  buffered : ∀ {moves : Nat} {s : Session Node Level}, Reachable t moves s →
    s.configuration.buffer.length = s.configuration.cursor.depth

/-- So at most as many tokens are held back as are one less than the bound. -/
theorem Session.HoldsBack.length_buffer_le {t : ParseTable Node Level} {bound moves : Nat}
    {s : Session Node Level} (h : HoldsBack t bound) (hs : Reachable t moves s) :
    s.configuration.buffer.length ≤ bound - 1 := by
  rw [h.buffered hs]
  rcases Nat.eq_zero_or_pos s.configuration.cursor.depth with hzero | hpos
  · omega
  · obtain ⟨-, lookahead, -, -, hlt, hle⟩ := (h.resting hs).passed hpos
    omega

end Machines

/-! ## Compiled grammars -/

namespace Parser

variable {p : Parser} {start : Symbol} {σ : Type} [StateStack σ Nat]
  {c c' : Configuration σ (Trie Decision)}

/-- A node may look at more symbols than have led to a level of its trie. -/
theorem Compiled.lt_lookahead (hp : p.Compiled start) {n : Nat} {root level : Trie Decision}
    {word : List Symbol} (hroot : p.table.root n = .ok root) (hw : root.walk word = some level)
    (hword : word ≠ []) : ∃ lookahead, p.table.lookahead n = .ok lookahead ∧
      word.length < lookahead ∧ lookahead ≤ max 1 p.bound := by
  obtain ⟨node, hnode, -, rfl⟩ := hp.root_eq_ok hroot
  exact ⟨node.lookahead, map_eq_ok.2 ⟨node, hnode, rfl⟩, Trie.length_lt_lookahead hw hword,
    hp.lookahead_le hnode⟩

/-- **A machine that shadows recorded trees stays ahead**, for its cursor stands where the
tokens that it has passed lead. -/
theorem Shadows.staysAhead (hp : p.Compiled start) (h : p.Shadows c) :
    StaysAhead p.table p.bound c := by
  obtain ⟨taken, d, trees, hs, hstep⟩ := h
  obtain ⟨top, below, -, htop⟩ := hs.exists_top
  obtain ⟨root, hroot, hw⟩ := hs.cursor top htop
  have hpeek := (hstep.peek 0).trans htop
  rw [← hstep.cursor] at hw
  generalize hword : (d.buffer.take c.cursor.depth).map (·.symbol) = word at hw
  have hdepth : word.length = c.cursor.depth := by
    rw [← hword, List.length_map, List.length_take, hstep.cursor]
    exact Nat.min_eq_left hs.depth_le
  refine ⟨fun hpos => ?_, fun other level hother hconsults => ?_⟩
  · obtain ⟨lookahead, hlookahead, hlt, hle⟩ := hp.lt_lookahead hroot hw
      (List.ne_nil_of_length_pos (hdepth ▸ hpos))
    exact ⟨top, lookahead, hpeek, hlookahead, hdepth ▸ hlt, hle⟩
  · cases hpeek.symm.trans hother
    cases hconsults with
    | found _ _ hfind =>
        obtain ⟨entry, hentry, haction⟩ := Option.map_eq_some_iff.1 (Except.ok.inj hfind)
        obtain rfl : entry = .deeper level := actionOf_injective haction
        obtain ⟨lookahead, hlookahead, hlt, hle⟩ := hp.lt_lookahead hroot
          (Trie.walk_append hw hentry) (List.append_ne_nil_of_right_ne_nil _ (List.cons_ne_nil _ _))
        rw [List.length_append, hdepth] at hlt
        exact ⟨lookahead, hlookahead, hlt, hle⟩

theorem Shadows.staysAhead_of_visits [LawfulStack σ Nat] (hp : p.Compiled start) (h : p.Shadows c)
    {moves : Nat} (hvisits : Visits p.table moves c c') : StaysAhead p.table p.bound c' :=
  (hvisits.keeps (P := p.Shadows) (fun _ _ hc hmoved => hc.moved hp hmoved) h).staysAhead hp

theorem Compiled.holdsBack (hp : p.Compiled start) : HoldsBack p.table p.bound where
  starting hroot hvisits := by
    have hshadows : p.Shadows (⟨Record.start p.table.startup, [], ⟨_, 0⟩⟩ :
        Configuration (Record Nat) (Trie Decision)) :=
      ⟨[], _, [], growth_start hroot, fun _ => rfl, rfl, rfl, rfl⟩
    exact hshadows.staysAhead_of_visits hp hvisits
  trying hs hvisits :=
    (((hp.shadows_of_reachable hs).of_inStep (inStep_dryRun _)).withToken _).staysAhead_of_visits
      hp hvisits
  taking hs hvisits := ((hp.shadows_of_reachable hs).withToken _).staysAhead_of_visits hp hvisits
  resting hs := (hp.shadows_of_reachable hs).staysAhead hp
  buffered hs := (settled_of_reachable hs).depth.symm

end Parser

/-! ## Stored tables -/

namespace Correspondence

section Machines

variable {Node Level Node' Level' σ σ' : Type} [StateStack σ Node] [StateStack σ' Node']
  {F : Fault → Prop} {R : Correspondence Node Level Node' Level'} {K : σ → σ' → Prop}
  {t : ParseTable Node Level} {t' : ParseTable Node' Level'} {c : Configuration σ Level}
  {c' d' : Configuration σ' Level'}

/-- What a run visits on one of two tables, it visits on the other. -/
theorem exists_visits [LawfulStack σ Node] [LawfulStack σ' Node'] (h : R.Respected F t t')
    (hK : R.StacksRelated K) (hc : R.ConfigurationsAlike K c c') {moves : Nat}
    (hvisits : Visits t' moves c' d') :
    ∃ d, Visits t moves c d ∧ R.ConfigurationsAlike K d d' := by
  induction hvisits generalizing c with
  | here => exact ⟨c, .here, hc⟩
  | later hstep _ ih =>
      obtain ⟨next, hnext, halike⟩ := (step_alike h hK hc).exists_of_ok hstep
      cases halike with
      | moved hc =>
          obtain ⟨d, hd, hdd'⟩ := ih hc
          exact ⟨d, .later hnext hd, hdd'⟩

/-- A machine stays ahead on a table that tells the same lookahead. -/
theorem staysAhead (h : R.Respected F t t')
    (hlookahead : ∀ n n', R.node n n' → ∀ m, t.lookahead n = .ok m → t'.lookahead n' = .ok m)
    (hc : R.ConfigurationsAlike K c c') {bound : Nat} (hs : StaysAhead t bound c) :
    StaysAhead t' bound c' := by
  obtain ⟨n, n', htop, htop', hn, hlevel⟩ := hc.top
  refine ⟨fun hpos => ?_, fun top level hpeek hconsults => ?_⟩
  · obtain ⟨top, m, hpeek, hm, hlt, hle⟩ := hs.passed (hc.depth ▸ hpos)
    cases htop.symm.trans hpeek
    exact ⟨n', m, htop', hlookahead n n' hn m hm, hc.depth ▸ hlt, hle⟩
  · cases htop'.symm.trans hpeek
    cases hconsults with
    | found halways hb hfind =>
        obtain ⟨action, hfound, haction⟩ := exists_action h hn hlevel hfind
        cases haction with
        | @descend below _ hbelow =>
            have hconsults : Consults t c n (.descend below) := by
              refine .found (fun hzero => ?_) (by rw [hc.buffer, hc.depth]; exact hb) hfound
              obtain ⟨always, hal, heq, -⟩ :=
                (h.always hn).exists_of_ok (halways (hc.depth ▸ hzero))
              rw [hal, heq]
            obtain ⟨m, hm, hlt, hle⟩ := hs.descends n below htop hconsults
            exact ⟨m, hlookahead n n' hn m hm, hc.depth ▸ hlt, hle⟩

end Machines

variable {Node Level Node' Level' : Type} {F : Fault → Prop}
  {R : Correspondence Node Level Node' Level'} {t : ParseTable Node Level}
  {t' : ParseTable Node' Level'}

/-- **A session holds back no more tokens** on such a table. -/
theorem Respected.holdsBack (h : R.Respected F t t')
    (hlookahead : ∀ n n', R.node n n' → ∀ m, t.lookahead n = .ok m → t'.lookahead n' = .ok m)
    {bound : Nat} (ht : HoldsBack t bound) : HoldsBack t' bound where
  starting hroot' hvisits := by
    obtain ⟨root, hroot, hrel⟩ := (h.root h.startup).exists_of_ok hroot'
    obtain ⟨d, hd, hdd'⟩ := exists_visits h recordsAlike_related
      (c := ⟨Record.start t.startup, [], ⟨root, 0⟩⟩)
      ⟨⟨.cons ⟨h.startup, rfl, rfl⟩ .nil, rfl, rfl⟩, ⟨_, _, rfl, rfl, h.startup, hrel⟩, rfl, rfl⟩
      hvisits
    exact staysAhead h hlookahead hdd' (ht.starting hroot hd)
  trying hs' hvisits := by
    obtain ⟨s, hs, halike⟩ := exists_reachable h hs'
    obtain ⟨d, hd, hdd'⟩ := exists_visits h dryRunsAlike_related
      (withToken_alike (dryRun_alike halike.configuration) _) hvisits
    exact staysAhead h hlookahead hdd' (ht.trying hs hd)
  taking hs' hvisits := by
    obtain ⟨s, hs, halike⟩ := exists_reachable h hs'
    obtain ⟨d, hd, hdd'⟩ := exists_visits h recordsAlike_related
      (withToken_alike halike.configuration _) hvisits
    exact staysAhead h hlookahead hdd' (ht.taking hs hd)
  resting hs' := by
    obtain ⟨s, hs, halike⟩ := exists_reachable h hs'
    exact staysAhead h hlookahead halike.configuration (ht.resting hs)
  buffered hs' := (settled_of_reachable hs').depth.symm

end Correspondence

/-- A stored node tells the lookahead of the node that it is stored for. -/
theorem Parser.lookahead_stored {p : Parser} {t : Table}
    (h : Contains t.words t.header p.storedNodes) {n place m : Nat}
    (hn : p.correspondence.node n place) (hm : p.table.lookahead n = .ok m) :
    t.table.lookahead place = .ok m := by
  obtain ⟨node, hnode, hstores⟩ := stores_of_node h hn
  obtain ⟨node', hnode', rfl⟩ := map_eq_ok.1 hm
  rw [node_eq_ok, hnode, Option.some.injEq] at hnode'
  subst hnode'
  exact Table.word_eq_ok.2 (StoredNode.stores_words.1 hstores).2.2.2.1

/-! ## The lookahead of a grammar -/

/-- **Lookahead is bounded as advertised.**  In every node of a compiled grammar the levels
are a tree, and the node looks at as many symbols as there are levels on the longest way
down, which are not more than the bound, or one.  No session that operations lead to, on the
grammar or on the table it is stored as, holds back more tokens than this allows, and none of
its runs goes further down than the topmost node may look. -/
theorem Grammar.lookahead_of_compile {grammar : Grammar} {bound : Nat} {p : Parser}
    (hp : grammar.compile bound = .ok p) :
    (∀ (n : Nat) (node : Node), p.node n = .ok node → Trie.Numbered node.trie.rows ∧
      node.trie.Reckons node.lookahead ∧ node.lookahead ≤ max 1 bound) ∧
    (HoldsBack p.table bound ∧ ∀ {moves : Nat} {s : Session Nat (Trie Decision)},
      Reachable p.table moves s → s.configuration.buffer.length ≤ bound - 1) ∧
    ∀ {w : Width} {b : Buffer} {t : Table}, p.toTable w = .ok b → Table.ofWords b.words = .ok t →
      HoldsBack t.table bound ∧ ∀ {moves : Nat} {s : Session Nat Nat},
        Reachable t.table moves s → s.configuration.buffer.length ≤ bound - 1 := by
  obtain ⟨-, hcompiled⟩ := compiled_of_compile hp
  have hbound := bound_of_compile hp
  have hparser : HoldsBack p.table bound := hbound ▸ hcompiled.holdsBack
  refine ⟨fun n node hnode => ⟨node.trie.numbered_rows, node.trie.reckons_lookahead, ?_⟩,
    ⟨hparser, hparser.length_buffer_le⟩, fun hb ht => ?_⟩
  · exact hbound ▸ hcompiled.lookahead_le hnode
  · obtain ⟨hcontains, hrespected⟩ := respected_of_toTable hp hb ht
    have htable := hrespected.holdsBack
      (fun n n' hn m hm => Parser.lookahead_stored hcontains hn hm) hparser
    exact ⟨htable, htable.length_buffer_le⟩

/-- The hesitant rules need two symbols to tell their choices apart, and hold back the first of
them.  More is not possible with a bound of two. -/
theorem Grammar.lookahead_of_compile_hesitant : ∃ p s node, hesitant.compile 2 = .ok p ∧
    Reachable p.table 9 s ∧ s.configuration.buffer.length = 1 ∧
    s.configuration.buffer.length ≤ 2 - 1 ∧ p.node 1 = .ok node ∧
    Trie.Numbered node.trie.rows ∧ node.trie.Reckons node.lookahead ∧ node.lookahead ≤ max 1 2 ∧
    HoldsBack p.table 2 := by
  obtain ⟨p, fresh, hp, hfresh, htest⟩ := exists_of_passes (show hesitant.passes 2 9 (fun p s =>
    yields (p.node 1) fun _ => s.takes p 9 [⟨.terminal 0, 0⟩, ⟨.terminal 1, 1⟩] fun after =>
      after.configuration.buffer.length == 1) = true by decide +kernel)
  obtain ⟨node, hnode, htest⟩ := exists_of_yields htest
  obtain ⟨s, hfeed, hcount⟩ := Session.exists_of_takes htest
  have hs := (Reachable.start hfresh).feed hfeed
  obtain ⟨hnodes, ⟨hholds, hfew⟩, -⟩ := lookahead_of_compile hp
  obtain ⟨hnumbered, hreckons, hle⟩ := hnodes 1 node hnode
  exact ⟨p, s, node, hp, hs, beq_iff_eq.1 hcount, hfew hs, hnode, hnumbered, hreckons, hle, hholds⟩

end BoundedLR
