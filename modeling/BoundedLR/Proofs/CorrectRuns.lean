import BoundedLR.Proofs.Decisions
import BoundedLR.Proofs.LawfulStacks
import BoundedLR.Proofs.MachineMoves

/-!
# A machine on the right course stays on it

A machine is on course for some turns if its stack can carry them out up to the
acceptance of the input, the symbols that they shift are those in its buffer and
those still ahead, and the level under its cursor decides for the first of them.
Such a machine never stalls.  Each move of it looks at one more symbol, carries out
one of the turns, or accepts when no turn is left; and it waits only for a symbol
that is still ahead (`Parser.OnCourse.step`).  So a run comes to an end, and has
carried out turns of the course and nothing else.

All this holds for any lawful stack.  What a stack keeps for itself besides its
nodes, such as the steps of a record, follows along the turns: `Parser.Advances`
says how the stack changes while the course shortens.
-/

namespace BoundedLR

/-! ## The state that accepts -/

namespace Automaton.Realises

variable {a : Automaton} {g : Productions} {start : Symbol} {n : Nat} {stack : List Nat}

/-- The edge into the state is on the end of input, which stands in one slot only. -/
theorem kernel_of_accepting (ha : a.Realises g) (hg : g.WellFormed start)
    (hi : (⟨0, 2⟩ : Item) ∈ a.items n) (hp : a.Path (n :: stack)) :
    ∀ i ∈ a.kernel n, i = ⟨0, 2⟩ := by
  have hkernel : (⟨0, 2⟩ : Item) ∈ a.kernel n := ha.mem_kernel_of_dot_pos hi (by decide)
  cases hp with
  | start =>
      rw [ha.kernel_zero, List.mem_singleton] at hkernel
      cases hkernel
  | push _ he =>
      obtain ⟨⟨q, d⟩, -, hs, hadv⟩ := ha.item_of_edge he hkernel
      obtain ⟨rfl, rfl⟩ : 0 = q ∧ 1 = d := by
        rw [Item.advance, Item.mk.injEq] at hadv
        exact ⟨hadv.1, Nat.succ.inj hadv.2⟩
      have hend : g.nextSymbol ⟨0, 1⟩ = some .endOfInput := by
        rw [Productions.nextSymbol, Productions.slot?, hg.slots_zero]
        rfl
      rw [hend, Option.some.injEq] at hs
      intro i hmem
      obtain ⟨⟨q, d⟩, -, hs', rfl⟩ := ha.item_of_edge he hmem
      rw [← hs] at hs'
      obtain ⟨slot, hslot, hsym⟩ := Option.map_eq_some_iff.1 hs'
      obtain ⟨rfl, rfl⟩ := hg.eq_zero_of_slot?_endOfInput hslot hsym
      rfl

/-- So the state holds no other item. -/
theorem items_of_accepting (ha : a.Realises g) (hg : g.WellFormed start)
    (hi : (⟨0, 2⟩ : Item) ∈ a.items n) (hp : a.Path (n :: stack)) : a.items n = [⟨0, 2⟩] := by
  have hn := lt_count_of_mem_items hi
  have hall : ∀ i ∈ a.items n, i = ⟨0, 2⟩ := by
    intro i hmem
    rw [ha.items_eq hn] at hmem
    have hreach := Productions.mem_closure_iff.1 hmem
    induction hreach with
    | seed hseed => exact ha.kernel_of_accepting hg hi hp _ hseed
    | opened hr ho ih =>
        rw [ih (Productions.mem_closure_iff.2 hr)] at ho
        obtain ⟨s, c, hs, -, -, -⟩ := Productions.mem_openings.1 ho
        rw [hg.nextSymbol_complete] at hs
        cases hs
  have hascending : IsAscending (a.items n) := by
    rw [ha.items_eq hn]
    exact Productions.isAscending_closure _ _
  refine hascending.eq_of_mem_iff (.singleton _) fun i => ⟨fun h => ?_, fun h => ?_⟩
  · rw [hall i h]
    exact List.mem_singleton_self _
  · rw [List.mem_singleton.1 h]
    exact hi

/-- Nothing leads on from there. -/
theorem edges_of_accepting (ha : a.Realises g) (hg : g.WellFormed start)
    (hi : (⟨0, 2⟩ : Item) ∈ a.items n) (hp : a.Path (n :: stack)) : a.edges n = [] := by
  refine List.eq_nil_iff_forall_not_mem.2 fun e he => ?_
  obtain ⟨i, hmem, hs⟩ := ha.exists_item he
  rw [ha.items_of_accepting hg hi hp, List.mem_singleton] at hmem
  rw [hmem, hg.nextSymbol_complete] at hs
  cases hs

/-- A state that holds the complete synthetic item can do nothing but accept. -/
theorem accepting (ha : a.Realises g) (hg : g.WellFormed start)
    (hi : (⟨0, g.length 0⟩ : Item) ∈ a.items n) (hp : a.Path (n :: stack)) :
    ∃ r, a.reductions n = [r] ∧ r.production = 0 ∧ a.terminalEdges n = [] := by
  rw [hg.length_zero] at hi
  have hitems := ha.items_of_accepting hg hi hp
  refine ⟨⟨0, a.reductionTuples g n 0⟩, ?_, rfl, ?_⟩
  · have hcomplete : g.isComplete ⟨0, 2⟩ = true :=
      Productions.nextSymbol_eq_none_iff.1 hg.nextSymbol_complete
    rw [ha.reductions_eq (lt_count_of_mem_items hi), hitems, Productions.completions,
      List.filter_cons, if_pos hcomplete]
    rfl
  · rw [terminalEdges_eq, ha.edges_of_accepting hg hi hp, List.filter_nil]

end Automaton.Realises

namespace Parser

variable {σ : Type} [StateStack σ Nat] {p : Parser} {start : Symbol}
  {c c' : Configuration σ (Trie Decision)} {turn : Turn} {turns turns' : List Turn}
  {ahead : List Symbol} {nodes : List Nat}

/-! ## On course -/

/-- The turns lead a stack to the state that accepts, and the last of them shifts the
end of input. -/
structure Course (p : Parser) (nodes : List Nat) (turns : List Turn) : Prop where
  path : p.automaton.Path nodes
  run : ∃ top stack, p.automaton.Follows p.productions nodes turns (top :: stack) ∧
    (⟨0, p.productions.length 0⟩ : Item) ∈ p.automaton.items top
  closed : turns ≠ [] → turns.getLast? = some (.shift .endOfInput)

/-- What the level under the cursor has to do with the turns to come. -/
inductive Course.Under (p : Parser) (top : Nat) (turns : List Turn) :
    Cursor (Trie Decision) → Prop where
  | root {root : Trie Decision} : p.table.root top = .ok root → Under p top turns ⟨root, 0⟩
  | within {level : Trie Decision} {depth : Nat} {turn : Turn} {rest : List Turn}
      {decision : Decision} : turns = turn :: rest → decision.Performs p top turn →
      level.Decides ((Turn.word turns).drop depth) decision → 0 < depth →
      Under p top turns ⟨level, depth⟩

/-- **A machine is on course** for some turns. -/
structure OnCourse (p : Parser) (c : Configuration σ (Trie Decision)) (turns : List Turn)
    (ahead : List Symbol) : Prop where
  nodes : ∃ nodes, Shows c.stack nodes ∧ p.Course nodes turns
  running : StateStack.isAccepted c.stack = false
  word : c.buffer.map (·.symbol) ++ ahead = Turn.word turns
  cursor : ∀ top, StateStack.peek c.stack 0 = some top → Course.Under p top turns c.cursor
  depth_le : c.cursor.depth ≤ c.buffer.length

/-- How a machine changes while it stays on course. -/
inductive Advances (p : Parser) (c : Configuration σ (Trie Decision)) :
    List Turn → Configuration σ (Trie Decision) → List Turn → Prop where
  | look {turns : List Turn} (cursor : Cursor (Trie Decision)) :
      Advances p c turns { c with cursor := cursor } turns
  | shift {s : Symbol} {turns : List Turn} {token : Token} {rest : List Token}
      (landing : Landing Nat) (cursor : Cursor (Trie Decision)) : c.buffer = token :: rest →
      Advances p c (.shift s :: turns) ⟨StateStack.shift c.stack token landing, rest, cursor⟩ turns
  | reduce {q last : Nat} {turns : List Turn} (landing : Landing Nat)
      (cursor : Cursor (Trie Decision)) :
      (p.productions.property q).count = p.productions.length q →
      StateStack.peek c.stack (p.productions.property q).count = some last →
      Advances p c (.reduce q :: turns)
        ⟨StateStack.reduce c.stack (p.productions.property q) landing, c.buffer, cursor⟩ turns
  | accept : Advances p c [] { c with stack := StateStack.accept c.stack } []

/-- The symbols of turns that the end of input closes are closed by it, too. -/
theorem Course.getLast?_word (h : p.Course nodes (turn :: turns)) :
    (Turn.word (turn :: turns)).getLast? = some .endOfInput := by
  obtain ⟨init, hinit⟩ := List.getLast?_eq_some_iff.1 (h.closed (List.cons_ne_nil _ _))
  rw [hinit, Turn.word_append]
  exact List.getLast?_concat

theorem Course.closed_tail (h : p.Course nodes (turn :: turns)) (hne : turns ≠ []) :
    turns.getLast? = some (.shift .endOfInput) := by
  obtain ⟨next, rest, rfl⟩ := List.exists_cons_of_ne_nil hne
  have hclosed := h.closed (List.cons_ne_nil _ _)
  rw [List.getLast?_cons_cons] at hclosed
  exact hclosed

/-- A course has a topmost node. -/
theorem Course.exists_top (h : p.Course nodes turns) : ∃ top below, nodes = top :: below :=
  List.exists_cons_of_ne_nil h.path.ne_nil

/-- The root of the node that a machine enters. -/
theorem Compiled.exists_root (hp : p.Compiled start) {n : Nat} (hn : n < p.automaton.count) :
    ∃ root, p.table.root n = .ok root := by
  obtain ⟨node, hnode, -, -⟩ := hp.exists_node hn
  exact ⟨node.trie, map_eq_ok.2 ⟨node, hnode, rfl⟩⟩

/-- The node that accepts does so without looking at the input. -/
theorem Compiled.always_of_accepting (hp : p.Compiled start) {top : Nat} {stack : List Nat}
    (hi : (⟨0, p.productions.length 0⟩ : Item) ∈ p.automaton.items top)
    (hpath : p.automaton.Path (top :: stack)) :
    p.table.always top = .ok (some 0) ∧ p.table.root top = .ok .done ∧
      ∃ r, (p.automaton.reductions top)[0]? = some r ∧ r.production = 0 := by
  obtain ⟨r, hone, hzero, hnoedge⟩ := hp.realises.accepting hp.wellFormed hi hpath
  obtain ⟨node, hnode, hfor, -⟩ := hp.exists_node (hpath.lt_count hp.realises)
  cases hfor with
  | reduces _ _ halways htrie =>
      exact ⟨map_eq_ok.2 ⟨node, hnode, halways⟩, map_eq_ok.2 ⟨node, hnode, htrie⟩, r,
        by rw [hone]; rfl, hzero⟩
  | shifts hnone _ _ =>
      rw [hone] at hnone
      cases hnone
  | settled hcontested _ _ => exact absurd hnoedge (hcontested r hone)

namespace OnCourse

variable [LawfulStack σ Nat]

omit [LawfulStack σ Nat] in
/-- A machine at the root of a node is on course if its stack and its buffer are. -/
theorem of_root {stack : σ} {buffer : List Token} {top : Nat} {below : List Nat}
    {root : Trie Decision} (hshows : Shows stack (top :: below))
    (hcourse : p.Course (top :: below) turns) (hroot : p.table.root top = .ok root)
    (hrunning : StateStack.isAccepted stack = false)
    (hword : buffer.map (·.symbol) ++ ahead = Turn.word turns) :
    p.OnCourse ⟨stack, buffer, ⟨root, 0⟩⟩ turns ahead where
  nodes := ⟨_, hshows, hcourse⟩
  running := hrunning
  word := hword
  cursor top' htop' := by
    obtain rfl : top = top' := Option.some.inj ((hshows 0).symm.trans htop')
    exact .root hroot
  depth_le := Nat.zero_le _

/-- A shift leaves the machine on course. -/
theorem perform_shift (hp : p.Compiled start) {s : Symbol}
    (h : p.OnCourse c (.shift s :: turns) ahead) {top target : Nat} {predict : Bool}
    (htop : StateStack.peek c.stack 0 = some top) (hshift : p.automaton.shift top s = some target)
    (hbuffer : c.buffer ≠ []) :
    ∃ c', Machine.Moves p.table c top (.shift target predict) c' ∧
      p.Advances c (.shift s :: turns) c' turns ∧ p.OnCourse c' turns ahead := by
  obtain ⟨nodes, hshows, hcourse⟩ := h.nodes
  obtain ⟨top', below, rfl⟩ := hcourse.exists_top
  obtain rfl : top' = top := Option.some.inj ((hshows 0).symm.trans htop)
  obtain ⟨last, stack, hrun, hlast⟩ := hcourse.run
  obtain ⟨token, rest, hb⟩ := List.exists_cons_of_ne_nil hbuffer
  cases hrun with
  | @shift _ _ _ _ e he hterm hrest =>
      have hedge := (hp.realises.shift_eq_some_iff hterm).2 ⟨e, he, rfl, rfl⟩
      obtain rfl : target = e.target := Option.some.inj (hshift.symm.trans hedge)
      have hpath := hcourse.path.push he
      obtain ⟨root, hroot⟩ := hp.exists_root (hpath.lt_count hp.realises)
      refine ⟨_, .shift hb hroot, .shift _ _ hb, of_root (hshows.shift token _)
        ⟨hpath, ⟨last, stack, hrest, hlast⟩, hcourse.closed_tail⟩ hroot ?_ ?_⟩
      · rw [LawfulStack.isAccepted_shift]
        exact h.running
      · have hword := h.word
        rw [hb, List.map_cons, List.cons_append, Turn.word_shift] at hword
        exact (List.cons.inj hword).2

/-- A reduction leaves the machine on course. -/
theorem perform_reduce (hp : p.Compiled start) {r : Reduction}
    (h : p.OnCourse c (.reduce r.production :: turns) ahead) {top index : Nat}
    (htop : StateStack.peek c.stack 0 = some top)
    (hindex : (p.automaton.reductions top)[index]? = some r) :
    ∃ c', Machine.Moves p.table c top (.reduce index) c' ∧
      p.Advances c (.reduce r.production :: turns) c' turns ∧ p.OnCourse c' turns ahead := by
  obtain ⟨nodes, hshows, hcourse⟩ := h.nodes
  obtain ⟨top', below, rfl⟩ := hcourse.exists_top
  obtain rfl : top' = top := Option.some.inj ((hshows 0).symm.trans htop)
  obtain ⟨last, stack, hrun, hlast⟩ := hcourse.run
  cases hrun with
  | @reduce _ _ first target _ _ _ hq hi hf htuple hrest =>
      have hlt : r.production < p.productions.count := (hp.realises.holds hi).1
      have hcount := p.productions.count_property hlt
      have htuples := (hp.realises.mem_reductions_iff.1 (List.mem_of_getElem? hindex)).2
      have hpath := Automaton.Follows.path_reduce hp.realises hp.wellFormed hcourse.path hf htuple
      obtain ⟨root, hroot⟩ := hp.exists_root (hpath.lt_count hp.realises)
      have hpeek : StateStack.peek c.stack (p.productions.property r.production).count =
          some first := by
        rw [hshows, hcount]
        exact hf
      have hrejects : (p.productions.property r.production).accepts = false := by
        refine Bool.eq_false_iff.2 fun hacc => hq ?_
        exact (hp.wellFormed.property_accepts_iff hlt).1 hacc
      have hlanding : p.table.landing top' index first =
          .ok (some ⟨target, p.announces target⟩) :=
        hp.landing_eq_ok.2 ⟨r, hindex, by rw [htuples]; exact htuple, rfl⟩
      have hshows' := hshows.reduce (p.productions.property r.production)
        ⟨target, p.announces target⟩
      rw [hcount] at hshows'
      refine ⟨_, .reduce (hp.property_eq_ok.2 ⟨r, hindex, rfl⟩) hrejects hpeek hlanding hroot,
        .reduce _ _ hcount hpeek, of_root hshows'
        ⟨hpath, ⟨last, stack, hrest, hlast⟩, hcourse.closed_tail⟩ hroot ?_ h.word⟩
      rw [LawfulStack.isAccepted_reduce]
      exact h.running

/-- **Carrying out the right decision** leaves the machine on course for the turns
that are left. -/
theorem perform (hp : p.Compiled start) (h : p.OnCourse c (turn :: turns) ahead) {top : Nat}
    (htop : StateStack.peek c.stack 0 = some top) {decision : Decision}
    (hd : decision.Performs p top turn)
    (hbuffer : (∃ s, turn = .shift s) → c.buffer ≠ []) :
    ∃ c', Machine.Moves p.table c top (actionOf (.settled decision)) c' ∧
      p.Advances c (turn :: turns) c' turns ∧ p.OnCourse c' turns ahead := by
  cases hd with
  | shift hshift => exact h.perform_shift hp htop hshift (hbuffer ⟨_, rfl⟩)
  | reduce hindex => exact h.perform_reduce hp htop hindex

/-- When no turn is left, the machine accepts. -/
theorem accept (hp : p.Compiled start) (h : p.OnCourse c [] ahead) :
    ∃ c', Machine.step p.table c = .ok (.moved c') ∧ p.Advances c [] c' [] ∧
      StateStack.isAccepted c'.stack = true ∧ c'.buffer = [] ∧ ahead = [] := by
  obtain ⟨nodes, hshows, hcourse⟩ := h.nodes
  obtain ⟨last, stack, hrun, hlast⟩ := hcourse.run
  cases hrun with
  | done =>
      obtain ⟨halways, -, r, hindex, hzero⟩ := hp.always_of_accepting hlast hcourse.path
      have hempty : c.buffer = [] ∧ ahead = [] := by
        have hword := h.word
        rw [Turn.word_nil, List.append_eq_nil_iff, List.map_eq_nil_iff] at hword
        exact hword
      have hdepth : c.cursor.depth = 0 := by
        have := h.depth_le
        rw [hempty.1] at this
        exact Nat.le_zero.1 this
      have hlt : r.production < p.productions.count := by
        rw [hzero]
        exact (hp.realises.holds hlast).1
      have hmoved := Machine.step_eq_moved.2 ⟨h.running, last, _, hshows 0, .always hdepth halways,
        .accept (hp.property_eq_ok.2 ⟨r, hindex, rfl⟩)
          ((hp.wellFormed.property_accepts_iff hlt).2 hzero)⟩
      exact ⟨_, hmoved, .accept, LawfulStack.isAccepted_accept _, hempty.1, hempty.2⟩

omit [LawfulStack σ Nat] in
/-- The level under the cursor of a node that has to look decides for the first
turn. -/
theorem decides (hp : p.Compiled start) (h : p.OnCourse c (turn :: turns) ahead) {top : Nat}
    (htop : StateStack.peek c.stack 0 = some top) :
    (∃ index, c.cursor.depth = 0 ∧ p.table.always top = .ok (some index) ∧
      (Decision.reduce index).Performs p top turn) ∨
    ((c.cursor.depth = 0 → p.table.always top = .ok none) ∧ ∃ decision : Decision,
      decision.Performs p top turn ∧
      c.cursor.level.Decides ((Turn.word (turn :: turns)).drop c.cursor.depth) decision) := by
  obtain ⟨nodes, hshows, hcourse⟩ := h.nodes
  obtain ⟨top', below, rfl⟩ := hcourse.exists_top
  have heq : top' = top := Option.some.inj ((hshows 0).symm.trans htop)
  subst heq
  obtain ⟨last, stack, hrun, -⟩ := hcourse.run
  have hunder := h.cursor top' htop
  obtain ⟨stack', buffer, cursor⟩ := c
  dsimp only at hunder ⊢
  cases hunder with
  | root hroot =>
      obtain ⟨node, decision, hnode, hperforms, hwhen⟩ :=
        hp.decides hcourse.path hrun hcourse.getLast?_word
      obtain ⟨node', hnode', rfl⟩ := map_eq_ok.1 hroot
      rw [hnode, Except.ok.injEq] at hnode'
      subst hnode'
      rcases hwhen with ⟨index, halways, rfl⟩ | ⟨halways, hdecides⟩
      · exact .inl ⟨index, rfl, map_eq_ok.2 ⟨node, hnode, halways⟩, hperforms⟩
      · exact .inr ⟨fun _ => map_eq_ok.2 ⟨node, hnode, halways⟩, decision, hperforms, hdecides⟩
  | within hturns hperforms hdecides hpos =>
      rw [List.cons.injEq] at hturns
      rw [← hturns.1] at hperforms
      exact .inr ⟨fun hzero => absurd hzero (Nat.ne_of_gt hpos), _, hperforms, hdecides⟩

omit [LawfulStack σ Nat] in
/-- The symbol under the cursor is the next of the word that is to be shifted. -/
theorem symbol_under_cursor (h : p.OnCourse c turns ahead) {token : Token}
    (hb : c.buffer[c.cursor.depth]? = some token) :
    ∃ rest, (Turn.word turns).drop c.cursor.depth = token.symbol :: rest := by
  have hlt := (List.getElem?_eq_some_iff.1 hb).1
  have hget : (Turn.word turns)[c.cursor.depth]? = some token.symbol := by
    rw [← h.word, List.getElem?_append_left (by rw [List.length_map]; exact hlt),
      List.getElem?_map, hb]
    rfl
  exact exists_drop_eq_cons hget

/-- **One move of a machine on course.**  It carries out a turn, looks at one more
symbol, or waits for a symbol that is still ahead. -/
theorem step (hp : p.Compiled start) (h : p.OnCourse c (turn :: turns) ahead) :
    (∃ c', Machine.step p.table c = .ok (.moved c') ∧ p.Advances c (turn :: turns) c' turns ∧
      p.OnCourse c' turns ahead) ∨
    (∃ c', Machine.step p.table c = .ok (.moved c') ∧
      p.Advances c (turn :: turns) c' (turn :: turns) ∧ p.OnCourse c' (turn :: turns) ahead ∧
      c'.buffer = c.buffer ∧ c.cursor.depth < c'.cursor.depth) ∨
    (Machine.step p.table c = .ok .waiting ∧ ahead ≠ []) := by
  obtain ⟨nodes, hshows, hcourse⟩ := h.nodes
  obtain ⟨top, below, rfl⟩ := hcourse.exists_top
  have htop : StateStack.peek c.stack 0 = some top := hshows 0
  rcases h.decides hp htop with ⟨index, hdepth, halways, hperforms⟩ |
    ⟨halways, decision, hperforms, hdecides⟩
  · -- the node reduces without looking at the input
    obtain ⟨c', hmoves, hadvances, hcourse'⟩ := h.perform hp htop hperforms (by
      rintro ⟨s, rfl⟩
      cases hperforms)
    exact .inl ⟨c', Machine.step_eq_moved.2
      ⟨h.running, top, _, htop, .always hdepth halways, hmoves⟩, hadvances, hcourse'⟩
  · cases hb : c.buffer[c.cursor.depth]? with
    | none =>
        refine .inr (.inr ⟨Machine.step_of_waits h.running htop halways hb, ?_⟩)
        rintro rfl
        have hlen := List.getElem?_eq_none_iff.1 hb
        have hword := h.word
        rw [List.append_nil] at hword
        rw [← hword, List.drop_eq_nil_of_le (by rw [List.length_map]; exact hlen)] at hdecides
        cases hdecides
    | some token =>
        obtain ⟨rest, hrest⟩ := h.symbol_under_cursor hb
        rw [hrest] at hdecides
        cases hdecides with
        | here hfind =>
            obtain ⟨c', hmoves, hadvances, hcourse'⟩ := h.perform hp htop hperforms (by
              rintro - hnil
              rw [hnil] at hb
              cases hb)
            refine .inl ⟨c', Machine.step_eq_moved.2 ⟨h.running, top, _, htop, .found halways hb ?_,
              hmoves⟩, hadvances, hcourse'⟩
            exact congrArg Except.ok (congrArg (Option.map actionOf) hfind)
        | @deeper _ below _ _ _ hfind hdecides =>
            refine .inr (.inl ⟨_, Machine.step_eq_moved.2 ⟨h.running, top, .descend below, htop,
              .found halways hb ?_, .descend⟩, .look _, ?_, rfl, Nat.lt_succ_self _⟩)
            · exact congrArg Except.ok (congrArg (Option.map actionOf) hfind)
            · refine ⟨h.nodes, h.running, h.word, fun top' htop' => ?_,
                (List.getElem?_eq_some_iff.1 hb).1⟩
              obtain rfl : top = top' := Option.some.inj (htop.symm.trans htop')
              refine .within rfl hperforms ?_ (Nat.succ_pos _)
              rw [← List.tail_drop, hrest]
              exact hdecides

/-- **A run of a machine on course** comes to an end without stalling.  Either the
machine is still on course and waits for a symbol that is ahead, or it has carried
out all turns and accepted. -/
theorem run (hp : p.Compiled start) {Q : Configuration σ (Trie Decision) → List Turn → Prop}
    (hQ : ∀ {c c' turns turns'}, p.Advances c turns c' turns' → Q c turns → Q c' turns')
    (c : Configuration σ (Trie Decision)) (turns : List Turn) (h : p.OnCourse c turns ahead)
    (hq : Q c turns) :
    ∃ moves c' turns', Machine.run p.table moves c = .ok (c', none) ∧ Q c' turns' ∧
      ((p.OnCourse c' turns' ahead ∧ ahead ≠ []) ∨
        (turns' = [] ∧ StateStack.isAccepted c'.stack = true ∧ c'.buffer = [] ∧ ahead = [])) :=
  match turns, h, hq with
  | [], h, hq => by
    obtain ⟨c', hstep, hadvances, haccepted, hbuffer, hahead⟩ := h.accept hp
    have hwaiting : Machine.step p.table c' = .ok .waiting := by
      rw [Machine.step_of_accepted haccepted, hbuffer]
      rfl
    refine ⟨2, c', [], ?_, hQ hadvances hq, .inr ⟨rfl, haccepted, hbuffer, hahead⟩⟩
    rw [Machine.run_of_moved hstep, Machine.run_of_waiting hwaiting]
  | turn :: turns, h, hq => by
    rcases h.step hp with ⟨c', hstep, hadvances, h'⟩ | ⟨c', hstep, hadvances, h', hb, hdepth⟩ |
      ⟨hwaiting, hahead⟩
    · obtain ⟨moves, last, rest, hrun, hlast⟩ := run hp hQ c' turns h' (hQ hadvances hq)
      exact ⟨moves + 1, last, rest, (Machine.run_of_moved hstep).trans hrun, hlast⟩
    · have hle := h'.depth_le
      obtain ⟨moves, last, rest, hrun, hlast⟩ := run hp hQ c' (turn :: turns) h' (hQ hadvances hq)
      exact ⟨moves + 1, last, rest, (Machine.run_of_moved hstep).trans hrun, hlast⟩
    · exact ⟨1, c, turn :: turns, Machine.run_of_waiting hwaiting, hq, .inl ⟨h, hahead⟩⟩
termination_by (turns.length, c.buffer.length - c.cursor.depth)
decreasing_by
  · exact Prod.Lex.left _ _ (Nat.lt_succ_self _)
  · refine Prod.Lex.right _ ?_
    rw [hb] at hle ⊢
    omega

end OnCourse
end Parser
end BoundedLR
