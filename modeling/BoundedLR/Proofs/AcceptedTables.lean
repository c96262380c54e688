import BoundedLR.Proofs.ScannedTables
import BoundedLR.Proofs.TableReads

/-!
# What can be read in an accepted table

A table that has been accepted may still be nonsense, but its references lead
somewhere: what is called a node is where a node begins, and what is called a
level is where a level begins.  So whoever starts at the startup node and goes
where the table says reads nodes where there are nodes and levels where there are
levels.

Nothing is said about which levels belong to which nodes.  The index of a
reduction in a level has been compared with the number of reductions of the node
that the level is stored in, but a reference may lead from any node into that
level.  This is why `HasReduction` is needed below and does not come for free.
-/

namespace BoundedLR
namespace Table

/-- A node of the table begins there. -/
def IsNode (t : Table) (n : Nat) : Prop :=
  ∃ nodes, Contains t.words t.header nodes ∧ n ∈ nodeOffsets nodes

/-- A level of the table begins there. -/
def IsLevel (t : Table) (l : Nat) : Prop :=
  ∃ nodes, Contains t.words t.header nodes ∧ l ∈ levelOffsetsFrom Layout.header nodes

/-- The node has so many reductions that there is one with this index. -/
def HasReduction (t : Table) (n index : Nat) : Prop :=
  ∃ count, t.reductionCount n = .ok count ∧ index < count

variable {t : Table} {n l index : Nat}

theorem isNode_startup (t : Table) : t.IsNode t.header.startup := by
  obtain ⟨nodes, h⟩ := Scan.header_eq_ok.1 t.accepted
  exact ⟨nodes, h, h.startup⟩

/-! ## Nodes -/

/-- Where a node begins, a node is stored whose references are in order. -/
theorem IsNode.exists_stored (h : t.IsNode n) : ∃ node : StoredNode,
    Stores t.words n (node.words n) ∧ node.WellFormed ∧ node.Names t.IsNode t.IsLevel ∧
      ∀ l ∈ node.levelOffsets n, t.IsLevel l := by
  obtain ⟨nodes, h, hn⟩ := h
  obtain ⟨i, hi⟩ := List.mem_iff_getElem?.1 hn
  have hlt : i < nodes.length := by
    have hlt := (List.getElem?_eq_some_iff.1 hi).1
    rwa [nodeOffsets, Layout.length_offsetsFrom, List.length_map] at hlt
  have hnode : nodes[i]? = some nodes[i] := List.getElem?_eq_getElem hlt
  have hmem : nodes[i] ∈ nodes := List.getElem_mem hlt
  refine ⟨nodes[i], stores_node h hnode hi, h.wellFormed _ hmem, ⟨fun level hl e he => ?_,
    fun r hr u hu => ?_⟩, fun l hl => ?_⟩
  · exact ((h.names _ hmem).action level hl e he).imp (fun n hn => ⟨nodes, h, hn⟩)
      fun l hl => ⟨nodes, h, hl⟩
  · obtain ⟨hlast, htarget⟩ := (h.names _ hmem).tuple r hr u hu
    exact ⟨⟨nodes, h, hlast⟩, nodes, h, htarget⟩
  · exact ⟨nodes, h, mem_levelOffsetsFrom.2 ⟨i, _, n, hnode, hi, hl⟩⟩

theorem IsNode.exists_root (h : t.IsNode n) : ∃ l, t.rootLevel n = .ok l ∧ t.IsLevel l := by
  obtain ⟨node, hstored, hwell, -, hlevels⟩ := h.exists_stored
  refine ⟨_, rootLevel_eq_ok hstored, hlevels _ ?_⟩
  obtain ⟨first, rest, hcons⟩ := List.exists_cons_of_ne_nil hwell.levels_ne_nil
  rw [StoredNode.levelOffsets, hcons]
  exact List.mem_cons_self

/-- The reduction that a node performs without looking at the input is its own. -/
theorem IsNode.exists_always (h : t.IsNode n) : ∃ always, t.always n = .ok always ∧
    ∀ index, always = some index → t.HasReduction n index := by
  obtain ⟨node, hstored, hwell, -, -⟩ := h.exists_stored
  exact ⟨_, always_eq_ok hstored, fun index hi =>
    ⟨_, reductionCount_eq_ok hstored, hwell.always_lt index hi⟩⟩

/-- A reduction that a node has can be read. -/
theorem IsNode.exists_reduction (h : t.IsNode n) (hr : t.HasReduction n index) :
    ∃ (place : Nat) (r : StoredReduction), t.reduction n index = .ok place ∧
      Stores t.words place r.words ∧ ∀ u ∈ r.tuples, t.IsNode u.target := by
  obtain ⟨node, hstored, -, hnames, -⟩ := h.exists_stored
  obtain ⟨count, hcount, hlt⟩ := hr
  rw [reductionCount_eq_ok hstored] at hcount
  cases hcount
  obtain ⟨place, hplace, hwords⟩ :=
    reduction_of_getElem? hstored (List.getElem?_eq_getElem hlt)
  exact ⟨place, _, hplace, hwords, fun u hu =>
    (hnames.tuple _ (List.getElem_mem hlt) u hu).2⟩

theorem IsNode.exists_property (h : t.IsNode n) (hr : t.HasReduction n index) :
    ∃ q, t.table.property n index = .ok q := by
  obtain ⟨place, r, hplace, hwords, -⟩ := h.exists_reduction hr
  exact ⟨_, bind_eq_ok.2 ⟨place, hplace, propertyAt_eq_ok hwords⟩⟩

theorem IsNode.exists_landing (h : t.IsNode n) (hr : t.HasReduction n index) (last : Nat) :
    ∃ found, t.table.landing n index last = .ok found ∧
      ∀ landing, found = some landing → t.IsNode landing.target := by
  obtain ⟨place, r, hplace, hwords, htargets⟩ := h.exists_reduction hr
  refine ⟨_, bind_eq_ok.2 ⟨place, hplace, landingAt_eq_ok hwords last⟩, fun landing hl => ?_⟩
  obtain ⟨u, hu, rfl⟩ := Option.map_eq_some_iff.1 hl
  exact htargets u (List.mem_of_find?_eq_some hu)

/-- **A reduction that a node does not have** cannot be read, whatever the node may
be. -/
theorem reduction_of_not_hasReduction (h : ¬t.HasReduction n index) :
    t.reduction n index = .error .outOfBounds := by
  rw [reduction]
  cases hcount : t.reductionCount n with
  | ok count =>
      rw [ok_bind, if_neg fun hlt => h ⟨count, hcount, hlt⟩]
      rfl
  | error e =>
      rw [reductionCount, word] at hcount
      cases hword : t.words[n + 1]? with
      | some w =>
          rw [hword] at hcount
          cases hcount
      | none =>
          rw [hword] at hcount
          cases hcount
          rfl

theorem property_of_not_hasReduction (h : ¬t.HasReduction n index) :
    t.table.property n index = .error .outOfBounds :=
  bind_eq_error.2 (.inl (reduction_of_not_hasReduction h))

/-! ## Levels -/

/-- Where a level begins, a level is stored whose references are in order. -/
theorem IsLevel.exists_stored (h : t.IsLevel l) : ∃ level : StoredLevel,
    Stores t.words l (levelWords level) ∧ ∀ e ∈ level, e.2.Names t.IsNode t.IsLevel := by
  obtain ⟨nodes, h, hl⟩ := h
  obtain ⟨i, node, offset, hnode, ho, hl⟩ := mem_levelOffsetsFrom.1 hl
  obtain ⟨j, hj⟩ := List.mem_iff_getElem?.1 hl
  have hlt : j < node.levels.length := by
    have hlt := (List.getElem?_eq_some_iff.1 hj).1
    rwa [StoredNode.levelOffsets, Layout.length_offsetsFrom, List.length_map] at hlt
  refine ⟨node.levels[j], stores_level (stores_node h hnode ho)
    (List.getElem?_eq_getElem hlt) hj, fun e he => ?_⟩
  have hnames := (h.names node (List.mem_of_getElem? hnode)).action _ (List.getElem_mem hlt) e he
  exact hnames.imp (fun n hn => ⟨nodes, h, hn⟩) fun l hl => ⟨nodes, h, hl⟩

/-- Looking a symbol up returns, and what is found leads to nodes and levels. -/
theorem IsLevel.exists_find (h : t.IsLevel l) (s : Symbol) : ∃ found, t.find l s = .ok found ∧
    ∀ action, found = some action → action.Names t.IsNode t.IsLevel := by
  obtain ⟨level, hstored, hnames⟩ := h.exists_stored
  obtain ⟨found, hfound, hsound, -⟩ := find_spec hstored s
  exact ⟨found, hfound, fun action ha => hnames _ (hsound action ha)⟩

theorem IsLevel.exists_symbols (h : t.IsLevel l) : ∃ xs, t.symbols l = .ok xs := by
  obtain ⟨level, hstored, -⟩ := h.exists_stored
  exact ⟨_, symbols_eq_ok hstored⟩

end Table
end BoundedLR
