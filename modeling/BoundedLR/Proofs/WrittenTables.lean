import Mathlib.Data.List.Nodup
import BoundedLR.Proofs.StoredContents
import BoundedLR.Proofs.TableReads
import BoundedLR.Proofs.TrieLevels

/-!
# What is written

A parser is stored record by record, each record at the place that its layout
gives it.  This module says what the contents of the records are, and that the
numbers of `Parser.cells` are the words of these contents.

Two things are not literally copied.  References become places, and within a level
the entries are sorted by the codes of their symbols.  Since the codes of distinct
symbols are distinct, a level that lists no symbol twice is stored with ascending
codes (`sorted_storedLevel`), which is what a look-up needs.
-/

namespace BoundedLR

/-! ## Sorting by code -/

namespace StoredEntry

theorem insertByCode_perm (e : StoredEntry) (entries : List StoredEntry) :
    (e.insertByCode entries).Perm (e :: entries) := by
  induction entries with
  | nil => exact List.Perm.refl _
  | cons f rest ih =>
      rw [insertByCode]
      by_cases hle : e.symbol ≤ f.symbol
      · rw [if_pos hle]
      · rw [if_neg hle]
        exact (ih.cons f).trans (List.Perm.swap e f rest)

theorem sortByCode_perm (entries : List StoredEntry) : (sortByCode entries).Perm entries := by
  induction entries with
  | nil => exact List.Perm.refl _
  | cons e rest ih => exact (insertByCode_perm e _).trans (ih.cons e)

theorem pairwise_insertByCode {e : StoredEntry} {entries : List StoredEntry}
    (h : entries.Pairwise fun e f => e.symbol ≤ f.symbol) :
    (e.insertByCode entries).Pairwise fun e f => e.symbol ≤ f.symbol := by
  induction entries with
  | nil => exact List.pairwise_singleton _ e
  | cons f rest ih =>
      rw [List.pairwise_cons] at h
      rw [insertByCode]
      by_cases hle : e.symbol ≤ f.symbol
      · rw [if_pos hle]
        refine List.pairwise_cons.2 ⟨fun d hd => ?_, List.pairwise_cons.2 h⟩
        rcases List.mem_cons.1 hd with rfl | hd
        · exact hle
        · exact Nat.le_trans hle (h.1 d hd)
      · rw [if_neg hle]
        refine List.pairwise_cons.2 ⟨fun d hd => ?_, ih h.2⟩
        rcases List.mem_cons.1 ((insertByCode_perm e rest).mem_iff.1 hd) with rfl | hd
        · omega
        · exact h.1 d hd

/-- Sorted entries stand in the order of their codes. -/
theorem pairwise_sortByCode (entries : List StoredEntry) :
    (sortByCode entries).Pairwise fun e f => e.symbol ≤ f.symbol := by
  induction entries with
  | nil => exact List.Pairwise.nil
  | cons e rest ih => exact pairwise_insertByCode ih

/-- What an entry says. -/
def content (e : StoredEntry) : Symbol × Action Nat Nat :=
  ((Symbol.ofCode? e.symbol).getD .endOfInput, Table.actionOf e.kind e.value)

end StoredEntry

/-! ## Levels -/

/-- The action that an entry of a row stands for. -/
def storedAction (places : Placement) : Trie.RowEntry Decision → Action Nat Nat
  | .level number => .descend (places.level number)
  | .settled (.shift target predict) => .shift (places.node target) predict
  | .settled (.reduce index) => .reduce index

/-- The contents of the level that is written for a row. -/
def storedLevel (places : Placement) (row : List (Symbol × Trie.RowEntry Decision)) :
    StoredLevel :=
  (StoredEntry.sortByCode (row.map fun (s, e) => storedEntry places s e)).map StoredEntry.content

section Levels

variable {places : Placement} {row : List (Symbol × Trie.RowEntry Decision)}

theorem storedEntry_eq (places : Placement) (s : Symbol) (e : Trie.RowEntry Decision) :
    storedEntry places s e =
      ⟨s.code, (storedAction places e).kind, (storedAction places e).value⟩ := by
  rcases e with (⟨target, predict⟩ | index) | number
  · cases predict <;> rfl
  · rfl
  · rfl

theorem content_storedEntry (places : Placement) (s : Symbol) (e : Trie.RowEntry Decision) :
    (storedEntry places s e).content = (s, storedAction places e) := by
  rw [storedEntry_eq, StoredEntry.content, Symbol.ofCode?_code, Table.actionOf_kind_value]
  rfl

/-- Sorting changes the order only. -/
theorem storedLevel_perm (places : Placement) (row : List (Symbol × Trie.RowEntry Decision)) :
    (storedLevel places row).Perm (row.map fun (s, e) => (s, storedAction places e)) := by
  have h := (StoredEntry.sortByCode_perm (row.map fun (s, e) => storedEntry places s e)).map
    StoredEntry.content
  have hmap : (row.map fun (s, e) => storedEntry places s e).map StoredEntry.content =
      row.map fun (s, e) => (s, storedAction places e) := by
    rw [List.map_map]
    exact List.map_congr_left fun x _ => content_storedEntry places x.1 x.2
  rw [hmap] at h
  exact h

@[simp] theorem length_storedLevel : (storedLevel places row).length = row.length := by
  rw [(storedLevel_perm places row).length_eq, List.length_map]

theorem mem_storedLevel {s : Symbol} {a : Action Nat Nat} :
    (s, a) ∈ storedLevel places row ↔ ∃ e, (s, e) ∈ row ∧ storedAction places e = a := by
  rw [(storedLevel_perm places row).mem_iff, List.mem_map]
  constructor
  · rintro ⟨⟨r, e⟩, he, heq⟩
    cases heq
    exact ⟨e, he, rfl⟩
  · rintro ⟨e, he, rfl⟩
    exact ⟨(s, e), he, rfl⟩

theorem symbols_storedLevel_perm :
    ((storedLevel places row).map (·.1)).Perm (row.map (·.1)) := by
  have h := (storedLevel_perm places row).map Prod.fst
  rw [List.map_map] at h
  exact h

/-- Every entry that is sorted is one of a row. -/
theorem exists_of_mem_sortByCode {x : StoredEntry}
    (h : x ∈ StoredEntry.sortByCode (row.map fun (s, e) => storedEntry places s e)) :
    ∃ s e, x = storedEntry places s e := by
  obtain ⟨⟨s, e⟩, -, rfl⟩ := List.mem_map.1 ((StoredEntry.sortByCode_perm _).mem_iff.1 h)
  exact ⟨s, e, rfl⟩

/-- **A level that lists no symbol twice is stored with ascending codes.** -/
theorem sorted_storedLevel (hn : (row.map (·.1)).Nodup) :
    Table.Sorted (storedLevel places row) := by
  have hle : (storedLevel places row).Pairwise fun e f => e.1.code ≤ f.1.code := by
    refine List.pairwise_map.2 ((StoredEntry.pairwise_sortByCode _).imp_of_mem ?_)
    intro x y hx hy hxy
    obtain ⟨s, e, rfl⟩ := exists_of_mem_sortByCode hx
    obtain ⟨r, f, rfl⟩ := exists_of_mem_sortByCode hy
    rw [content_storedEntry, content_storedEntry]
    rw [storedEntry_eq, storedEntry_eq] at hxy
    exact hxy
  have hne : (storedLevel places row).Pairwise fun e f => e.1 ≠ f.1 :=
    List.pairwise_map.1 (symbols_storedLevel_perm.nodup_iff.2 hn)
  refine (hle.and hne).imp fun {e f} h => Nat.lt_of_le_of_ne h.1 fun heq => h.2 ?_
  exact Table.code_injective heq

/-- The numbers of a level are the words of its contents. -/
theorem rowCells_eq_words : (rowCells places row).map Cell.value =
    levelWords (storedLevel places row) := by
  rw [rowCells, levelWords, List.map_cons, length_storedLevel, storedLevel, List.flatMap_map,
    List.map_flatMap]
  refine congrArg _ ?_
  refine List.flatMap_congr fun x hx => ?_
  obtain ⟨s, e, rfl⟩ := exists_of_mem_sortByCode hx
  rw [content_storedEntry, storedEntry_eq]
  rfl

end Levels

/-! ## Reductions -/

/-- The contents of the reduction that is written. -/
def NodeReduction.stored (places : Placement) (r : NodeReduction) : StoredReduction :=
  ⟨r.property.head, r.property.rule, r.property.count, r.property.mask.toNat, r.property.predict,
    r.tuples.map fun t => ⟨places.node t.last, places.node t.target, t.predict⟩⟩

namespace NodeReduction

variable (places : Placement) (r : NodeReduction)

theorem property_stored : (r.stored places).property = r.property := by
  simp only [stored, StoredReduction.property, UInt64.ofNat_toNat]

theorem size_stored : (r.stored places).size = Layout.reductionSize r.tuples.length := by
  rw [StoredReduction.size, stored, List.length_map]

/-- The numbers of a reduction are the words of its contents. -/
theorem cells_eq_words : (r.cells places).map Cell.value = (r.stored places).words := by
  rw [cells, StoredReduction.words, List.map_append, List.map_flatMap]
  simp only [stored, List.length_map, List.flatMap_map]
  rfl

end NodeReduction

/-! ## Nodes -/

namespace Node

/-- Where the records are that a node refers to. -/
def places (nodeAt : Nat → Nat) (layout : NodeLayout) : Placement :=
  ⟨nodeAt, fun number => layout.levels.getD number 0⟩

/-- The contents of the node that is written. -/
def stored (nodeAt : Nat → Nat) (layout : NodeLayout) (n : Node) : StoredNode :=
  ⟨n.trie.rows.map (storedLevel (places nodeAt layout)), n.always, n.lookahead,
    n.reductions.map (NodeReduction.stored (places nodeAt layout))⟩

variable (nodeAt : Nat → Nat) (layout : NodeLayout) (n : Node) (offset : Nat)

theorem levelSizes_stored : (n.stored nodeAt layout).levels.map levelSize = n.levelSizes := by
  rw [stored, List.map_map, levelSizes]
  refine List.map_congr_left fun row _ => ?_
  rw [Function.comp_apply, levelSize, length_storedLevel]

theorem reductionSizes_stored :
    (n.stored nodeAt layout).reductions.map StoredReduction.size = n.reductionSizes := by
  rw [stored, List.map_map, reductionSizes]
  exact List.map_congr_left fun r _ => NodeReduction.size_stored _ r

theorem root_stored : (n.stored nodeAt layout).root offset =
    offset + Layout.nodeHead + n.reductions.length := by
  rw [StoredNode.root, stored, List.length_map]

theorem levelOffsets_stored :
    (n.stored nodeAt layout).levelOffsets offset = (n.layout offset).levels := by
  rw [StoredNode.levelOffsets, levelSizes_stored, root_stored]
  rfl

theorem reductionOffsets_stored :
    (n.stored nodeAt layout).reductionOffsets offset = (n.layout offset).reductions := by
  rw [StoredNode.reductionOffsets, StoredNode.reductionStart, levelSizes_stored, root_stored,
    reductionSizes_stored]
  rfl

theorem size_stored : offset + (n.stored nodeAt layout).size = (n.layout offset).stop := by
  rw [StoredNode.size, levelSizes_stored, reductionSizes_stored, stored, List.length_map,
    Node.layout]
  dsimp only
  omega

/-- The numbers of a node are the words of its contents. -/
theorem cells_eq_words : (n.cells nodeAt (n.layout offset)).map Cell.value =
    (n.stored nodeAt (n.layout offset)).words offset := by
  rw [StoredNode.words, reductionOffsets_stored, cells]
  simp only [stored, List.map_append, List.length_map, List.flatMap_map, List.map_flatMap,
    List.append_assoc, List.map_map]
  refine congrArg _ (congrArg₂ _ ?_ (congrArg₂ _ ?_ ?_))
  · exact List.map_id _
  · exact List.flatMap_congr fun row _ => rowCells_eq_words
  · exact List.flatMap_congr fun r _ => NodeReduction.cells_eq_words _ r

end Node

/-! ## Tables -/

/-- The contents of nodes that are written one behind the other. -/
def storedNodesFrom (nodeAt : Nat → Nat) (offset : Nat) (nodes : List Node) : List StoredNode :=
  (nodes.zip (layoutsFrom offset nodes)).map fun (n, layout) => n.stored nodeAt layout

section Nodes

variable (nodeAt : Nat → Nat) (offset : Nat) (nodes : List Node)

theorem storedNodesFrom_cons (n : Node) :
    storedNodesFrom nodeAt offset (n :: nodes) =
      n.stored nodeAt (n.layout offset) :: storedNodesFrom nodeAt (n.layout offset).stop nodes :=
  rfl

theorem length_layoutsFrom : (layoutsFrom offset nodes).length = nodes.length := by
  induction nodes generalizing offset with
  | nil => rfl
  | cons n rest ih => exact congrArg (· + 1) (ih _)

theorem length_storedNodesFrom : (storedNodesFrom nodeAt offset nodes).length = nodes.length := by
  rw [storedNodesFrom, List.length_map, List.length_zip, length_layoutsFrom, Nat.min_self]

/-- Each node is written where its layout begins. -/
theorem offsetsFrom_storedNodesFrom :
    Layout.offsetsFrom offset ((storedNodesFrom nodeAt offset nodes).map StoredNode.size) =
      (layoutsFrom offset nodes).map (·.offset) := by
  induction nodes generalizing offset with
  | nil => rfl
  | cons n rest ih =>
      rw [storedNodesFrom_cons, List.map_cons, Layout.offsetsFrom, Node.size_stored, ih]
      rfl

theorem levelOffsetsFrom_storedNodesFrom :
    levelOffsetsFrom offset (storedNodesFrom nodeAt offset nodes) =
      (layoutsFrom offset nodes).flatMap (·.levels) := by
  induction nodes generalizing offset with
  | nil => rfl
  | cons n rest ih =>
      rw [storedNodesFrom_cons, levelOffsetsFrom, Node.size_stored, ih, Node.levelOffsets_stored]
      rfl

/-- The numbers of nodes are the words of their contents. -/
theorem flatMap_cells_eq_words :
    ((nodes.zip (layoutsFrom offset nodes)).flatMap fun (n, layout) =>
        n.cells nodeAt layout).map Cell.value =
      nodesWords offset (storedNodesFrom nodeAt offset nodes) := by
  induction nodes generalizing offset with
  | nil => rfl
  | cons n rest ih =>
      rw [storedNodesFrom_cons, nodesWords, Node.size_stored, ← ih, ← Node.cells_eq_words,
        ← List.map_append]
      rfl

/-- The layout of a node among nodes that are written one behind the other. -/
theorem getElem?_layoutsFrom {k : Nat} {n : Node} (hn : nodes[k]? = some n) :
    ∃ place, (layoutsFrom offset nodes)[k]? = some (n.layout place) := by
  induction nodes generalizing offset k with
  | nil => cases hn
  | cons first rest ih =>
      cases k with
      | zero =>
          cases hn
          exact ⟨offset, rfl⟩
      | succ k => exact ih _ hn

end Nodes

namespace Parser

variable {p : Parser}

/-- Where the nodes of a parser are stored. -/
def nodeAt (p : Parser) (n : Nat) : Nat := (p.layouts.map (·.offset)).toArray.getD n 0

/-- The contents of the table of a parser. -/
def storedNodes (p : Parser) : List StoredNode :=
  storedNodesFrom p.nodeAt Layout.header p.nodes.toList

theorem nodeOffsets_storedNodes : nodeOffsets p.storedNodes = p.layouts.map (·.offset) :=
  offsetsFrom_storedNodesFrom p.nodeAt Layout.header p.nodes.toList

/-- The numbers of a table are the words of its contents. -/
theorem cells_eq_words : p.cells.map Cell.value =
    [p.nodes.size, Layout.header] ++ nodesWords Layout.header p.storedNodes := by
  rw [storedNodes, ← flatMap_cells_eq_words]
  rfl

/-- A node is stored at the offset of its layout. -/
theorem exists_layout {k : Nat} {n : Node} (hn : p.nodes[k]? = some n) :
    ∃ offset, (nodeOffsets p.storedNodes)[k]? = some offset ∧ p.nodeAt k = offset ∧
      p.layouts[k]? = some (n.layout offset) ∧
      p.storedNodes[k]? = some (n.stored p.nodeAt (n.layout offset)) := by
  rw [← Array.getElem?_toList] at hn
  obtain ⟨offset, hlayout⟩ := getElem?_layoutsFrom Layout.header p.nodes.toList hn
  have hoffset : (p.layouts.map (·.offset))[k]? = some offset := by
    rw [List.getElem?_map, layouts, hlayout]
    rfl
  refine ⟨offset, ?_, ?_, hlayout, ?_⟩
  · rw [nodeOffsets_storedNodes]
    exact hoffset
  · rw [nodeAt, Array.getD_eq_getD_getElem?, List.getElem?_toArray, hoffset]
    rfl
  · rw [storedNodes, storedNodesFrom, List.getElem?_map]
    have hzip : (p.nodes.toList.zip (layoutsFrom Layout.header p.nodes.toList))[k]? =
        some (n, n.layout offset) := by
      rw [List.getElem?_zip_eq_some]
      exact ⟨hn, hlayout⟩
    rw [hzip]
    rfl

theorem mem_nodeOffsets {k : Nat} (hk : k < p.nodes.size) :
    p.nodeAt k ∈ nodeOffsets p.storedNodes := by
  obtain ⟨offset, hoffset, rfl, -, -⟩ := p.exists_layout (Array.getElem?_eq_getElem hk)
  exact List.mem_of_getElem? hoffset

/-- Distinct nodes are stored at distinct places. -/
theorem nodeAt_injective {k k' : Nat} (hk : k < p.nodes.size) (hk' : k' < p.nodes.size)
    (h : p.nodeAt k = p.nodeAt k') : k = k' := by
  obtain ⟨offset, hoffset, rfl, -, -⟩ := p.exists_layout (Array.getElem?_eq_getElem hk)
  obtain ⟨offset', hoffset', rfl, -, -⟩ := p.exists_layout (Array.getElem?_eq_getElem hk')
  have hnodup : (nodeOffsets p.storedNodes).Nodup := by
    refine Layout.nodup_offsetsFrom (fun size hsize => ?_) Layout.header
    obtain ⟨n, -, rfl⟩ := List.mem_map.1 hsize
    exact n.size_pos
  obtain ⟨hlt, hget⟩ := List.getElem?_eq_some_iff.1 hoffset
  obtain ⟨hlt', hget'⟩ := List.getElem?_eq_some_iff.1 hoffset'
  exact (List.Nodup.getElem_inj_iff hnodup).1 (hget.trans (h.trans hget'.symm))

end Parser

end BoundedLR
