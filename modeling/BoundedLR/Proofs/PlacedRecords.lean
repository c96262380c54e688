import BoundedLR.Proofs.WrittenTables

/-!
# Records stand where the layout puts them

A table is written in two passes.  The first adds up sizes and so computes where every
node, every level and every reduction begins (`Parser.layouts`); the second writes one
number after the other and never looks where it is (`Parser.cells`).  The references that
it writes are good only if the two agree.

`Parser.records` puts both together: the numbers that the second pass writes for each
record, at the place that the first pass has computed for it.  `consecutive_records` says
that these records stand one behind the other, without gaps, from the start of the table
to its computed size, and `flatMap_records` that they are all that is written.  So in the
words of a table each record is found at its place, and no two of them overlap
(`Parser.LaidOut`).
-/

namespace BoundedLR

/-! ## Records one behind the other -/

/-- Numbers that are written from a certain place on. -/
structure PlacedRecord where
  offset : Nat
  cells : List Cell

namespace PlacedRecord

/-- The place behind a record. -/
def stop (r : PlacedRecord) : Nat := r.offset + r.cells.length

/-- Records stand one behind the other, from one place to another. -/
def Consecutive : Nat → List PlacedRecord → Nat → Prop
  | start, [], stop => start = stop
  | start, r :: rest, stop => r.offset = start ∧ Consecutive r.stop rest stop

variable {start middle stop : Nat} {records more : List PlacedRecord} {r : PlacedRecord}

theorem Consecutive.append (h : Consecutive start records middle)
    (hmore : Consecutive middle more stop) : Consecutive start (records ++ more) stop := by
  induction records generalizing start with
  | nil =>
      cases h
      exact hmore
  | cons r rest ih => exact ⟨h.1, ih h.2⟩

theorem Consecutive.le (h : Consecutive start records stop) : start ≤ stop := by
  induction records generalizing start with
  | nil => exact Nat.le_of_eq h
  | cons r rest ih =>
      obtain ⟨rfl, hrest⟩ := h
      exact Nat.le_trans (Nat.le_add_right _ _) (ih hrest)

/-- Each record is between the two places. -/
theorem Consecutive.mem_bounds (h : Consecutive start records stop) (hr : r ∈ records) :
    start ≤ r.offset ∧ r.stop ≤ stop := by
  induction records generalizing start with
  | nil => cases hr
  | cons first rest ih =>
      obtain ⟨rfl, hrest⟩ := h
      rcases List.mem_cons.1 hr with rfl | hr
      · exact ⟨Nat.le_refl _, hrest.le⟩
      · obtain ⟨hle, hstop⟩ := ih hrest hr
        exact ⟨Nat.le_trans (Nat.le_add_right _ _) hle, hstop⟩

/-- Records one behind the other do not overlap. -/
theorem Consecutive.pairwise (h : Consecutive start records stop) :
    records.Pairwise fun r s => r.stop ≤ s.offset := by
  induction records generalizing start with
  | nil => exact .nil
  | cons first rest ih => exact .cons (fun r hr => (h.2.mem_bounds hr).1) (ih h.2)

theorem Consecutive.length_eq (h : Consecutive start records stop) :
    start + (records.flatMap (·.cells)).length = stop := by
  induction records generalizing start with
  | nil => exact h
  | cons r rest ih =>
      obtain ⟨rfl, hrest⟩ := h
      rw [List.flatMap_cons, List.length_append, ← Nat.add_assoc]
      exact ih hrest

/-- If the numbers of all records are written one after the other, each record is found at
its place. -/
theorem Consecutive.stores {words : Array Nat} (h : Consecutive start records stop)
    (hwords : Stores words start ((records.flatMap (·.cells)).map (·.value))) :
    ∀ r ∈ records, Stores words r.offset (r.cells.map (·.value)) := by
  induction records generalizing start with
  | nil => exact fun r hr => absurd hr List.not_mem_nil
  | cons first rest ih =>
      obtain ⟨rfl, hrest⟩ := h
      rw [List.flatMap_cons, List.map_append, stores_append, List.length_map] at hwords
      rw [List.forall_mem_cons]
      exact ⟨hwords.1, ih hrest hwords.2⟩

/-- Records of known sizes, at the places that their sizes give them. -/
def atOffsets {α : Type} (offsets : List Nat) (f : α → List Cell) (xs : List α) :
    List PlacedRecord :=
  List.zipWith (fun offset x => ⟨offset, f x⟩) offsets xs

theorem consecutive_atOffsets {α : Type} {f : α → List Cell} {size : α → Nat}
    (hf : ∀ x, (f x).length = size x) (xs : List α) (start : Nat) :
    Consecutive start (atOffsets (Layout.offsetsFrom start (xs.map size)) f xs)
      (start + Layout.total (xs.map size)) := by
  induction xs generalizing start with
  | nil => rfl
  | cons x xs ih =>
      refine ⟨rfl, ?_⟩
      have hrest := ih (start + size x)
      rw [Nat.add_assoc] at hrest
      rw [stop, hf]
      exact hrest

theorem flatMap_atOffsets {α : Type} {f : α → List Cell} {offsets : List Nat} {xs : List α}
    (h : offsets.length = xs.length) :
    (atOffsets offsets f xs).flatMap (·.cells) = xs.flatMap f := by
  induction xs generalizing offsets with
  | nil => rw [atOffsets, List.zipWith_nil_right]; rfl
  | cons x xs ih =>
      cases offsets with
      | nil => cases h
      | cons offset offsets =>
          rw [List.flatMap_cons, ← ih (Nat.succ.inj h)]
          rfl

end PlacedRecord

open PlacedRecord (Consecutive)

/-! ## The records of a node -/

theorem length_rowCells (places : Placement) (row : List (Symbol × Trie.RowEntry Decision)) :
    (rowCells places row).length = Layout.levelSize row.length := by
  rw [← List.length_map Cell.value, rowCells_eq_words, length_levelWords, levelSize,
    length_storedLevel]

theorem NodeReduction.length_cells (places : Placement) (r : NodeReduction) :
    (r.cells places).length = Layout.reductionSize r.tuples.length := by
  rw [← List.length_map Cell.value, cells_eq_words, StoredReduction.length_words, size_stored]

namespace Node

/-- The numbers in front of the levels of a node. -/
def headCells (layout : NodeLayout) (n : Node) : List Cell :=
  [⟨.levelCount, n.trie.rows.length⟩, ⟨.reductionCount, n.reductions.length⟩,
    ⟨.reductionIndex, alwaysNumber n.always⟩, ⟨.lookahead, n.lookahead⟩] ++
    layout.reductions.map (Cell.mk .offset)

/-- The records of a node, where its layout puts them: the node itself, its levels and its
reductions. -/
def records (nodeAt : Nat → Nat) (layout : NodeLayout) (n : Node) : List PlacedRecord :=
  ⟨layout.offset, n.headCells layout⟩ ::
    (PlacedRecord.atOffsets layout.levels (rowCells (places nodeAt layout)) n.trie.rows ++
      PlacedRecord.atOffsets layout.reductions (NodeReduction.cells (places nodeAt layout))
        n.reductions)

variable (nodeAt : Nat → Nat) (n : Node) (offset : Nat)

theorem consecutive_records :
    Consecutive offset (n.records nodeAt (n.layout offset)) (n.layout offset).stop := by
  refine ⟨rfl, ?_⟩
  have hhead : (PlacedRecord.mk (n.layout offset).offset (n.headCells (n.layout offset))).stop =
      offset + Layout.nodeHead + n.reductions.length := by
    simp only [PlacedRecord.stop, headCells, List.length_append, List.length_map, layout,
      Layout.length_offsetsFrom, reductionSizes, List.length_cons, List.length_nil, Layout.nodeHead]
    omega
  rw [hhead]
  exact (PlacedRecord.consecutive_atOffsets (length_rowCells _) n.trie.rows _).append
    (PlacedRecord.consecutive_atOffsets (NodeReduction.length_cells _) n.reductions _)

/-- The records of a node are all that is written for it. -/
theorem flatMap_records : (n.records nodeAt (n.layout offset)).flatMap (·.cells) =
    n.cells nodeAt (n.layout offset) := by
  have hlevels : (n.layout offset).levels.length = n.trie.rows.length := by
    rw [layout, Layout.length_offsetsFrom, levelSizes, List.length_map]
  have hreductions : (n.layout offset).reductions.length = n.reductions.length := by
    rw [layout, Layout.length_offsetsFrom, reductionSizes, List.length_map]
  rw [records, List.flatMap_cons, List.flatMap_append, PlacedRecord.flatMap_atOffsets hlevels,
    PlacedRecord.flatMap_atOffsets hreductions, cells, headCells]
  simp only [List.append_assoc]
  rfl

end Node

/-! ## The records of a table -/

/-- The place behind nodes that stand one behind the other. -/
def stopFrom (offset : Nat) (nodes : List Node) : Nat :=
  ((layoutsFrom offset nodes).getLast?.map (·.stop)).getD offset

theorem stopFrom_cons (offset : Nat) (n : Node) (nodes : List Node) :
    stopFrom offset (n :: nodes) = stopFrom (n.layout offset).stop nodes := by
  rw [stopFrom, stopFrom, layoutsFrom, List.getLast?_cons]
  cases (layoutsFrom (n.layout offset).stop nodes).getLast? with
  | none => rfl
  | some layout => rfl

section Nodes

variable (nodeAt : Nat → Nat) (offset : Nat) (nodes : List Node)

theorem consecutive_nodes : Consecutive offset
    ((nodes.zip (layoutsFrom offset nodes)).flatMap fun (n, layout) => n.records nodeAt layout)
    (stopFrom offset nodes) := by
  induction nodes generalizing offset with
  | nil => rfl
  | cons n rest ih =>
      rw [stopFrom_cons, layoutsFrom, List.zip_cons_cons, List.flatMap_cons]
      exact (n.consecutive_records nodeAt offset).append (ih _)

theorem flatMap_nodes :
    ((nodes.zip (layoutsFrom offset nodes)).flatMap fun (n, layout) =>
        n.records nodeAt layout).flatMap (·.cells) =
      (nodes.zip (layoutsFrom offset nodes)).flatMap fun (n, layout) => n.cells nodeAt layout := by
  induction nodes generalizing offset with
  | nil => rfl
  | cons n rest ih =>
      rw [layoutsFrom, List.zip_cons_cons, List.flatMap_cons, List.flatMap_cons,
        List.flatMap_append, ih]
      exact congrArg (· ++ _) (n.flatMap_records nodeAt offset)

end Nodes

namespace Parser

/-- The records of a table, where the layouts put them: the header, and the records of the
nodes. -/
def records (p : Parser) : List PlacedRecord :=
  ⟨0, [⟨.nodeCount, p.nodes.size⟩, ⟨.offset, Layout.header⟩]⟩ ::
    (p.nodes.toList.zip p.layouts).flatMap fun (n, layout) => n.records p.nodeAt layout

/-- **The records stand one behind the other**, up to the computed size of the table. -/
theorem consecutive_records (p : Parser) : Consecutive 0 p.records p.tableSize :=
  ⟨rfl, consecutive_nodes p.nodeAt Layout.header p.nodes.toList⟩

/-- The records are all that is written. -/
theorem flatMap_records (p : Parser) : p.records.flatMap (·.cells) = p.cells := by
  rw [records, List.flatMap_cons, layouts, flatMap_nodes]
  rfl

/-- Words that hold the table of a parser as it has been laid out. -/
structure LaidOut (p : Parser) (words : Array Nat) : Prop where
  /-- There are as many of them as have been computed. -/
  size_eq : words.size = p.tableSize
  /-- Every record is found at its place. -/
  stores : ∀ r ∈ p.records, Stores words r.offset (r.cells.map (·.value))
  /-- The records do not overlap. -/
  disjoint : p.records.Pairwise fun r s => r.stop ≤ s.offset
  /-- There are no words but those of the records. -/
  covers : p.records.flatMap (fun r => r.cells.map (·.value)) = words.toList

/-- The numbers of a parser are laid out as has been computed. -/
theorem laidOut_cells (p : Parser) : p.LaidOut (p.cells.map (·.value)).toArray := by
  have hconsecutive := p.consecutive_records
  refine ⟨?_, hconsecutive.stores ?_, hconsecutive.pairwise, ?_⟩
  · rw [← hconsecutive.length_eq, flatMap_records, List.size_toArray, List.length_map, Nat.zero_add]
  · rw [flatMap_records]
    exact stores_toArray _
  · rw [← List.map_flatMap, flatMap_records]

end Parser

end BoundedLR
