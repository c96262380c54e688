import BoundedLR.Proofs.ScannedTables
import BoundedLR.Proofs.TableReads
import BoundedLR.Table.Word

/-!
# Reading a table loses nothing

Words are accepted as a table if they begin with the words of some contents whose
references are in order (`contains_iff`).  The functions that read a table find all of
these contents again, each record at the place where the scan has met it.  They go other
ways than the scan: the reductions of a node are found by their stored offsets, a node
ends behind its last reduction, and the number of the reduction without input is one too
large.  So what has been read can be written back, and gives the same words.

Words behind the last node play no part in this.

One field does not hold every number.  The mask of a reduction is read as 64 bits, which
is enough for the words of a buffer.
-/

namespace BoundedLR

/-! ## The format of a table -/

/-- Words are stored from the beginning if they are a prefix. -/
theorem stores_zero_iff {words : Array Nat} {xs : List Nat} :
    Stores words 0 xs ↔ xs <+: words.toList := by
  rw [List.prefix_iff_getElem?]
  constructor
  · intro h i hi
    have hword := h i xs[i] (List.getElem?_eq_getElem hi)
    rwa [Nat.zero_add, ← Array.getElem?_toList] at hword
  · intro h i x hx
    obtain ⟨hi, rfl⟩ := List.getElem?_eq_some_iff.1 hx
    rw [Nat.zero_add, ← Array.getElem?_toList]
    exact h i hi

/-- The words of a table up to the end of its last node. -/
def tableWords (header : Header) (nodes : List StoredNode) : List Nat :=
  [header.nodeCount, header.startup] ++ nodesWords Layout.header nodes

/-- Contents of a table that are well formed, and whose references name nodes and levels
of the table. -/
structure Admissible (header : Header) (nodes : List StoredNode) : Prop where
  count : nodes.length = header.nodeCount
  wellFormed : ∀ n ∈ nodes, n.WellFormed
  startup : header.startup ∈ nodeOffsets nodes
  names : ∀ n ∈ nodes,
    n.Names (· ∈ nodeOffsets nodes) (· ∈ levelOffsetsFrom Layout.header nodes)

theorem contains_iff {words : Array Nat} {header : Header} {nodes : List StoredNode} :
    Contains words header nodes ↔
      Admissible header nodes ∧ tableWords header nodes <+: words.toList := by
  rw [← stores_zero_iff, tableWords, stores_append]
  constructor
  · intro h
    exact ⟨⟨h.count, h.wellFormed, h.startup, h.names⟩, h.head, h.stored⟩
  · rintro ⟨h, hhead, hstored⟩
    exact ⟨h.count, hhead, hstored, h.wellFormed, h.startup, h.names⟩

theorem length_nodesWords (nodes : List StoredNode) (offset : Nat) :
    (nodesWords offset nodes).length = Layout.total (nodes.map StoredNode.size) := by
  induction nodes generalizing offset with
  | nil => rfl
  | cons n rest ih =>
      rw [nodesWords, List.length_append, StoredNode.length_words, ih, List.map_cons, Layout.total]

/-- The last of some records ends where all of them end. -/
theorem Layout.add_size_of_last {n i offset size : Nat} {sizes : List Nat}
    (hsize : sizes[i]? = some size) (ho : (offsetsFrom n sizes)[i]? = some offset)
    (hlast : i + 1 = sizes.length) : offset + size = n + total sizes := by
  induction sizes generalizing n i with
  | nil => simp at hsize
  | cons first rest ih =>
      rw [total]
      cases i with
      | zero =>
          have hrest : rest = [] := List.length_eq_zero_iff.1 (Nat.succ.inj hlast).symm
          cases hsize
          cases ho
          rw [hrest, total, Nat.add_zero]
      | succ i =>
          rw [ih hsize ho (Nat.succ.inj hlast)]
          omega

/-! ## What there is to be read -/

namespace Table

/-- The contents of a level. -/
def levelContents (t : Table) (level : Nat) : Read StoredLevel := do
  let entries ← t.entryCount level
  (List.range entries).mapM fun index => do
    let symbol ← t.entrySymbol level index
    let action ← t.entryAction level index
    return (symbol, action)

/-- The contents of a reduction. -/
def reductionContents (t : Table) (reduction : Nat) : Read StoredReduction := do
  let property ← t.propertyAt reduction
  let count ← t.tupleCount reduction
  let tuples ← (List.range count).mapM (t.tuple reduction)
  return ⟨property.head, property.rule, property.count, property.mask.toNat, property.predict,
    tuples⟩

/-- The contents of a node. -/
def nodeContents (t : Table) (node : Nat) : Read StoredNode := do
  let (levels, _) ← t.levels node
  let levels ← levels.mapM t.levelContents
  let always ← t.always node
  let lookahead ← t.lookahead node
  let reductions ← t.reductions node
  let reductions ← reductions.mapM t.reductionContents
  return ⟨levels, always, lookahead, reductions⟩

/-- The contents of a table, in the order in which they are stored. -/
def contents (t : Table) : Read (List StoredNode) := do
  let nodes ← t.nodes
  nodes.mapM t.nodeContents

/-- Where the last node of a table ends. -/
def stop (t : Table) : Read Nat := do
  let nodes ← t.nodes
  match nodes.getLast? with
  | none => return Layout.header
  | some last => t.nodeStop last

/-- The words that are written for what is read in a table. -/
def rewritten (t : Table) : Read (List Nat) := do
  let nodes ← t.contents
  return tableWords t.header nodes

/-! ## Reading one record after the other -/

/-- Reading by index goes through a list. -/
theorem mapM_range_eq_ok {α : Type} {read : Nat → Read α} {xs : List α}
    (h : ∀ i x, xs[i]? = some x → read i = .ok x) : (List.range xs.length).mapM read = .ok xs := by
  rw [mapM_eq_ok, List.forall₂_iff_get]
  refine ⟨List.length_range, fun i hi hi' => ?_⟩
  simp only [List.get_eq_getElem, List.getElem_range]
  exact h i _ (List.getElem?_eq_getElem hi')

/-- Records that stand one behind the other are read at their offsets. -/
theorem mapM_offsetsFrom_eq_ok {α : Type} {words : Array Nat} {read : Nat → Read α}
    {f : α → List Nat} {size : α → Nat} {rs : List α} {n : Nat}
    (hf : ∀ r ∈ rs, (f r).length = size r)
    (hread : ∀ r ∈ rs, ∀ offset, Stores words offset (f r) → read offset = .ok r)
    (h : Stores words n (rs.flatMap f)) :
    (Layout.offsetsFrom n (rs.map size)).mapM read = .ok rs := by
  induction rs generalizing n with
  | nil => rfl
  | cons r rest ih =>
      rw [List.flatMap_cons, stores_append, hf r List.mem_cons_self] at h
      rw [List.map_cons, Layout.offsetsFrom, List.mapM_cons,
        hread r List.mem_cons_self n h.1, ok_bind,
        ih (fun r hr => hf r (List.mem_cons_of_mem _ hr))
          (fun r hr => hread r (List.mem_cons_of_mem _ hr)) h.2]
      rfl

variable {t : Table} {n : Nat}

theorem levelContents_eq_ok {level : StoredLevel} (h : Stores t.words n (levelWords level)) :
    t.levelContents n = .ok level := by
  rw [levelContents, entryCount_eq_ok h, ok_bind]
  refine mapM_range_eq_ok fun i e he => ?_
  rw [entrySymbol_eq_ok h he, ok_bind, entryAction_eq_ok h he]
  rfl

/-- A mask is read back if it fits 64 bits. -/
theorem reductionContents_eq_ok {r : StoredReduction} (h : Stores t.words n r.words)
    (hmask : r.mask < UInt64.size) : t.reductionContents n = .ok r := by
  obtain ⟨-, -, -, -, -, hcount, -⟩ := StoredReduction.stores_words.1 h
  rw [reductionContents, propertyAt_eq_ok h, ok_bind, tupleCount, word_eq_ok.2 hcount, ok_bind,
    mapM_range_eq_ok fun i u hu => tuple_eq_ok h hu, ok_bind]
  have hback : (UInt64.ofNat r.mask).toNat = r.mask := by
    rw [UInt64.toNat_ofNat']
    exact Nat.mod_eq_of_lt hmask
  simp only [StoredReduction.property, hback]
  rfl

section Nodes

variable {node : StoredNode}

theorem levelsFrom_eq_ok {levels : List StoredLevel}
    (h : Stores t.words n (levels.flatMap levelWords)) :
    t.levelsFrom levels.length n = .ok (Layout.offsetsFrom n (levels.map levelSize),
      n + Layout.total (levels.map levelSize)) := by
  induction levels generalizing n with
  | nil => rfl
  | cons level rest ih =>
      rw [List.flatMap_cons, stores_append, length_levelWords] at h
      rw [List.length_cons, levelsFrom, levelStop, entryCount_eq_ok h.1, ok_bind]
      change (t.levelsFrom rest.length (n + levelSize level) >>= _) = _
      rw [ih h.2, ok_bind, List.map_cons, Layout.offsetsFrom, Layout.total, ← Nat.add_assoc]
      rfl

/-- The levels of a node are found where its layout says. -/
theorem levels_eq_ok (h : Stores t.words n (node.words n)) :
    t.levels n = .ok (node.levelOffsets n, node.reductionStart n) := by
  obtain ⟨hcount, -, -, -, -, hlevels, -⟩ := StoredNode.stores_words.1 h
  rw [levels, rootLevel_eq_ok h, ok_bind, levelCount, word_eq_ok.2 hcount, ok_bind]
  exact levelsFrom_eq_ok hlevels

theorem reduction_eq_ok (h : Stores t.words n (node.words n)) {i offset : Nat}
    (ho : (node.reductionOffsets n)[i]? = some offset) : t.reduction n i = .ok offset := by
  obtain ⟨-, -, -, -, hslots, -, -⟩ := StoredNode.stores_words.1 h
  have hlt : i < node.reductions.length := by
    have hlt := (List.getElem?_eq_some_iff.1 ho).1
    rwa [StoredNode.reductionOffsets, Layout.length_offsetsFrom, List.length_map] at hlt
  rw [reduction, reductionCount_eq_ok h, ok_bind, if_pos hlt]
  exact word_eq_ok.2 (hslots i offset ho)

/-- The stored offsets of the reductions of a node are those of its layout. -/
theorem reductions_eq_ok (h : Stores t.words n (node.words n)) :
    t.reductions n = .ok (node.reductionOffsets n) := by
  have hlength : node.reductions.length = (node.reductionOffsets n).length := by
    rw [StoredNode.reductionOffsets, Layout.length_offsetsFrom, List.length_map]
  rw [reductions, reductionCount_eq_ok h, ok_bind, hlength]
  exact mapM_range_eq_ok fun i offset ho => reduction_eq_ok h ho

/-- A node ends where its layout says: behind its last reduction, if it has one. -/
theorem nodeStop_eq_ok (h : Stores t.words n (node.words n)) :
    t.nodeStop n = .ok (n + node.size) := by
  have hstop : n + node.size = node.reductionStart n +
      Layout.total (node.reductions.map StoredReduction.size) := by
    rw [StoredNode.size, StoredNode.reductionStart, StoredNode.root]
    omega
  rw [nodeStop, reductionCount_eq_ok h, ok_bind, hstop]
  cases hcount : node.reductions.length with
  | zero =>
      rw [List.length_eq_zero_iff.1 hcount]
      dsimp only
      rw [levels_eq_ok h]
      rfl
  | succ last =>
      have hlt : last < node.reductions.length := hcount ▸ Nat.lt_succ_self last
      obtain ⟨offset, ho⟩ : ∃ offset, (node.reductionOffsets n)[last]? = some offset := by
        refine ⟨_, List.getElem?_eq_getElem ?_⟩
        rwa [StoredNode.reductionOffsets, Layout.length_offsetsFrom, List.length_map]
      obtain ⟨-, -, -, -, -, -, hreductions⟩ := StoredNode.stores_words.1 h
      have hstored := hreductions.getElem?_flatMap
        (fun r _ => StoredReduction.length_words r) (List.getElem?_eq_getElem hlt) ho
      obtain ⟨-, -, -, -, -, htuples, -⟩ := StoredReduction.stores_words.1 hstored
      have hend : offset + (node.reductions[last]).size = node.reductionStart n +
          Layout.total (node.reductions.map StoredReduction.size) := by
        refine Layout.add_size_of_last ?_ ho ?_
        · rw [List.getElem?_map, List.getElem?_eq_getElem hlt]
          rfl
        · rw [List.length_map, hcount]
      dsimp only
      rw [reduction_eq_ok h ho, ok_bind, reductionStop, tupleCount, word_eq_ok.2 htuples, ok_bind,
        ← hend]
      rfl

/-- **All of a node is read**, if its masks fit 64 bits. -/
theorem nodeContents_eq_ok (h : Stores t.words n (node.words n))
    (hmasks : ∀ r ∈ node.reductions, r.mask < UInt64.size) : t.nodeContents n = .ok node := by
  obtain ⟨-, -, -, hlookahead, -, hlevels, hreductions⟩ := StoredNode.stores_words.1 h
  have hreadLevels : (node.levelOffsets n).mapM t.levelContents = .ok node.levels :=
    mapM_offsetsFrom_eq_ok (fun l _ => length_levelWords l)
      (fun l _ offset hl => levelContents_eq_ok hl) hlevels
  have hreadReductions : (node.reductionOffsets n).mapM t.reductionContents =
      .ok node.reductions :=
    mapM_offsetsFrom_eq_ok (fun r _ => StoredReduction.length_words r)
      (fun r hr offset hstored => reductionContents_eq_ok hstored (hmasks r hr)) hreductions
  rw [nodeContents, levels_eq_ok h, ok_bind]
  dsimp only
  rw [hreadLevels, ok_bind, always_eq_ok h, ok_bind, lookahead, word_eq_ok.2 hlookahead, ok_bind,
    reductions_eq_ok h, ok_bind, hreadReductions]
  rfl

end Nodes

/-! ## Reading the whole table -/

section Tables

variable {nodes : List StoredNode}

theorem nodesFrom_eq_ok (h : Stores t.words n (nodesWords n nodes)) :
    t.nodesFrom nodes.length n = .ok (Layout.offsetsFrom n (nodes.map StoredNode.size)) := by
  induction nodes generalizing n with
  | nil => rfl
  | cons node rest ih =>
      rw [nodesWords, stores_append, StoredNode.length_words] at h
      rw [List.length_cons, nodesFrom, nodeStop_eq_ok h.1, ok_bind, ih h.2]
      rfl

theorem mapM_nodeContents_eq_ok (h : Stores t.words n (nodesWords n nodes))
    (hmasks : ∀ node ∈ nodes, ∀ r ∈ node.reductions, r.mask < UInt64.size) :
    (Layout.offsetsFrom n (nodes.map StoredNode.size)).mapM t.nodeContents = .ok nodes := by
  induction nodes generalizing n with
  | nil => rfl
  | cons node rest ih =>
      rw [nodesWords, stores_append, StoredNode.length_words] at h
      rw [List.map_cons, Layout.offsetsFrom, List.mapM_cons,
        nodeContents_eq_ok h.1 (hmasks node List.mem_cons_self), ok_bind,
        ih h.2 fun node hnode => hmasks node (List.mem_cons_of_mem _ hnode)]
      rfl

/-- What a table reports of its contents, and where it finds its records. -/
structure Reports (t : Table) (nodes : List StoredNode) : Prop where
  contents : t.contents = .ok nodes
  offsets : t.nodes = .ok (nodeOffsets nodes)
  levels : ∀ {index offset : Nat} {node : StoredNode}, nodes[index]? = some node →
    (nodeOffsets nodes)[index]? = some offset →
      t.levels offset = .ok (node.levelOffsets offset, node.reductionStart offset)
  reductions : ∀ {index offset : Nat} {node : StoredNode}, nodes[index]? = some node →
    (nodeOffsets nodes)[index]? = some offset →
      t.reductions offset = .ok (node.reductionOffsets offset)

theorem nodes_eq_ok (h : Contains t.words t.header nodes) : t.nodes = .ok (nodeOffsets nodes) := by
  rw [Table.nodes, ← h.count]
  exact nodesFrom_eq_ok h.stored

theorem length_nodeOffsets (nodes : List StoredNode) :
    (nodeOffsets nodes).length = nodes.length := by
  rw [nodeOffsets, Layout.length_offsetsFrom, List.length_map]

/-- The last node ends where the words of the table end. -/
theorem stop_eq_ok (h : Contains t.words t.header nodes) :
    t.stop = .ok (tableWords t.header nodes).length := by
  have hlength : (tableWords t.header nodes).length =
      Layout.header + Layout.total (nodes.map StoredNode.size) := by
    rw [tableWords, List.length_append, length_nodesWords]
    rfl
  rw [Table.stop, nodes_eq_ok h, ok_bind, List.getLast?_eq_getElem?, length_nodeOffsets, hlength]
  cases hcount : nodes.length with
  | zero =>
      rw [List.length_eq_zero_iff.1 hcount]
      rfl
  | succ last =>
      have hlt : last < nodes.length := hcount ▸ Nat.lt_succ_self last
      have hnode : nodes[last]? = some nodes[last] := List.getElem?_eq_getElem hlt
      obtain ⟨offset, ho⟩ : ∃ offset, (nodeOffsets nodes)[last]? = some offset :=
        ⟨_, List.getElem?_eq_getElem (by rwa [length_nodeOffsets])⟩
      rw [Nat.add_sub_cancel, ho]
      dsimp only
      rw [nodeStop_eq_ok (stores_node h hnode ho)]
      refine congrArg _ (Layout.add_size_of_last ?_ ho ?_)
      · rw [List.getElem?_map, hnode]
        rfl
      · rw [List.length_map, hcount]

/-- The masks of a table are words of it. -/
theorem mask_lt (h : Contains t.words t.header nodes) {limit : Nat}
    (hfits : ∀ w ∈ t.words, w < limit) {node : StoredNode} (hnode : node ∈ nodes)
    {r : StoredReduction} (hr : r ∈ node.reductions) : r.mask < limit := by
  obtain ⟨index, hindex⟩ := List.mem_iff_getElem?.1 hnode
  have hlt : index < nodes.length := (List.getElem?_eq_some_iff.1 hindex).1
  obtain ⟨offset, ho⟩ : ∃ offset, (nodeOffsets nodes)[index]? = some offset :=
    ⟨_, List.getElem?_eq_getElem (by rwa [length_nodeOffsets])⟩
  obtain ⟨i, hi⟩ := List.mem_iff_getElem?.1 hr
  obtain ⟨place, -, hstored⟩ := reduction_of_getElem? (stores_node h hindex ho) hi
  obtain ⟨-, -, -, hmask, -, -, -⟩ := StoredReduction.stores_words.1 hstored
  exact hfits _ (Array.mem_of_getElem? hmask)

/-- **A table reports all of its contents**, and where they are. -/
theorem reports_of_contains (h : Contains t.words t.header nodes)
    (hfits : ∀ w ∈ t.words, w < UInt64.size) : t.Reports nodes where
  contents := by
    rw [Table.contents, nodes_eq_ok h, ok_bind]
    exact mapM_nodeContents_eq_ok h.stored fun node hnode r hr => mask_lt h hfits hnode hr
  offsets := nodes_eq_ok h
  levels hnode ho := levels_eq_ok (stores_node h hnode ho)
  reductions hnode ho := reductions_eq_ok (stores_node h hnode ho)

end Tables

end Table

/-! ## Accepted buffers -/

/-- No word is wider than 64 bits. -/
theorem Width.bound_le (w : Width) : w.bound ≤ UInt64.size := by
  cases w <;> decide

namespace Buffer

theorem lt_of_mem (b : Buffer) {w : Nat} (hw : w ∈ b.words) : w < UInt64.size :=
  Nat.lt_of_lt_of_le (b.fits w hw) b.width.bound_le

/-- A buffer that begins with the words of a table is accepted, and whoever reads it finds
the contents of the table. -/
theorem exists_table_of_begins (b : Buffer) {header : Header} {nodes : List StoredNode}
    (h : Admissible header nodes) (hbegins : tableWords header nodes <+: b.words.toList) :
    ∃ t, Table.ofWords b.words = .ok t ∧ t.header = header ∧ t.Reports nodes := by
  have hcontains : Contains b.words header nodes := contains_iff.2 ⟨h, hbegins⟩
  let t : Table := ⟨b.words, header, Scan.header_eq_ok.2 ⟨nodes, hcontains⟩⟩
  exact ⟨t, Table.ofWords_eq_ok.2 rfl, rfl,
    Table.reports_of_contains (t := t) hcontains fun _ => b.lt_of_mem⟩

/-- **Exactly the words of tables are accepted, and reading them loses nothing.**  A
buffer is accepted if it begins with the words of admissible contents.  Then the contents,
the places of all records and the end of the last node are reported as they are, and what
is written for them are the words of the buffer up to that end.  Any other buffer that
begins with these words is accepted as the same table. -/
theorem table_iff_contents (b : Buffer) :
    ((∃ t, Table.ofWords b.words = .ok t) ↔ ∃ header nodes,
      Admissible header nodes ∧ tableWords header nodes <+: b.words.toList) ∧
    ∀ t, Table.ofWords b.words = .ok t → ∃ nodes stop,
      Admissible t.header nodes ∧ t.Reports nodes ∧ t.stop = .ok stop ∧
      t.rewritten = .ok (b.words.toList.take stop) ∧
      ∀ other : Buffer, b.words.toList.take stop <+: other.words.toList →
        ∃ t', Table.ofWords other.words = .ok t' ∧ t'.header = t.header ∧ t'.Reports nodes := by
  refine ⟨⟨?_, ?_⟩, ?_⟩
  · rintro ⟨t, ht⟩
    obtain ⟨nodes, hcontains⟩ := Scan.header_eq_ok.1 t.accepted
    rw [Table.ofWords_eq_ok.1 ht] at hcontains
    exact ⟨t.header, nodes, contains_iff.1 hcontains⟩
  · rintro ⟨header, nodes, h, hbegins⟩
    obtain ⟨t, ht, -⟩ := b.exists_table_of_begins h hbegins
    exact ⟨t, ht⟩
  · intro t ht
    have hwords : t.words = b.words := Table.ofWords_eq_ok.1 ht
    obtain ⟨nodes, hcontains⟩ := Scan.header_eq_ok.1 t.accepted
    obtain ⟨h, hbegins⟩ := contains_iff.1 hcontains
    rw [hwords] at hbegins
    have hreports : t.Reports nodes :=
      Table.reports_of_contains hcontains fun w hw => b.lt_of_mem (hwords ▸ hw)
    have htake := List.prefix_iff_eq_take.1 hbegins
    refine ⟨nodes, _, h, hreports, Table.stop_eq_ok hcontains, ?_, fun other hother => ?_⟩
    · rw [Table.rewritten, hreports.contents, ok_bind, ← htake]
      rfl
    · rw [← htake] at hother
      exact other.exists_table_of_begins h hother

/-- A table of one node with two levels and a reduction, and one word behind it. -/
def oneNode : Buffer where
  width := .bits16
  words := #[1, 2, 2, 1, 0, 2, 15, 1, 0, 0, 11, 1, 3, 3, 0, 1, 4, 1, 9, 1, 1, 2, 2, 0, 5]
  fits := by decide

theorem table_iff_contents_oneNode : ∃ t, Table.ofWords oneNode.words = .ok t ∧
    t.rewritten = .ok (oneNode.words.toList.take 24) ∧ oneNode.words.size = 25 := by
  have ht : Table.ofWords oneNode.words = .ok ⟨oneNode.words, ⟨1, 2⟩, by decide +kernel⟩ :=
    Table.ofWords_eq_ok.2 rfl
  obtain ⟨nodes, stop, -, -, hstop, hrewritten, -⟩ := (table_iff_contents oneNode).2 _ ht
  have h24 : stop = 24 := Except.ok.inj (hstop.symm.trans (by rfl))
  rw [h24] at hrewritten
  exact ⟨_, ht, hrewritten, rfl⟩

end Buffer
end BoundedLR
