import BoundedLR.Proofs.DeclaredRestrictions
import BoundedLR.Proofs.PlacedRecords
import BoundedLR.Proofs.StoredParsers

/-!
# The width of words limits size only

A table is made of numbers, and its words are these numbers if they fit.  So which words a
table has does not depend on their width, and if some do not fit the complaint is about the
first of them (`narrowAll_eq_mapM`).

Words of 64 bits are wide enough for everything that a machine with 64-bit addresses can
count.  A symbol takes 34 bits, masks have 64, and all other numbers count rules, elements of
a rule or words of the table: they are rule numbers, lengths of bodies, places in the table,
and numbers of records and entries, which take up words themselves (`Node.cells_lt`).  With
as many rules, elements and words as can be addressed, the table can therefore be written
(`Grammar.cells_lt`).
-/

namespace BoundedLR

/-! ## Narrowing -/

section Narrow

variable {w : Width} {p : Parser}

theorem narrowAll_eq_mapM (cells : List Cell) :
    narrowAll w cells = cells.mapM fun c => narrow w c.field c.value := by
  induction cells with
  | nil => rfl
  | cons c rest ih => rw [narrowAll, List.mapM_cons, ih]

/-- Numbers become words if all of them fit. -/
theorem exists_narrowAll {cells : List Cell} (h : ∀ c ∈ cells, c.value < w.bound) :
    ∃ words, narrowAll w cells = .ok words := by
  rw [narrowAll_eq_mapM]
  exact exists_mapM_eq_ok fun c hc => ⟨c.value, if_pos (h c hc)⟩

/-- The complaint is about the first number that does not fit. -/
theorem narrowAll_eq_error {before after : List Cell} {c : Cell}
    (hbefore : ∀ d ∈ before, d.value < w.bound) (hc : w.bound ≤ c.value) :
    narrowAll w (before ++ c :: after) = .error ⟨c.field, c.value⟩ := by
  rw [narrowAll_eq_mapM, mapM_eq_error]
  exact ⟨before, c, after, rfl, fun d hd => ⟨d.value, if_pos (hbefore d hd)⟩,
    if_neg (Nat.not_lt_of_le hc)⟩

namespace Parser

/-- A table can be written if all of its numbers fit. -/
theorem exists_toTable (h : ∀ c ∈ p.cells, c.value < w.bound) : ∃ b, p.toTable w = .ok b := by
  obtain ⟨words, hwords⟩ := exists_narrowAll h
  unfold toTable
  split
  · exact ⟨_, rfl⟩
  · rename_i e he
    rw [hwords] at he
    cases he

/-- Otherwise the complaint is about the first number that does not fit. -/
theorem toTable_eq_error {before after : List Cell} {c : Cell}
    (hcells : p.cells = before ++ c :: after) (hbefore : ∀ d ∈ before, d.value < w.bound)
    (hc : w.bound ≤ c.value) : p.toTable w = .error ⟨c.field, c.value⟩ := by
  have herror : narrowAll w p.cells = .error ⟨c.field, c.value⟩ := by
    rw [hcells]
    exact narrowAll_eq_error hbefore hc
  unfold toTable
  split
  · rename_i words hwords
    rw [herror] at hwords
    cases hwords
  · rename_i e he
    rw [herror] at he
    cases he
    rfl

end Parser
end Narrow

/-! ## What the numbers count -/

namespace Layout

variable {sizes : List Nat} {n m : Nat}

theorem le_total_of_mem (h : m ∈ sizes) : m ≤ total sizes := by
  induction sizes with
  | nil => cases h
  | cons size rest ih =>
      rw [total]
      rcases List.mem_cons.1 h with rfl | h
      · exact Nat.le_add_right _ _
      · exact Nat.le_trans (ih h) (Nat.le_add_left _ _)

/-- Records that are not empty are not more than the words they take up. -/
theorem length_le_total (h : ∀ size ∈ sizes, 0 < size) : sizes.length ≤ total sizes := by
  induction sizes with
  | nil => exact Nat.le_refl _
  | cons size rest ih =>
      rw [List.forall_mem_cons] at h
      have hrest := ih h.2
      rw [total, List.length_cons]
      omega

theorem le_stop_of_mem_offsetsFrom (h : m ∈ offsetsFrom n sizes) : m ≤ n + total sizes := by
  induction sizes generalizing n with
  | nil => cases h
  | cons size rest ih =>
      rw [total]
      rcases List.mem_cons.1 h with rfl | h
      · exact Nat.le_add_right _ _
      · have hrest := ih h
        omega

end Layout

theorem Symbol.code_lt (s : Symbol) : s.code < 4 * UInt32.size := by
  have htag := s.kind.tag_lt
  have hvalue : s.value.toNat < UInt32.size := s.value.toNat_lt
  rw [code]
  omega

/-- A trie is not higher than it has levels. -/
theorem Trie.height_le {α : Type} (t : Trie α) : t.height ≤ t.sizeBelow + 1 := by
  induction t with
  | done => exact Nat.le_refl _
  | leaf s action rest ih => exact ih
  | branch s below rest ihb ihr =>
      rw [height, sizeBelow]
      omega

theorem Node.lookahead_le (n : Node) : n.lookahead ≤ n.trie.rows.length := by
  rw [lookahead, Trie.lookahead, Trie.length_rows]
  split
  · exact Nat.zero_le _
  · exact n.trie.height_le

/-! ## Numbers below a limit -/

section Limit

variable {limit : Nat} {places : Placement} (hlimit : 4 * UInt32.size ≤ limit)
  (hnode : ∀ k, places.node k < limit)

include hlimit in
theorem flagCell_lt (flag : Bool) : (flagCell flag).value < limit := by
  have hflag : flag.toNat < 2 := flag.toNat_lt
  have hsize : UInt32.size = 4294967296 := rfl
  simp only [flagCell]
  omega

include hlimit hnode

theorem rowCells_lt {row : List (Symbol × Trie.RowEntry Decision)}
    (hlevel : ∀ k, places.level k < limit) (hrow : row.length < limit)
    (hreduce : ∀ s index, (s, .settled (.reduce index)) ∈ row → index < limit) :
    ∀ c ∈ rowCells places row, c.value < limit := by
  have hsize : UInt32.size = 4294967296 := rfl
  rw [rowCells, List.forall_mem_cons]
  refine ⟨hrow, fun c hc => ?_⟩
  obtain ⟨stored, hstored, hc⟩ := List.mem_flatMap.1 hc
  obtain ⟨⟨s, entry⟩, hentry, rfl⟩ :=
    List.mem_map.1 ((StoredEntry.sortByCode_perm _).mem_iff.1 hstored)
  have hcode := s.code_lt
  have hvalue : (storedAction places entry).kind < 4 ∧
      (storedAction places entry).value < limit := by
    rcases entry with (⟨target, _ | _⟩ | index) | number
    · exact ⟨(by decide : 1 < 4), hnode target⟩
    · exact ⟨(by decide : 2 < 4), hnode target⟩
    · exact ⟨(by decide : 3 < 4), hreduce s index hentry⟩
    · exact ⟨(by decide : 0 < 4), hlevel number⟩
  dsimp only at hc
  rw [storedEntry_eq, StoredEntry.cells] at hc
  simp only [List.mem_cons, List.not_mem_nil, or_false] at hc
  rcases hc with rfl | rfl | rfl
  · exact Nat.lt_of_lt_of_le hcode hlimit
  · exact Nat.lt_of_lt_of_le hvalue.1 (by omega)
  · exact hvalue.2

theorem NodeReduction.cells_lt {r : NodeReduction} (hmask : UInt64.size ≤ limit)
    (hrule : r.property.rule < limit) (hcount : r.property.count < limit)
    (htuples : r.tuples.length < limit) : ∀ c ∈ r.cells places, c.value < limit := by
  intro c hc
  rw [cells, List.mem_append, List.mem_flatMap] at hc
  rcases hc with hc | ⟨t, -, hc⟩
  · simp only [List.mem_cons, List.not_mem_nil, or_false] at hc
    rcases hc with rfl | rfl | rfl | rfl | rfl | rfl
    · exact Nat.lt_of_lt_of_le r.property.head.code_lt hlimit
    · exact hrule
    · exact hcount
    · exact Nat.lt_of_lt_of_le r.property.mask.toNat_lt hmask
    · exact flagCell_lt hlimit _
    · exact htuples
  · simp only [Tuple.cells, List.mem_cons, List.not_mem_nil, or_false] at hc
    rcases hc with rfl | rfl | rfl
    · exact hnode _
    · exact hnode _
    · exact flagCell_lt hlimit _

end Limit

namespace Node

variable {limit offset states : Nat} {nodeAt : Nat → Nat} {n : Node}

/-- **The numbers of a node stay below a limit that its end stays below.**  What they count
takes up words of the node, apart from the data of the reduced rules. -/
theorem cells_lt (hlimit : 4 * UInt32.size ≤ limit) (hmask : UInt64.size ≤ limit)
    (hnode : ∀ k, nodeAt k < limit) (hstop : (n.layout offset).stop < limit)
    (hs : n.Storable states)
    (hproperty : ∀ r ∈ n.reductions, r.property.rule < limit ∧ r.property.count < limit) :
    ∀ c ∈ n.cells nodeAt (n.layout offset), c.value < limit := by
  have hend : offset + Layout.nodeHead + n.reductions.length + Layout.total n.levelSizes +
      Layout.total n.reductionSizes < limit := hstop
  have hlevels : n.trie.rows.length ≤ Layout.total n.levelSizes := by
    have hpos : ∀ size ∈ n.levelSizes, 0 < size := by
      intro size hsize
      obtain ⟨row, -, rfl⟩ := List.mem_map.1 hsize
      exact Nat.lt_of_lt_of_le Nat.zero_lt_one (Nat.le_add_right _ _)
    have hle := Layout.length_le_total hpos
    rwa [levelSizes, List.length_map] at hle
  have hlookahead := n.lookahead_le
  have halways : alwaysNumber n.always ≤ n.reductions.length := by
    cases hindex : n.always with
    | none => exact Nat.zero_le _
    | some index => exact hs.always index hindex
  have hlevel : ∀ k, (places nodeAt (n.layout offset)).level k < limit := by
    intro k
    change (n.layout offset).levels.getD k 0 < limit
    rw [List.getD_eq_getElem?_getD]
    cases hk : (n.layout offset).levels[k]? with
    | none => exact Nat.lt_of_le_of_lt (Nat.zero_le _) hend
    | some level =>
        have hle := Layout.le_stop_of_mem_offsetsFrom (List.mem_of_getElem? hk)
        rw [Option.getD_some]
        omega
  intro c hc
  rw [cells, List.mem_append, List.mem_append, List.mem_append] at hc
  rcases hc with ((hc | hc) | hc) | hc
  · simp only [List.mem_cons, List.not_mem_nil, or_false] at hc
    rcases hc with rfl | rfl | rfl | rfl
    · dsimp only
      omega
    · dsimp only
      omega
    · dsimp only
      omega
    · dsimp only
      omega
  · obtain ⟨reduction, hreduction, rfl⟩ := List.mem_map.1 hc
    have hle := Layout.le_stop_of_mem_offsetsFrom hreduction
    dsimp only
    omega
  · obtain ⟨row, hrow, hc⟩ := List.mem_flatMap.1 hc
    refine rowCells_lt hlimit hnode hlevel ?_ (fun s index hentry => ?_) c hc
    · have hle := Layout.le_total_of_mem (List.mem_map_of_mem (f := fun row =>
        Layout.levelSize row.length) hrow)
      change Layout.levelSize row.length ≤ Layout.total n.levelSizes at hle
      rw [Layout.levelSize, Layout.entry] at hle
      omega
    · obtain ⟨level, hmem, hmirrors⟩ := forall₂_mem_right n.trie.rows_mirror hrow
      have hrange : index < n.reductions.length :=
        (hs.trie.of_mem_levels level hmem).of_mem_row hmirrors hentry
      omega
  · obtain ⟨r, hr, hc⟩ := List.mem_flatMap.1 hc
    obtain ⟨hrule, hcount⟩ := hproperty r hr
    refine NodeReduction.cells_lt hlimit hnode hmask hrule hcount ?_ c hc
    have hle := Layout.le_total_of_mem (List.mem_map_of_mem (f := fun r : NodeReduction =>
      Layout.reductionSize r.tuples.length) hr)
    change Layout.reductionSize r.tuples.length ≤ Layout.total n.reductionSizes at hle
    rw [Layout.reductionSize, Layout.tuple] at hle
    omega

end Node

/-! ## Numbers of a table -/

theorem stopFrom_le {offset : Nat} (nodes : List Node) :
    offset + nodes.length ≤ stopFrom offset nodes := by
  induction nodes generalizing offset with
  | nil => exact Nat.le_refl _
  | cons n rest ih =>
      have hnode : offset + 1 ≤ (n.layout offset).stop := by
        rw [Node.layout, Layout.nodeHead]
        dsimp only
        omega
      have hrest : (n.layout offset).stop + rest.length ≤ stopFrom (n.layout offset).stop rest := ih
      rw [stopFrom_cons, List.length_cons]
      omega

/-- A node is written with its layout, and ends within the table. -/
theorem exists_layout_of_mem_zip {offset : Nat} {nodes : List Node} {n : Node}
    {layout : NodeLayout} (h : (n, layout) ∈ nodes.zip (layoutsFrom offset nodes)) :
    ∃ place, layout = n.layout place ∧ layout.stop ≤ stopFrom offset nodes := by
  induction nodes generalizing offset with
  | nil => cases h
  | cons first rest ih =>
      rw [stopFrom_cons]
      rcases List.mem_cons.1 h with heq | h
      · obtain ⟨rfl, rfl⟩ := Prod.mk.inj heq
        exact ⟨offset, rfl, Nat.le_trans (Nat.le_add_right _ _) (stopFrom_le rest)⟩
      · exact ih h

namespace Parser

variable {p : Parser} {limit : Nat}

/-- The references to nodes are places in the table. -/
theorem nodeAt_le (p : Parser) (k : Nat) : p.nodeAt k ≤ p.tableSize := by
  cases hn : p.nodes[k]? with
  | some n =>
      obtain ⟨offset, -, rfl, hlayout, -⟩ := p.exists_layout hn
      have hmem : (n, n.layout (p.nodeAt k)) ∈ p.nodes.toList.zip p.layouts := by
        refine List.mem_of_getElem? (i := k) (List.getElem?_zip_eq_some.2 ⟨?_, hlayout⟩)
        rw [Array.getElem?_toList]
        exact hn
      obtain ⟨place, -, hstop⟩ := exists_layout_of_mem_zip hmem
      refine Nat.le_trans ?_ hstop
      rw [Node.layout]
      dsimp only
      omega
  | none =>
      have hlength : p.layouts.length ≤ k := by
        rw [layouts, length_layoutsFrom, Array.length_toList]
        exact Array.getElem?_eq_none_iff.1 hn
      rw [nodeAt, Array.getD_eq_getD_getElem?, List.getElem?_toArray, List.getElem?_map,
        List.getElem?_eq_none hlength]
      exact Nat.zero_le _

theorem cells_lt (hlimit : 4 * UInt32.size ≤ limit) (hmask : UInt64.size ≤ limit)
    (hsize : p.tableSize < limit)
    (hs : ∀ (k : Nat) (n : Node), p.nodes[k]? = some n → n.Storable p.nodes.size)
    (hproperty : ∀ (k : Nat) (n : Node), p.nodes[k]? = some n →
      ∀ r ∈ n.reductions, r.property.rule < limit ∧ r.property.count < limit) :
    ∀ c ∈ p.cells, c.value < limit := by
  have hnodes : Layout.header + p.nodes.size ≤ p.tableSize := by
    rw [← Array.length_toList]
    exact stopFrom_le p.nodes.toList
  intro c hc
  rw [cells, List.mem_append] at hc
  rcases hc with hc | hc
  · simp only [List.mem_cons, List.not_mem_nil, or_false] at hc
    rcases hc with rfl | rfl
    · dsimp only
      omega
    · dsimp only
      omega
  · obtain ⟨⟨n, layout⟩, hmem, hc⟩ := List.mem_flatMap.1 hc
    obtain ⟨k, hk⟩ := List.mem_iff_getElem?.1 hmem
    have hn : p.nodes[k]? = some n := by
      rw [← Array.getElem?_toList]
      exact (List.getElem?_zip_eq_some.1 hk).1
    obtain ⟨place, rfl, hstop⟩ := exists_layout_of_mem_zip hmem
    exact n.cells_lt hlimit hmask (fun k => Nat.lt_of_le_of_lt (p.nodeAt_le k) hsize)
      (Nat.lt_of_le_of_lt hstop hsize) (hs k n hn) (hproperty k n hn) c hc

end Parser

namespace Grammar

variable {grammar : Grammar} {g : Productions} {p : Parser} {bound : Nat}

/-- A grammar and the table of its parser that a machine with addresses of 64 bits can hold:
neither the rules nor the elements of a rule nor the words of the table are more than it can
count. -/
structure Addressable (grammar : Grammar) (p : Parser) : Prop where
  rules : grammar.rules.length < Width.bits64.bound
  body : ∀ r ∈ grammar.rules, r.body.length < Width.bits64.bound
  table : p.tableSize < Width.bits64.bound

/-- The data of a reduction count rules and elements. -/
theorem property_le (h : grammar.normalize = .ok g) (q : Nat) :
    (g.property q).rule ≤ grammar.rules.length ∧
      ((g.property q).count ≤ 2 ∨ ∃ r ∈ grammar.rules, (g.property q).count ≤ r.body.length) := by
  have hrestricts := restricts_of_normalize h
  by_cases hq : q < g.count
  · rw [g.count_property hq]
    cases q with
    | zero =>
        rw [(wellFormed_of_normalize h).length_zero, Productions.property, hrestricts.accepting]
        exact ⟨Nat.zero_le _, .inl (Nat.le_refl 2)⟩
    | succ i =>
        have hi : i < grammar.rules.length := by
          rw [hrestricts.count] at hq
          exact Nat.lt_of_succ_lt_succ hq
        have hrule := List.getElem?_eq_getElem hi
        refine ⟨?_, .inr ⟨grammar.rules[i], List.getElem_mem hi, ?_⟩⟩
        · rw [Productions.property, Array.getElem?_eq_getElem hq]
          exact Nat.le_of_lt hi
        · have hsymbols := congrArg List.length (hrestricts.symbols hrule)
          rw [List.length_map] at hsymbols
          exact hsymbols.trans_le (List.length_filterMap_le _ _)
  · rw [Productions.property, Array.getElem?_eq_none (Nat.le_of_not_lt hq)]
    exact ⟨Nat.zero_le _, .inl (Nat.zero_le 2)⟩

/-- **Everything that is counted fits into 64 bits.** -/
theorem cells_lt (hp : grammar.compile bound = .ok p) (h : grammar.Addressable p) :
    ∀ c ∈ p.cells, c.value < Width.bits64.bound := by
  obtain ⟨hg, hcompiled⟩ := compiled_of_compile hp
  refine Parser.cells_lt (by decide) (by decide) h.table
    (fun k n hn => hcompiled.storable (Parser.node_eq_ok.2 hn)) fun k n hn r hr => ?_
  have hk : k < p.automaton.count := by
    rw [← hcompiled.size_nodes]
    exact (Array.getElem?_eq_some_iff.1 hn).1
  obtain ⟨n', hn', -, hreductions⟩ := hcompiled.exists_node hk
  obtain rfl : n = n' := Except.ok.inj ((Parser.node_eq_ok.2 hn).symm.trans hn')
  rw [hreductions] at hr
  obtain ⟨reduction, -, rfl⟩ := List.mem_map.1 hr
  obtain ⟨hrule, hcount⟩ := property_le hg reduction.production
  refine ⟨Nat.lt_of_le_of_lt hrule h.rules, ?_⟩
  rcases hcount with htwo | ⟨rule, hmem, hle⟩
  · exact Nat.lt_of_le_of_lt htwo (by decide)
  · exact Nat.lt_of_le_of_lt hle (h.body rule hmem)

end Grammar

/-- **The width of the words limits size only.**  A compiled grammar that can be addressed can be
stored in words of 64 bits.  Whatever other width is asked for, the words are the same if they
fit, and otherwise the complaint is about the first that does not.  And whatever the width, a
table that is written is laid out as has been computed. -/
theorem Grammar.toTable_of_compile {grammar : Grammar} {bound : Nat} {p : Parser}
    (hp : grammar.compile bound = .ok p) :
    (grammar.Addressable p → ∃ wide, p.toTable .bits64 = .ok wide) ∧
    (∀ wide, p.toTable .bits64 = .ok wide → ∀ w : Width,
      ((∀ x ∈ wide.words, x < w.bound) → ∃ b, p.toTable w = .ok b ∧ b.words = wide.words) ∧
      ∀ x, wide.words.toList.find? (fun word => decide (w.bound ≤ word)) = some x →
        ∃ e, p.toTable w = .error e ∧ e.value = x) ∧
    ∀ w b, p.toTable w = .ok b → p.LaidOut b.words := by
  refine ⟨fun h => Parser.exists_toTable (cells_lt hp h), fun wide hwide w => ?_,
    fun w b hb => ?_⟩
  · have hwords := (Parser.words_of_toTable hwide).2
    rw [hwords]
    refine ⟨fun hfit => ?_, fun x hx => ?_⟩
    · obtain ⟨b, hb⟩ := Parser.exists_toTable fun c hc => hfit c.value (by
        rw [List.mem_toArray]
        exact List.mem_map_of_mem hc)
      exact ⟨b, hb, (Parser.words_of_toTable hb).2⟩
    · obtain ⟨hx, before, after, hsplit, hbefore⟩ := List.find?_eq_some_iff_append.1 hx
      obtain ⟨front, rest, hcells, rfl, hrest⟩ := List.map_eq_append_iff.1 hsplit
      obtain ⟨c, back, rfl, rfl, -⟩ := List.map_eq_cons_iff.1 hrest
      refine ⟨_, Parser.toTable_eq_error hcells (fun d hd => ?_) (of_decide_eq_true hx), rfl⟩
      simpa using hbefore d.value (List.mem_map_of_mem hd)
  · rw [(Parser.words_of_toTable hb).2]
    exact p.laidOut_cells

/-- A single rule, with a mask that does not fit into 16 bits. -/
def Grammar.widelyMasked : Grammar where
  start := .nonTerminal 0
  rules := [⟨.nonTerminal 0, [.symbol (.terminal 0)], 70000, false⟩]
  priorities := []

/-- It can be stored in wider words, and in those of 16 bits its mask is complained about. -/
theorem Grammar.toTable_of_compile_widelyMasked : ∃ p wide, widelyMasked.compile 0 = .ok p ∧
    p.toTable .bits64 = .ok wide ∧ p.LaidOut wide.words ∧
    (∃ b, p.toTable .bits32 = .ok b ∧ b.words = wide.words) ∧
    ∃ e, p.toTable .bits16 = .error e ∧ e.value = 70000 := by
  obtain ⟨p, hp, hcells⟩ := map_eq_ok.1 (show (widelyMasked.compile 0).map (fun p =>
      (p.tableSize, (p.cells.map (·.value)).all (fun x => decide (x < Width.bits32.bound)),
        (p.cells.map (·.value)).find? (fun x => decide (Width.bits16.bound ≤ x)))) =
      .ok (45, true, some 70000) by decide +kernel)
  obtain ⟨hsize, hcells⟩ := Prod.mk.inj hcells
  obtain ⟨hfit, hfind⟩ := Prod.mk.inj hcells
  obtain ⟨hwrite, hwidths, hlaid⟩ := toTable_of_compile hp
  obtain ⟨wide, hwide⟩ := hwrite ⟨by decide, by decide, by rw [hsize]; decide⟩
  have hwords := (Parser.words_of_toTable hwide).2
  refine ⟨p, wide, hp, hwide, hlaid _ _ hwide, (hwidths wide hwide .bits32).1 fun x hx => ?_,
    (hwidths wide hwide .bits16).2 70000 ?_⟩
  · rw [hwords, List.mem_toArray] at hx
    exact of_decide_eq_true (List.all_eq_true.1 hfit x hx)
  · rw [hwords]
    exact hfind

end BoundedLR
