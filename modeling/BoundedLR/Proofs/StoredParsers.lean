import BoundedLR.Proofs.AlikeSessions
import BoundedLR.Proofs.CompiledTries
import BoundedLR.Proofs.ScannedTables
import BoundedLR.Proofs.Soundness
import BoundedLR.Proofs.WrittenTables

/-!
# A stored parser works like the parser

A compiled grammar can be stored as a table, and the table can be read again; then
a session on the table does what a session on the compiled grammar does.

There are two halves to this.  What is written has the contents that were meant,
and all of it is in order, so the scan accepts it (`contains_of_toTable`).  And
numbers of states correspond to the places where their nodes are stored, levels of
tries to the places where their rows are stored, and reductions to themselves; the
parser and the table respect this (`Compiled.respected`).

The codes of symbols are not ordered like the symbols, so the two list the symbols
of a level in different orders.  This does not show, since suggestions are sorted
before anyone sees them.
-/

namespace BoundedLR

/-! ## Words and bytes -/

theorem narrowAll_eq_values {w : Width} {cells : List Cell} {words : List Nat}
    (h : narrowAll w cells = .ok words) : words = cells.map Cell.value := by
  induction cells generalizing words with
  | nil =>
      cases h
      rfl
  | cons c rest ih =>
      obtain ⟨word, hword, h⟩ := bind_eq_ok.1 h
      obtain ⟨tail, htail, h⟩ := bind_eq_ok.1 h
      cases Except.ok.inj h
      rw [narrow] at hword
      split at hword
      · cases hword
        rw [List.map_cons, ← ih htail]
      · cases hword

/-- The words of a table are its numbers. -/
theorem Parser.words_of_toTable {p : Parser} {w : Width} {b : Buffer}
    (h : p.toTable w = .ok b) : b.width = w ∧ b.words = (p.cells.map Cell.value).toArray := by
  unfold toTable at h
  split at h
  · rename_i words hwords
    cases h
    exact ⟨rfl, congrArg _ (narrowAll_eq_values hwords)⟩
  · cases h

/-- Words are read back from their bytes. -/
theorem wordsOfBytes_flatMap {size : Nat} {words : List Nat} (h : ∀ w ∈ words, w < byteLimit size) :
    wordsOfBytes size words.length (words.flatMap (littleEndian size)) = words := by
  induction words with
  | nil => rfl
  | cons w rest ih =>
      rw [List.forall_mem_cons] at h
      have hlength : (littleEndian size w).length = size := length_littleEndian size w
      rw [List.length_cons, List.flatMap_cons, wordsOfBytes]
      have htake : (littleEndian size w ++ rest.flatMap (littleEndian size)).take size =
          littleEndian size w := List.take_left' hlength
      have hdrop : (littleEndian size w ++ rest.flatMap (littleEndian size)).drop size =
          rest.flatMap (littleEndian size) := List.drop_left' hlength
      rw [htake, hdrop, ofLittleEndian_littleEndian h.1, ih h.2]

theorem Buffer.eq_of_words {b b' : Buffer} (hwidth : b.width = b'.width)
    (hwords : b.words = b'.words) : b = b' := by
  obtain ⟨width, words, fits⟩ := b
  obtain ⟨width', words', fits'⟩ := b'
  dsimp only at hwidth hwords
  subst hwidth hwords
  rfl

/-- **A buffer is read back from its bytes.** -/
theorem Buffer.ofBytes_toBytes (b : Buffer) : Buffer.ofBytes b.width b.toBytes = .ok b := by
  have hlength : b.toBytes.length = b.words.toList.length * b.width.bytes :=
    Layout.length_flatMap_of_length (length_littleEndian b.width.bytes) b.words.toList
  have hcount : b.toBytes.length / b.width.bytes = b.words.toList.length := by
    rw [hlength, Nat.mul_div_cancel _ b.width.bytes_pos]
  have hwords : wordsOfBytes b.width.bytes (b.toBytes.length / b.width.bytes) b.toBytes =
      b.words.toList := by
    rw [hcount]
    exact wordsOfBytes_flatMap fun w hw => b.fits w (Array.mem_toList_iff.1 hw)
  rw [Buffer.ofBytes, if_pos (by rw [hlength, Nat.mul_mod_left])]
  exact congrArg Except.ok (eq_of_words rfl (congrArg List.toArray hwords))

/-! ## What is written is accepted -/

/-- An entry of a level that is written comes from an entry of a row. -/
theorem Node.exists_row_of_mem_stored {n : Node} {nodeAt : Nat → Nat} {layout : NodeLayout}
    {l : StoredLevel} {e : Symbol × Action Nat Nat} (hl : l ∈ (n.stored nodeAt layout).levels)
    (he : e ∈ l) : ∃ level ∈ n.trie.levels, ∃ row entry,
      Trie.Mirrors n.trie.levels level row ∧ (e.1, entry) ∈ row ∧
        storedAction (places nodeAt layout) entry = e.2 := by
  obtain ⟨row, hrow, rfl⟩ := List.mem_map.1 hl
  obtain ⟨level, hlevel, hm⟩ := forall₂_mem_right n.trie.rows_mirror hrow
  obtain ⟨entry, hentry, ha⟩ := mem_storedLevel.1 he
  exact ⟨level, hlevel, row, entry, hm, hentry, ha⟩

/-- The levels of a trie and the places of its rows have the same numbers. -/
theorem Node.length_levels (n : Node) (offset : Nat) :
    (n.layout offset).levels.length = n.trie.levels.length := by
  rw [layout, Layout.length_offsetsFrom, levelSizes, List.length_map,
    n.trie.rows_mirror.length_eq]

namespace Parser

variable {p : Parser} {n : Node} {k : Nat}

theorem exists_node_of_mem_storedNodes {stored : StoredNode} (h : stored ∈ p.storedNodes) :
    ∃ (k : Nat) (n : Node) (offset : Nat), p.nodes[k]? = some n ∧
      p.layouts[k]? = some (n.layout offset) ∧
      stored = n.stored p.nodeAt (n.layout offset) := by
  obtain ⟨k, hk⟩ := List.mem_iff_getElem?.1 h
  have hlt : k < p.nodes.size := by
    have hlength := (List.getElem?_eq_some_iff.1 hk).1
    rwa [storedNodes, length_storedNodesFrom, Array.length_toList] at hlength
  have hn : p.nodes[k]? = some p.nodes[k] := Array.getElem?_eq_getElem hlt
  obtain ⟨offset, -, -, hlayout, hstored⟩ := p.exists_layout hn
  rw [hk, Option.some.injEq] at hstored
  exact ⟨k, p.nodes[k], offset, hn, hlayout, hstored⟩

theorem nodeAt_zero (h : 0 < p.nodes.size) : p.nodeAt 0 = Layout.header := by
  rw [nodeAt, layouts]
  cases hnodes : p.nodes.toList with
  | nil =>
      rw [← Array.length_toList, hnodes] at h
      cases h
  | cons n rest => rfl

/-- What the scan demands of a node. -/
theorem wellFormed_stored (hs : n.Storable p.nodes.size) (layout : NodeLayout) :
    (n.stored p.nodeAt layout).WellFormed := by
  have hlength : (n.stored p.nodeAt layout).reductions.length = n.reductions.length :=
    List.length_map _
  refine ⟨fun h => ?_, fun index hindex => ?_, fun l hl e he => ?_, fun r hr => ?_⟩
  · cases h
  · rw [hlength]
    exact hs.always index hindex
  · rw [hlength]
    obtain ⟨level, hlevel, row, entry, hm, hentry, ha⟩ := Node.exists_row_of_mem_stored hl he
    rw [← ha]
    rcases entry with (⟨target, predict⟩ | index) | number
    · trivial
    · exact (hs.trie.of_mem_levels level hlevel).of_mem_row hm hentry
    · trivial
  · obtain ⟨r', hr', rfl⟩ := List.mem_map.1 hr
    exact hs.head r' hr'

/-- The references of a node name nodes and levels of the table. -/
theorem names_stored (hs : n.Storable p.nodes.size) {offset : Nat}
    (hlayout : p.layouts[k]? = some (n.layout offset)) :
    (n.stored p.nodeAt (n.layout offset)).Names (· ∈ nodeOffsets p.storedNodes)
      (· ∈ levelOffsetsFrom Layout.header p.storedNodes) := by
  refine ⟨fun l hl e he => ?_, fun r hr t ht => ?_⟩
  · obtain ⟨level, hlevel, row, entry, hm, hentry, ha⟩ := Node.exists_row_of_mem_stored hl he
    rw [← ha]
    rcases entry with (⟨target, predict⟩ | index) | number
    · exact p.mem_nodeOffsets ((hs.trie.of_mem_levels level hlevel).of_mem_row hm hentry)
    · trivial
    · obtain ⟨below, hbelow⟩ := hm.exists_of_mem_level hentry
      have hlt : number < (n.layout offset).levels.length := by
        rw [n.length_levels]
        exact (List.getElem?_eq_some_iff.1 hbelow).1
      rw [storedNodes, levelOffsetsFrom_storedNodesFrom]
      refine List.mem_flatMap.2 ⟨_, List.mem_of_getElem? hlayout, ?_⟩
      change (n.layout offset).levels.getD number 0 ∈ (n.layout offset).levels
      rw [List.getD_eq_getElem?_getD, List.getElem?_eq_getElem hlt]
      exact List.getElem_mem hlt
  · obtain ⟨r', hr', rfl⟩ := List.mem_map.1 hr
    obtain ⟨t', ht', rfl⟩ := List.mem_map.1 ht
    obtain ⟨hlast, htarget⟩ := hs.tuple r' hr' t' ht'
    exact ⟨p.mem_nodeOffsets hlast, p.mem_nodeOffsets htarget⟩

/-- **What is written is a table**, and its contents are those of the parser. -/
theorem contains_of_toTable {w : Width} {b : Buffer} (hpos : 0 < p.nodes.size)
    (hs : ∀ (k : Nat) (n : Node), p.nodes[k]? = some n → n.Storable p.nodes.size)
    (h : p.toTable w = .ok b) :
    Contains b.words ⟨p.nodes.size, Layout.header⟩ p.storedNodes := by
  have hwords : Stores b.words 0
      ([p.nodes.size, Layout.header] ++ nodesWords Layout.header p.storedNodes) := by
    rw [(words_of_toTable h).2, cells_eq_words]
    exact stores_toArray _
  rw [stores_append] at hwords
  refine ⟨?_, hwords.1, hwords.2, fun stored hmem => ?_, ?_, fun stored hmem => ?_⟩
  · rw [storedNodes, length_storedNodesFrom, Array.length_toList]
  · obtain ⟨k, n, offset, hn, -, rfl⟩ := exists_node_of_mem_storedNodes hmem
    exact wellFormed_stored (hs k n hn) _
  · dsimp only
    rw [← nodeAt_zero hpos]
    exact p.mem_nodeOffsets hpos
  · obtain ⟨k, n, offset, hn, hlayout, rfl⟩ := exists_node_of_mem_storedNodes hmem
    exact names_stored (hs k n hn) hlayout

end Parser

/-! ## States and places -/

namespace Parser

/-- Which states, levels and reductions of a parser belong to which places of the
table that it is stored as. -/
def correspondence (p : Parser) : Correspondence Nat (Trie Decision) Nat Nat where
  node k place := k < p.nodes.size ∧ p.nodeAt k = place
  level k place level l := ∃ (n : Node) (number : Nat), p.nodes[k]? = some n ∧
    n.trie.levels[number]? = some level ∧ (n.layout place).levels[number]? = some l
  reduction k _ index := ∃ (n : Node) (r : NodeReduction), p.nodes[k]? = some n ∧
    n.reductions[index]? = some r

variable {p : Parser} {t : Table} {n : Node} {k place index : Nat}

theorem node_eq_ok : p.node k = .ok n ↔ p.nodes[k]? = some n := by
  rw [node]
  cases p.nodes[k]? with
  | none => simp [Read.ofOption]
  | some n => simp [Read.ofOption]

/-- Where a state belongs, the contents of its node are stored. -/
theorem stores_of_node (h : Contains t.words t.header p.storedNodes)
    (hk : p.correspondence.node k place) : ∃ n, p.nodes[k]? = some n ∧
      Stores t.words place ((n.stored p.nodeAt (n.layout place)).words place) := by
  obtain ⟨hlt, rfl⟩ := hk
  have hn : p.nodes[k]? = some p.nodes[k] := Array.getElem?_eq_getElem hlt
  obtain ⟨offset, hoffset, rfl, -, hstored⟩ := p.exists_layout hn
  exact ⟨_, hn, Table.stores_node h hstored hoffset⟩

/-- Where a level belongs, the level with its row is stored. -/
theorem exists_level (hs : ∀ (k : Nat) (n : Node), p.nodes[k]? = some n → n.Storable p.nodes.size)
    (h : Contains t.words t.header p.storedNodes) (hk : p.correspondence.node k place)
    {level : Trie Decision} {l : Nat} (hl : p.correspondence.level k place level l) :
    ∃ n row, p.nodes[k]? = some n ∧ Trie.Mirrors n.trie.levels level row ∧
      level.Orderly (Decision.InRange p.nodes.size n.reductions.length) ∧
      Stores t.words l (levelWords (storedLevel (Node.places p.nodeAt (n.layout place)) row)) := by
  obtain ⟨n, hn, hstores⟩ := stores_of_node h hk
  obtain ⟨n', number, hn', hlevel, hplace⟩ := hl
  rw [hn, Option.some.injEq] at hn'
  subst hn'
  obtain ⟨row, hrow, hm⟩ := forall₂_getElem?_left n.trie.rows_mirror hlevel
  have hstored : (n.stored p.nodeAt (n.layout place)).levels[number]? =
      some (storedLevel (Node.places p.nodeAt (n.layout place)) row) := by
    rw [Node.stored, List.getElem?_map, hrow]
    rfl
  refine ⟨n, row, hn, hm,
    (hs k n hn).trie.of_mem_levels level (List.mem_of_getElem? hlevel), ?_⟩
  refine Table.stores_level hstores hstored ?_
  rw [Node.levelOffsets_stored]
  exact hplace

/-- An entry of a trie and the entry that is stored for it lead to the same. -/
theorem actionsAlike_of_mirrors (hn : p.nodes[k]? = some n) {entry : TrieEntry Decision}
    {e : Trie.RowEntry Decision} (h : Trie.MirrorsEntry n.trie.levels entry e)
    (hsettled : ∀ decision, entry = .settled decision →
      decision.InRange p.nodes.size n.reductions.length) :
    p.correspondence.ActionsAlike k place (actionOf entry)
      (storedAction (Node.places p.nodeAt (n.layout place)) e) := by
  cases h with
  | @settled decision =>
      have hrange := hsettled decision rfl
      cases decision with
      | shift target predict => exact .shift ⟨hrange, rfl⟩
      | reduce index => exact .reduce ⟨n, _, hn, List.getElem?_eq_getElem hrange⟩
  | @deeper number below hbelow =>
      refine .descend ⟨n, number, hn, hbelow, ?_⟩
      have hlt : number < (n.layout place).levels.length := by
        rw [n.length_levels]
        exact (List.getElem?_eq_some_iff.1 hbelow).1
      change _ = some ((n.layout place).levels.getD number 0)
      rw [List.getD_eq_getElem?_getD, List.getElem?_eq_getElem hlt]
      rfl

/-- Where a reduction belongs, its contents are stored. -/
theorem exists_reduction (h : Contains t.words t.header p.storedNodes)
    (hk : p.correspondence.node k place) (hr : p.correspondence.reduction k place index) :
    ∃ n r offset, p.nodes[k]? = some n ∧ n.reductions[index]? = some r ∧
      p.reduction k index = .ok r ∧ t.reduction place index = .ok offset ∧
      Stores t.words offset (r.stored (Node.places p.nodeAt (n.layout place))).words := by
  obtain ⟨n, hn, hstores⟩ := stores_of_node h hk
  obtain ⟨n', r, hn', hr⟩ := hr
  rw [hn, Option.some.injEq] at hn'
  subst hn'
  have hstored : (n.stored p.nodeAt (n.layout place)).reductions[index]? =
      some (r.stored (Node.places p.nodeAt (n.layout place))) := by
    rw [Node.stored, List.getElem?_map, hr]
    rfl
  obtain ⟨offset, hoffset, hwords⟩ := Table.reduction_of_getElem? hstores hstored
  refine ⟨n, r, offset, hn, hr, ?_, hoffset, hwords⟩
  rw [reduction, node_eq_ok.2 hn, ok_bind, hr]
  rfl

section Reads

variable (hs : ∀ (k : Nat) (n : Node), p.nodes[k]? = some n → n.Storable p.nodes.size)
  (h : Contains t.words t.header p.storedNodes)

include hs h

theorem always_alike (hk : p.correspondence.node k place) : Alike (· = .outOfFuel)
    (fun a b => a = b ∧ ∀ index, a = some index → p.correspondence.reduction k place index)
    (p.table.always k) (t.table.always place) := by
  obtain ⟨n, hn, hstores⟩ := stores_of_node h hk
  have halways : p.table.always k = .ok n.always := map_eq_ok.2 ⟨n, node_eq_ok.2 hn, rfl⟩
  refine .of_eq_ok halways (Table.always_eq_ok hstores) ⟨rfl, fun index hi => ?_⟩
  exact ⟨n, _, hn, List.getElem?_eq_getElem ((hs k n hn).always index hi)⟩

/-- Halving the stored level finds what the level of the trie says. -/
theorem find_alike {level : Trie Decision} {l : Nat} (s : Symbol)
    (hk : p.correspondence.node k place) (hl : p.correspondence.level k place level l) :
    Alike (· = .outOfFuel) (Option.Rel (p.correspondence.ActionsAlike k place))
      (p.table.find k level s) (t.table.find place l s) := by
  obtain ⟨n, row, hn, hm, horderly, hwords⟩ := exists_level hs h hk hl
  have hsorted : Table.Sorted (storedLevel (Node.places p.nodeAt (n.layout place)) row) := by
    refine sorted_storedLevel ?_
    rw [hm.symbols]
    exact horderly.nodup_symbols
  obtain ⟨found, hfound, hsound, hcomplete⟩ := Table.find_spec hwords s
  have hparser : p.table.find k level s = .ok ((level.find? s).map actionOf) := rfl
  refine .of_eq_ok hparser hfound ?_
  cases hentry : level.find? s with
  | none =>
      cases found with
      | none => exact .none
      | some a =>
          obtain ⟨e, he, -⟩ := mem_storedLevel.1 (hsound a rfl)
          refine absurd ?_ (Trie.find?_eq_none_iff.1 hentry)
          rw [← hm.symbols]
          exact List.mem_map_of_mem he
  | some entry =>
      obtain ⟨e, he, hmirrors⟩ := hm.exists_mem hentry
      rw [hcomplete hsorted _ (mem_storedLevel.2 ⟨e, he, rfl⟩)]
      refine .some (actionsAlike_of_mirrors hn hmirrors fun decision hd => ?_)
      subst hd
      cases hmirrors
      exact horderly.of_mem_row hm he

theorem symbols_alike {level : Trie Decision} {l : Nat} (hk : p.correspondence.node k place)
    (hl : p.correspondence.level k place level l) :
    Alike (· = .outOfFuel) (fun xs ys => xs.Perm ys ∧ (Fault.outOfBounds = .outOfFuel → xs = ys))
      (p.table.symbols k level) (t.table.symbols place l) := by
  obtain ⟨n, row, -, hm, -, hwords⟩ := exists_level hs h hk hl
  have hparser : p.table.symbols k level = .ok level.symbols := rfl
  refine .of_eq_ok hparser (Table.symbols_eq_ok hwords) ⟨?_, fun h => nomatch h⟩
  rw [← hm.symbols]
  exact symbols_storedLevel_perm.symm

omit hs in
theorem property_alike (hk : p.correspondence.node k place)
    (hr : p.correspondence.reduction k place index) :
    Alike (· = .outOfFuel) Eq (p.table.property k index) (t.table.property place index) := by
  obtain ⟨n, r, offset, -, -, hreduction, hoffset, hwords⟩ := exists_reduction h hk hr
  have hparser : p.table.property k index = .ok r.property := map_eq_ok.2 ⟨r, hreduction, rfl⟩
  have htable : t.table.property place index = .ok r.property := by
    refine bind_eq_ok.2 ⟨offset, hoffset, ?_⟩
    rw [Table.propertyAt_eq_ok hwords, NodeReduction.property_stored]
  exact .of_eq_ok hparser htable rfl

/-- Distinct nodes are stored at distinct places, so the tuple that fits is the
same. -/
theorem landing_alike {last last' : Nat} (hk : p.correspondence.node k place)
    (hr : p.correspondence.reduction k place index) (hlast : p.correspondence.node last last') :
    Alike (· = .outOfFuel) (Option.Rel p.correspondence.LandingsAlike)
      (p.table.landing k index last) (t.table.landing place index last') := by
  obtain ⟨n, r, offset, hn, hr, hreduction, hoffset, hwords⟩ := exists_reduction h hk hr
  obtain ⟨hlt, rfl⟩ := hlast
  have hparser : p.table.landing k index last =
      .ok ((r.tuples.find? (·.last == last)).map fun u => ⟨u.target, u.predict⟩) :=
    map_eq_ok.2 ⟨r, hreduction, rfl⟩
  have htable := Table.landingAt_eq_ok hwords (p.nodeAt last)
  refine .of_eq_ok hparser (bind_eq_ok.2 ⟨offset, hoffset, htable⟩) ?_
  rw [NodeReduction.stored]
  have htuples := (hs k n hn).tuple r (List.mem_of_getElem? hr)
  generalize r.tuples = tuples at htuples ⊢
  induction tuples with
  | nil => exact .none
  | cons u rest ih =>
      rw [List.forall_mem_cons] at htuples
      rw [List.map_cons, List.find?_cons, List.find?_cons]
      by_cases heq : u.last = last
      · rw [beq_iff_eq.2 heq]
        have hplace : ((Node.places p.nodeAt (n.layout place)).node u.last == p.nodeAt last) =
            true := beq_iff_eq.2 (congrArg p.nodeAt heq)
        rw [hplace]
        exact .some ⟨⟨htuples.1.2, rfl⟩, rfl⟩
      · rw [beq_eq_false_iff_ne.2 heq]
        have hplace : ((Node.places p.nodeAt (n.layout place)).node u.last == p.nodeAt last) =
            false := beq_eq_false_iff_ne.2 fun h => heq (p.nodeAt_injective htuples.1.1 hlt h)
        rw [hplace]
        exact ih htuples.2

/-- **A parser and its table respect the correspondence**: all that the machine
reads in them is alike. -/
theorem respected (hpos : 0 < p.nodes.size) (hstartup : t.header.startup = Layout.header) :
    p.correspondence.Respected (· = .outOfFuel) p.table t.table where
  outOfFuel := rfl
  startup := ⟨hpos, (nodeAt_zero hpos).trans hstartup.symm⟩
  root {k place} hk := by
    obtain ⟨n, hn, hstores⟩ := stores_of_node h hk
    have hroot : p.table.root k = .ok n.trie := map_eq_ok.2 ⟨n, node_eq_ok.2 hn, rfl⟩
    refine .of_eq_ok hroot (Table.rootLevel_eq_ok hstores) ⟨n, 0, hn, rfl, ?_⟩
    rw [Node.root_stored]
    rfl
  always := always_alike hs h
  find := find_alike hs h
  symbols := symbols_alike hs h
  property := property_alike h
  landing := landing_alike hs h

end Reads

end Parser

/-! ## Storing and reading again -/

/-- What is written for a compiled grammar is a table with the contents of its
parser. -/
theorem Grammar.contains_of_toTable {grammar : Grammar} {bound : Nat} {p : Parser} {w : Width}
    {b : Buffer} (hp : grammar.compile bound = .ok p) (hb : p.toTable w = .ok b) :
    0 < p.nodes.size ∧
      (∀ (k : Nat) (n : Node), p.nodes[k]? = some n → n.Storable p.nodes.size) ∧
      Contains b.words ⟨p.nodes.size, Layout.header⟩ p.storedNodes := by
  obtain ⟨-, hcompiled⟩ := Grammar.compiled_of_compile hp
  have hs : ∀ (k : Nat) (n : Node), p.nodes[k]? = some n → n.Storable p.nodes.size :=
    fun k n hn => hcompiled.storable (Parser.node_eq_ok.2 hn)
  have hpos : 0 < p.nodes.size := by
    rw [hcompiled.size_nodes]
    exact hcompiled.realises.count_pos
  exact ⟨hpos, hs, Parser.contains_of_toTable hpos hs hb⟩

/-- So the table respects the correspondence with the parser. -/
theorem Grammar.respected_of_toTable {grammar : Grammar} {bound : Nat} {p : Parser} {w : Width}
    {b : Buffer} {t : Table} (hp : grammar.compile bound = .ok p) (hb : p.toTable w = .ok b)
    (ht : Table.ofWords b.words = .ok t) : Contains t.words t.header p.storedNodes ∧
      p.correspondence.Respected (· = .outOfFuel) p.table t.table := by
  obtain ⟨hpos, hs, hcontains⟩ := Grammar.contains_of_toTable hp hb
  have hwords := Table.ofWords_eq_ok.1 ht
  have hheader : t.header = ⟨p.nodes.size, Layout.header⟩ := by
    have haccepted := t.accepted
    rw [hwords] at haccepted
    exact Except.ok.inj (haccepted.symm.trans (Scan.header_eq_ok.2 ⟨_, hcontains⟩))
  have hcontains' : Contains t.words t.header p.storedNodes := by
    rw [hwords, hheader]
    exact hcontains
  exact ⟨hcontains', Parser.respected hs hcontains' hpos (by rw [hheader])⟩

/-- **A compiled grammar and its table are interchangeable.**  If a compiled grammar
can be stored in words of some width, the words are read back from their bytes,
they are accepted as a table, and no sequence of operations on a session tells the
table from the grammar: all replies are the same, and one session goes on exactly
as long as the other. -/
theorem Grammar.transcript_of_toTable {grammar : Grammar} {bound : Nat} {p : Parser} {w : Width}
    {b : Buffer} (hp : grammar.compile bound = .ok p) (hb : p.toTable w = .ok b) :
    Buffer.ofBytes w b.toBytes = .ok b ∧ ∃ t, Table.ofWords b.words = .ok t ∧
      ∀ moves operations, Session.transcript p.table moves operations =
        Session.transcript t.table moves operations := by
  obtain ⟨-, -, hcontains⟩ := Grammar.contains_of_toTable hp hb
  have ht : Table.ofWords b.words = .ok ⟨b.words, _, Scan.header_eq_ok.2 ⟨_, hcontains⟩⟩ :=
    Table.ofWords_eq_ok.2 rfl
  refine ⟨?_, _, ht, fun moves operations => ?_⟩
  · rw [← (Parser.words_of_toTable hb).1]
    exact b.ofBytes_toBytes
  · obtain ⟨-, hrespected⟩ := Grammar.respected_of_toTable hp hb ht
    exact (Correspondence.transcript_alike hrespected moves operations).eq

/-- Whether a grammar compiles and can be stored in words of a given width. -/
def Grammar.stores (grammar : Grammar) (bound : Nat) (w : Width) : Bool :=
  yields (grammar.compile bound) fun p => yields (p.toTable w) fun _ => true

theorem Grammar.exists_of_stores {grammar : Grammar} {bound : Nat} {w : Width}
    (h : grammar.stores bound w = true) :
    ∃ p b, grammar.compile bound = .ok p ∧ p.toTable w = .ok b := by
  obtain ⟨p, hp, h⟩ := exists_of_yields h
  obtain ⟨b, hb, -⟩ := exists_of_yields h
  exact ⟨p, b, hp, hb⟩

/-- The forked grammar can be stored in the smallest words. -/
theorem Grammar.transcript_of_toTable_forked : ∃ p b, forked.compile 1 = .ok p ∧
    p.toTable .bits16 = .ok b ∧ Buffer.ofBytes .bits16 b.toBytes = .ok b ∧
    ∃ t, Table.ofWords b.words = .ok t ∧ ∀ moves operations,
      Session.transcript p.table moves operations =
        Session.transcript t.table moves operations := by
  obtain ⟨p, b, hp, hb⟩ := exists_of_stores
    (show forked.stores 1 .bits16 = true by decide +kernel)
  exact ⟨p, b, hp, hb, transcript_of_toTable hp hb⟩

end BoundedLR
