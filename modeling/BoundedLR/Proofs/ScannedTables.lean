import BoundedLR.Proofs.Sequencing
import BoundedLR.Proofs.StoredContents
import BoundedLR.Table.Scan

/-!
# The scan accepts exactly the tables

The scan is meant to accept words exactly if they can be read as nodes, levels and
reductions whose references all name a record of the right sort.  This is
`header_eq_ok`: the scan succeeds if and only if the words have contents in the
sense of `Contains`.

The scan is built in layers, and so is the proof.  For each layer there is a lemma
that says that the layer succeeds exactly if the words from its place on are those
of some well-formed contents, and that the catalog it makes is the one that the
contents have there.  The references are looked at only when all nodes have been
scanned, so the catalogs have to be carried along; what a catalog refers to is
what the contents refer to, which is shown for each layer beside it.
-/

namespace BoundedLR
namespace Scan

/-! ## Catalogs -/

namespace Catalog

@[simp] theorem nodes_append (c d : Catalog) : (c ++ d).nodes = c.nodes ++ d.nodes := rfl

@[simp] theorem levels_append (c d : Catalog) : (c ++ d).levels = c.levels ++ d.levels := rfl

@[simp] theorem nodeReferences_append (c d : Catalog) :
    (c ++ d).nodeReferences = c.nodeReferences ++ d.nodeReferences := rfl

@[simp] theorem levelReferences_append (c d : Catalog) :
    (c ++ d).levelReferences = c.levelReferences ++ d.levelReferences := rfl

/-- The references that a catalog lists are of the given sorts. -/
def Names (node level : Nat → Prop) (c : Catalog) : Prop :=
  (∀ r ∈ c.nodeReferences, node r.2) ∧ ∀ r ∈ c.levelReferences, level r.2

variable {node level : Nat → Prop}

theorem names_append {c d : Catalog} :
    (c ++ d).Names node level ↔ c.Names node level ∧ d.Names node level := by
  simp only [Names, nodeReferences_append, levelReferences_append, List.forall_mem_append]
  exact and_and_and_comm

theorem names_empty : Catalog.empty.Names node level :=
  ⟨fun _ h => absurd h List.not_mem_nil, fun _ h => absurd h List.not_mem_nil⟩

theorem names_node (n : Nat) : (Catalog.node n).Names node level :=
  ⟨fun _ h => absurd h List.not_mem_nil, fun _ h => absurd h List.not_mem_nil⟩

theorem names_level (n : Nat) : (Catalog.level n).Names node level :=
  ⟨fun _ h => absurd h List.not_mem_nil, fun _ h => absurd h List.not_mem_nil⟩

theorem names_nodeReference {n target : Nat} :
    (nodeReference n target).Names node level ↔ node target := by
  simp [Names, nodeReference, empty]

theorem names_levelReference {n target : Nat} :
    (levelReference n target).Names node level ↔ level target := by
  simp [Names, levelReference, empty]

end Catalog

/-! ## Words and checks -/

variable {words : Array Nat} {n count : Nat} {catalog : Catalog} {node level : Nat → Prop}

theorem word_eq_ok {w : Nat} : word words n = .ok w ↔ words[n]? = some w := by
  rw [word]
  cases words[n]? with
  | none => simp
  | some w => simp

theorem require_eq_ok {condition : Bool} {defect : Defect} {u : Unit} :
    require condition defect n = .ok u ↔ condition = true := by
  rw [require]
  cases condition <;> simp

/-- A list with no member. -/
theorem exists_length_zero {α : Type} {P : List α → Prop} : (∃ l, l.length = 0 ∧ P l) ↔ P [] := by
  simp only [List.length_eq_zero_iff, exists_eq_left]

/-- A list with one more member. -/
theorem exists_length_succ {α : Type} {P : List α → Prop} :
    (∃ l, l.length = count + 1 ∧ P l) ↔ ∃ x l, l.length = count ∧ P (x :: l) := by
  constructor
  · rintro ⟨l, hlength, hl⟩
    obtain ⟨x, rest, rfl⟩ := List.exists_cons_of_length_eq_add_one hlength
    exact ⟨x, rest, Nat.succ.inj hlength, hl⟩
  · rintro ⟨x, l, rfl, hl⟩
    exact ⟨x :: l, rfl, hl⟩

theorem isSome_ofCode?_iff {code : Nat} :
    (Symbol.ofCode? code).isSome = true ↔ ∃ s : Symbol, s.code = code := by
  rw [Option.isSome_iff_exists]
  constructor
  · rintro ⟨s, hs⟩
    exact ⟨s, Symbol.code_of_ofCode? hs⟩
  · rintro ⟨s, rfl⟩
    exact ⟨s, Symbol.ofCode?_code s⟩

theorem flag_le_one_iff {flag : Nat} : flag ≤ 1 ↔ ∃ b : Bool, b.toNat = flag := by
  constructor
  · intro h
    by_cases h0 : flag = 0
    · exact ⟨false, h0.symm⟩
    · have h1 : flag = 1 := by omega
      exact ⟨true, h1.symm⟩
  · rintro ⟨b, rfl⟩
    exact b.toNat_le

/-! ## Entries -/

/-- The catalog of an entry that stands for an action. -/
def actionCatalog (n : Nat) : Action Nat Nat → Catalog
  | .descend level => .levelReference (n + 2) level
  | .shift target _ => .nodeReference (n + 2) target
  | .reduce _ => .empty

theorem names_actionCatalog {a : Action Nat Nat} :
    (actionCatalog n a).Names node level ↔ a.Names node level := by
  cases a with
  | descend l => exact Catalog.names_levelReference
  | shift target predict => exact Catalog.names_nodeReference
  | reduce index => exact iff_of_true Catalog.names_empty trivial

theorem nodes_actionCatalog (a : Action Nat Nat) : (actionCatalog n a).nodes = [] := by
  cases a <;> rfl

theorem levels_actionCatalog (a : Action Nat Nat) : (actionCatalog n a).levels = [] := by
  cases a <;> rfl

/-- A kind and a value are those of an action. -/
theorem entryReferences_eq_ok {reductions kind value : Nat} :
    entryReferences reductions kind n value = .ok catalog ↔
      ∃ a : Action Nat Nat, kind = a.kind ∧ value = a.value ∧ a.InRange reductions ∧
        catalog = actionCatalog n a := by
  constructor
  · intro h
    unfold entryReferences at h
    split at h
    · rename_i hkind
      exact ⟨.descend value, hkind, rfl, trivial, (Except.ok.inj h).symm⟩
    · split at h
      · rename_i hkind
        rcases hkind with hkind | hkind
        · exact ⟨.shift value false, hkind, rfl, trivial, (Except.ok.inj h).symm⟩
        · exact ⟨.shift value true, hkind, rfl, trivial, (Except.ok.inj h).symm⟩
      · split at h
        · rename_i hkind
          obtain ⟨u, hu, h⟩ := bind_eq_ok.1 h
          have hlt : value < reductions := of_decide_eq_true (require_eq_ok.1 hu)
          exact ⟨.reduce value, hkind, rfl, hlt, (Except.ok.inj h).symm⟩
        · cases h
  · rintro ⟨a, rfl, rfl, hrange, rfl⟩
    cases a with
    | descend l => rfl
    | shift target predict => cases predict <;> rfl
    | reduce index =>
        have hcheck : require (decide (index < reductions)) .reductionIndex (n + 2) = .ok () :=
          require_eq_ok.2 (decide_eq_true hrange)
        change (require (decide (index < reductions)) .reductionIndex (n + 2) >>= _) = _
        rw [hcheck]
        rfl

theorem scanEntry_eq_ok {reductions : Nat} :
    scanEntry words reductions n = .ok catalog ↔
      ∃ e : Symbol × Action Nat Nat, Stores words n (entryWords e) ∧ e.2.InRange reductions ∧
        catalog = actionCatalog n e.2 := by
  constructor
  · intro h
    obtain ⟨code, hcode, h⟩ := bind_eq_ok.1 h
    obtain ⟨u, hsymbol, h⟩ := bind_eq_ok.1 h
    obtain ⟨kind, hkind, h⟩ := bind_eq_ok.1 h
    obtain ⟨value, hvalue, h⟩ := bind_eq_ok.1 h
    obtain ⟨a, rfl, rfl, hrange, rfl⟩ := entryReferences_eq_ok.1 h
    obtain ⟨s, rfl⟩ := isSome_ofCode?_iff.1 (require_eq_ok.1 hsymbol)
    refine ⟨(s, a), ?_, hrange, rfl⟩
    rw [entryWords, stores_cons, stores_cons, stores_cons]
    exact ⟨word_eq_ok.1 hcode, word_eq_ok.1 hkind, word_eq_ok.1 hvalue, stores_nil⟩
  · rintro ⟨⟨s, a⟩, hstores, hrange, rfl⟩
    rw [entryWords, stores_cons, stores_cons, stores_cons] at hstores
    obtain ⟨hcode, hkind, hvalue, -⟩ := hstores
    refine bind_eq_ok.2 ⟨_, word_eq_ok.2 hcode, bind_eq_ok.2 ⟨(), ?_, ?_⟩⟩
    · exact require_eq_ok.2 (isSome_ofCode?_iff.2 ⟨s, rfl⟩)
    refine bind_eq_ok.2 ⟨_, word_eq_ok.2 hkind, bind_eq_ok.2 ⟨_, word_eq_ok.2 hvalue, ?_⟩⟩
    exact entryReferences_eq_ok.2 ⟨a, rfl, rfl, hrange, rfl⟩

/-! ## Levels -/

/-- The catalog of entries that stand one behind the other. -/
def entriesCatalog (n : Nat) : StoredLevel → Catalog
  | [] => .empty
  | e :: rest => actionCatalog n e.2 ++ entriesCatalog (n + Layout.entry) rest

theorem names_entriesCatalog {l : StoredLevel} :
    (entriesCatalog n l).Names node level ↔ ∀ e ∈ l, e.2.Names node level := by
  induction l generalizing n with
  | nil => exact iff_of_true Catalog.names_empty fun _ h => absurd h List.not_mem_nil
  | cons e rest ih =>
      rw [entriesCatalog, Catalog.names_append, names_actionCatalog, ih, List.forall_mem_cons]

theorem nodes_entriesCatalog (l : StoredLevel) : (entriesCatalog n l).nodes = [] := by
  induction l generalizing n with
  | nil => rfl
  | cons e rest ih => rw [entriesCatalog, Catalog.nodes_append, nodes_actionCatalog, ih,
      List.append_nil]

theorem levels_entriesCatalog (l : StoredLevel) : (entriesCatalog n l).levels = [] := by
  induction l generalizing n with
  | nil => rfl
  | cons e rest ih => rw [entriesCatalog, Catalog.levels_append, levels_actionCatalog, ih,
      List.append_nil]

theorem scanEntries_eq_ok {reductions : Nat} :
    scanEntries words reductions count n = .ok catalog ↔
      ∃ l : StoredLevel, l.length = count ∧ Stores words n (l.flatMap entryWords) ∧
        (∀ e ∈ l, e.2.InRange reductions) ∧ catalog = entriesCatalog n l := by
  induction count generalizing n catalog with
  | zero =>
      rw [exists_length_zero]
      constructor
      · intro h
        exact ⟨stores_nil, List.forall_mem_nil _, (Except.ok.inj h).symm⟩
      · rintro ⟨-, -, rfl⟩
        rfl
  | succ count ih =>
      rw [exists_length_succ]
      constructor
      · intro h
        obtain ⟨first, hfirst, h⟩ := bind_eq_ok.1 h
        obtain ⟨rest, hrest, h⟩ := bind_eq_ok.1 h
        obtain ⟨e, hstores, hrange, rfl⟩ := scanEntry_eq_ok.1 hfirst
        obtain ⟨l, rfl, hstores', hrange', rfl⟩ := ih.1 hrest
        refine ⟨e, l, rfl, ?_, List.forall_mem_cons.2 ⟨hrange, hrange'⟩,
          (Except.ok.inj h).symm⟩
        rw [List.flatMap_cons, stores_append, length_entryWords]
        exact ⟨hstores, hstores'⟩
      · rintro ⟨e, rest, hlength, hstores, hrange, rfl⟩
        rw [List.flatMap_cons, stores_append, length_entryWords] at hstores
        rw [List.forall_mem_cons] at hrange
        refine bind_eq_ok.2 ⟨_, scanEntry_eq_ok.2 ⟨e, hstores.1, hrange.1, rfl⟩, ?_⟩
        exact bind_eq_ok.2 ⟨_, ih.2 ⟨rest, hlength, hstores.2, hrange.2, rfl⟩, rfl⟩

/-- The catalog of levels that stand one behind the other. -/
def levelsCatalog (n : Nat) : List StoredLevel → Catalog
  | [] => .empty
  | l :: rest => .level n ++ entriesCatalog (n + Layout.levelHead) l ++
      levelsCatalog (n + levelSize l) rest

theorem names_levelsCatalog {ls : List StoredLevel} :
    (levelsCatalog n ls).Names node level ↔ ∀ l ∈ ls, ∀ e ∈ l, e.2.Names node level := by
  induction ls generalizing n with
  | nil => exact iff_of_true Catalog.names_empty fun _ h => absurd h List.not_mem_nil
  | cons l rest ih =>
      rw [levelsCatalog, Catalog.names_append, Catalog.names_append, names_entriesCatalog, ih,
        List.forall_mem_cons]
      exact and_congr_left fun _ => and_iff_right (Catalog.names_level n)

theorem nodes_levelsCatalog (ls : List StoredLevel) : (levelsCatalog n ls).nodes = [] := by
  induction ls generalizing n with
  | nil => rfl
  | cons l rest ih =>
      rw [levelsCatalog, Catalog.nodes_append, Catalog.nodes_append, nodes_entriesCatalog, ih]
      rfl

theorem levels_levelsCatalog (ls : List StoredLevel) :
    (levelsCatalog n ls).levels = Layout.offsetsFrom n (ls.map levelSize) := by
  induction ls generalizing n with
  | nil => rfl
  | cons l rest ih =>
      rw [levelsCatalog, Catalog.levels_append, Catalog.levels_append, levels_entriesCatalog, ih]
      rfl

theorem scanLevels_eq_ok {reductions stop : Nat} :
    scanLevels words reductions count n = .ok (catalog, stop) ↔
      ∃ ls : List StoredLevel, ls.length = count ∧ Stores words n (ls.flatMap levelWords) ∧
        (∀ l ∈ ls, ∀ e ∈ l, e.2.InRange reductions) ∧ catalog = levelsCatalog n ls ∧
        stop = n + Layout.total (ls.map levelSize) := by
  induction count generalizing n catalog stop with
  | zero =>
      rw [exists_length_zero]
      constructor
      · intro h
        cases Except.ok.inj h
        exact ⟨stores_nil, List.forall_mem_nil _, rfl, rfl⟩
      · rintro ⟨-, -, rfl, rfl⟩
        rfl
  | succ count ih =>
      rw [exists_length_succ]
      constructor
      · intro h
        obtain ⟨entries, hentries, h⟩ := bind_eq_ok.1 h
        obtain ⟨first, hfirst, h⟩ := bind_eq_ok.1 h
        obtain ⟨⟨rest, stop'⟩, hrest, h⟩ := bind_eq_ok.1 h
        obtain ⟨l, rfl, hstores, hrange, rfl⟩ := scanEntries_eq_ok.1 hfirst
        obtain ⟨ls, rfl, hstores', hrange', rfl, rfl⟩ := ih.1 hrest
        cases Except.ok.inj h
        refine ⟨l, ls, rfl, ?_, List.forall_mem_cons.2 ⟨hrange, hrange'⟩, rfl, ?_⟩
        · rw [List.flatMap_cons, stores_append, length_levelWords, levelWords, stores_cons]
          exact ⟨⟨word_eq_ok.1 hentries, hstores⟩, hstores'⟩
        · rw [List.map_cons, Layout.total, ← Nat.add_assoc]
          rfl
      · rintro ⟨l, rest, hlength, hstores, hrange, rfl, rfl⟩
        rw [List.flatMap_cons, stores_append, length_levelWords, levelWords, stores_cons]
          at hstores
        obtain ⟨⟨hentries, hfirst⟩, hrest⟩ := hstores
        rw [List.forall_mem_cons] at hrange
        refine bind_eq_ok.2 ⟨_, word_eq_ok.2 hentries, ?_⟩
        refine bind_eq_ok.2 ⟨_, scanEntries_eq_ok.2 ⟨l, rfl, hfirst, hrange.1, rfl⟩, ?_⟩
        refine bind_eq_ok.2 ⟨_, ih.2 ⟨rest, hlength, hrest, hrange.2, rfl, rfl⟩, ?_⟩
        rw [List.map_cons, Layout.total, ← Nat.add_assoc]
        rfl

/-! ## Reductions -/

/-- The catalog of tuples that stand one behind the other. -/
def tuplesCatalog (n : Nat) : List Tuple → Catalog
  | [] => .empty
  | t :: rest => .nodeReference n t.last ++ .nodeReference (n + 1) t.target ++
      tuplesCatalog (n + Layout.tuple) rest

theorem names_tuplesCatalog {ts : List Tuple} :
    (tuplesCatalog n ts).Names node level ↔ ∀ t ∈ ts, node t.last ∧ node t.target := by
  induction ts generalizing n with
  | nil => exact iff_of_true Catalog.names_empty fun _ h => absurd h List.not_mem_nil
  | cons t rest ih =>
      rw [tuplesCatalog, Catalog.names_append, Catalog.names_append, Catalog.names_nodeReference,
        Catalog.names_nodeReference, ih, List.forall_mem_cons]

theorem nodes_tuplesCatalog (ts : List Tuple) : (tuplesCatalog n ts).nodes = [] := by
  induction ts generalizing n with
  | nil => rfl
  | cons t rest ih =>
      rw [tuplesCatalog, Catalog.nodes_append, Catalog.nodes_append, ih]
      rfl

theorem levels_tuplesCatalog (ts : List Tuple) : (tuplesCatalog n ts).levels = [] := by
  induction ts generalizing n with
  | nil => rfl
  | cons t rest ih =>
      rw [tuplesCatalog, Catalog.levels_append, Catalog.levels_append, ih]
      rfl

theorem scanTuple_eq_ok :
    scanTuple words n = .ok catalog ↔ ∃ t : Tuple, Stores words n t.words ∧
      catalog = .nodeReference n t.last ++ .nodeReference (n + 1) t.target := by
  constructor
  · intro h
    obtain ⟨last, hlast, h⟩ := bind_eq_ok.1 h
    obtain ⟨target, htarget, h⟩ := bind_eq_ok.1 h
    obtain ⟨flag, hflag, h⟩ := bind_eq_ok.1 h
    obtain ⟨u, hu, h⟩ := bind_eq_ok.1 h
    cases Except.ok.inj h
    obtain ⟨predict, rfl⟩ := flag_le_one_iff.1 (of_decide_eq_true (require_eq_ok.1 hu))
    refine ⟨⟨last, target, predict⟩, ?_, rfl⟩
    rw [Tuple.words, stores_cons, stores_cons, stores_cons]
    exact ⟨word_eq_ok.1 hlast, word_eq_ok.1 htarget, word_eq_ok.1 hflag, stores_nil⟩
  · rintro ⟨t, hstores, rfl⟩
    rw [Tuple.words, stores_cons, stores_cons, stores_cons] at hstores
    obtain ⟨hlast, htarget, hflag, -⟩ := hstores
    refine bind_eq_ok.2 ⟨_, word_eq_ok.2 hlast, bind_eq_ok.2 ⟨_, word_eq_ok.2 htarget, ?_⟩⟩
    refine bind_eq_ok.2 ⟨_, word_eq_ok.2 hflag, bind_eq_ok.2 ⟨(), ?_, rfl⟩⟩
    exact require_eq_ok.2 (decide_eq_true (flag_le_one_iff.2 ⟨_, rfl⟩))

theorem scanTuples_eq_ok :
    scanTuples words count n = .ok catalog ↔
      ∃ ts : List Tuple, ts.length = count ∧ Stores words n (ts.flatMap Tuple.words) ∧
        catalog = tuplesCatalog n ts := by
  induction count generalizing n catalog with
  | zero =>
      rw [exists_length_zero]
      constructor
      · intro h
        exact ⟨stores_nil, (Except.ok.inj h).symm⟩
      · rintro ⟨-, rfl⟩
        rfl
  | succ count ih =>
      rw [exists_length_succ]
      constructor
      · intro h
        obtain ⟨first, hfirst, h⟩ := bind_eq_ok.1 h
        obtain ⟨rest, hrest, h⟩ := bind_eq_ok.1 h
        obtain ⟨t, hstores, rfl⟩ := scanTuple_eq_ok.1 hfirst
        obtain ⟨ts, rfl, hstores', rfl⟩ := ih.1 hrest
        refine ⟨t, ts, rfl, ?_, (Except.ok.inj h).symm⟩
        rw [List.flatMap_cons, stores_append, Tuple.length_words]
        exact ⟨hstores, hstores'⟩
      · rintro ⟨t, rest, hlength, hstores, rfl⟩
        rw [List.flatMap_cons, stores_append, Tuple.length_words] at hstores
        refine bind_eq_ok.2 ⟨_, scanTuple_eq_ok.2 ⟨t, hstores.1, rfl⟩, ?_⟩
        exact bind_eq_ok.2 ⟨_, ih.2 ⟨rest, hlength, hstores.2, rfl⟩, rfl⟩

/-- The catalog of reductions that stand one behind the other. -/
def reductionsCatalog (n : Nat) : List StoredReduction → Catalog
  | [] => .empty
  | r :: rest => tuplesCatalog (n + Layout.reductionHead) r.tuples ++
      reductionsCatalog (n + r.size) rest

theorem names_reductionsCatalog {rs : List StoredReduction} :
    (reductionsCatalog n rs).Names node level ↔
      ∀ r ∈ rs, ∀ t ∈ r.tuples, node t.last ∧ node t.target := by
  induction rs generalizing n with
  | nil => exact iff_of_true Catalog.names_empty fun _ h => absurd h List.not_mem_nil
  | cons r rest ih =>
      rw [reductionsCatalog, Catalog.names_append, names_tuplesCatalog, ih, List.forall_mem_cons]

theorem nodes_reductionsCatalog (rs : List StoredReduction) :
    (reductionsCatalog n rs).nodes = [] := by
  induction rs generalizing n with
  | nil => rfl
  | cons r rest ih =>
      rw [reductionsCatalog, Catalog.nodes_append, nodes_tuplesCatalog, ih, List.append_nil]

theorem levels_reductionsCatalog (rs : List StoredReduction) :
    (reductionsCatalog n rs).levels = [] := by
  induction rs generalizing n with
  | nil => rfl
  | cons r rest ih =>
      rw [reductionsCatalog, Catalog.levels_append, levels_tuplesCatalog, ih, List.append_nil]

theorem any_isNonTerminal_ofCode?_iff {code : Nat} :
    (Symbol.ofCode? code).any Symbol.isNonTerminal = true ↔
      ∃ s : Symbol, s.code = code ∧ s.isNonTerminal = true := by
  constructor
  · intro h
    cases hs : Symbol.ofCode? code with
    | none =>
        rw [hs] at h
        cases h
    | some s =>
        rw [hs] at h
        exact ⟨s, Symbol.code_of_ofCode? hs, h⟩
  · rintro ⟨s, rfl, hs⟩
    rw [Symbol.ofCode?_code]
    exact hs

/-- Scanning one more reduction finds its words. -/
theorem scanReductions_succ {slot stop : Nat} :
    scanReductions words (count + 1) slot n = .ok (catalog, stop) ↔
      ∃ r : StoredReduction, words[slot]? = some n ∧ Stores words n r.words ∧
        r.head.isNonTerminal = true ∧ ∃ rest,
          scanReductions words count (slot + 1) (n + r.size) = .ok (rest, stop) ∧
          catalog = tuplesCatalog (n + Layout.reductionHead) r.tuples ++ rest := by
  constructor
  · intro h
    obtain ⟨offset, hoffset, h⟩ := bind_eq_ok.1 h
    obtain ⟨u₁, hplace, h⟩ := bind_eq_ok.1 h
    obtain ⟨code, hcode, h⟩ := bind_eq_ok.1 h
    obtain ⟨u₂, hhead, h⟩ := bind_eq_ok.1 h
    obtain ⟨flag, hflag, h⟩ := bind_eq_ok.1 h
    obtain ⟨u₃, hpredict, h⟩ := bind_eq_ok.1 h
    obtain ⟨tuples, htuples, h⟩ := bind_eq_ok.1 h
    obtain ⟨first, hfirst, h⟩ := bind_eq_ok.1 h
    obtain ⟨⟨rest, stop'⟩, hrest, h⟩ := bind_eq_ok.1 h
    cases Except.ok.inj h
    obtain ⟨ts, rfl, hstored, rfl⟩ := scanTuples_eq_ok.1 hfirst
    obtain ⟨head, rfl, hnonterminal⟩ := any_isNonTerminal_ofCode?_iff.1 (require_eq_ok.1 hhead)
    obtain ⟨predict, rfl⟩ := flag_le_one_iff.1 (of_decide_eq_true (require_eq_ok.1 hpredict))
    obtain rfl : offset = n := eq_of_beq (require_eq_ok.1 hplace)
    rw [word_eq_ok] at hoffset hcode hflag htuples
    -- The scan skips these three words; they are there because later ones are.
    obtain ⟨rule, hrule⟩ := exists_word_of_le htuples (n := offset + 1) (by omega)
    obtain ⟨elements, helements⟩ := exists_word_of_le htuples (n := offset + 2) (by omega)
    obtain ⟨mask, hmask⟩ := exists_word_of_le htuples (n := offset + 3) (by omega)
    exact ⟨⟨head, rule, elements, mask, predict, ts⟩, hoffset, StoredReduction.stores_words.2
      ⟨hcode, hrule, helements, hmask, hflag, htuples, hstored⟩, hnonterminal, rest, hrest, rfl⟩
  · rintro ⟨r, hslot, hstores, hhead, rest, hrest, rfl⟩
    obtain ⟨hcode, -, -, -, hflag, htuples, hstored⟩ := StoredReduction.stores_words.1 hstores
    refine bind_eq_ok.2 ⟨_, word_eq_ok.2 hslot, bind_eq_ok.2 ⟨(), ?_, ?_⟩⟩
    · exact require_eq_ok.2 (beq_self_eq_true n)
    refine bind_eq_ok.2 ⟨_, word_eq_ok.2 hcode, bind_eq_ok.2 ⟨(), ?_, ?_⟩⟩
    · exact require_eq_ok.2 (any_isNonTerminal_ofCode?_iff.2 ⟨_, rfl, hhead⟩)
    refine bind_eq_ok.2 ⟨_, word_eq_ok.2 hflag, bind_eq_ok.2 ⟨(), ?_, ?_⟩⟩
    · exact require_eq_ok.2 (decide_eq_true (flag_le_one_iff.2 ⟨_, rfl⟩))
    refine bind_eq_ok.2 ⟨_, word_eq_ok.2 htuples, ?_⟩
    refine bind_eq_ok.2 ⟨_, scanTuples_eq_ok.2 ⟨_, rfl, hstored, rfl⟩, ?_⟩
    exact bind_eq_ok.2 ⟨_, hrest, rfl⟩

theorem scanReductions_eq_ok {slot stop : Nat} :
    scanReductions words count slot n = .ok (catalog, stop) ↔
      ∃ rs : List StoredReduction, rs.length = count ∧
        Stores words slot (Layout.offsetsFrom n (rs.map StoredReduction.size)) ∧
        Stores words n (rs.flatMap StoredReduction.words) ∧
        (∀ r ∈ rs, r.head.isNonTerminal = true) ∧ catalog = reductionsCatalog n rs ∧
        stop = n + Layout.total (rs.map StoredReduction.size) := by
  induction count generalizing slot n catalog stop with
  | zero =>
      rw [exists_length_zero]
      constructor
      · intro h
        cases Except.ok.inj h
        exact ⟨stores_nil, stores_nil, List.forall_mem_nil _, rfl, rfl⟩
      · rintro ⟨-, -, -, rfl, rfl⟩
        rfl
  | succ count ih =>
      rw [exists_length_succ, scanReductions_succ]
      constructor
      · rintro ⟨r, hslot, hstores, hhead, rest, hrest, rfl⟩
        obtain ⟨rs, rfl, hslots, hstores', hheads, rfl, rfl⟩ := ih.1 hrest
        refine ⟨r, rs, rfl, stores_cons.2 ⟨hslot, hslots⟩, ?_,
          List.forall_mem_cons.2 ⟨hhead, hheads⟩, rfl, ?_⟩
        · rw [List.flatMap_cons, stores_append, StoredReduction.length_words]
          exact ⟨hstores, hstores'⟩
        · rw [List.map_cons, Layout.total, ← Nat.add_assoc]
      · rintro ⟨r, rest, hlength, hslots, hstores, hheads, rfl, rfl⟩
        rw [List.flatMap_cons, stores_append, StoredReduction.length_words] at hstores
        rw [List.forall_mem_cons] at hheads
        rw [List.map_cons, Layout.offsetsFrom, stores_cons] at hslots
        refine ⟨r, hslots.1, hstores.1, hheads.1, _, ih.2 ⟨rest, hlength, hslots.2, hstores.2,
          hheads.2, rfl, ?_⟩, rfl⟩
        rw [List.map_cons, Layout.total, ← Nat.add_assoc]

/-! ## Nodes -/

/-- The catalog of a node. -/
def nodeCatalog (n : Nat) (node : StoredNode) : Catalog :=
  .node n ++ levelsCatalog (node.root n) node.levels ++
    reductionsCatalog (node.reductionStart n) node.reductions

theorem names_nodeCatalog {stored : StoredNode} :
    (nodeCatalog n stored).Names node level ↔ stored.Names node level := by
  rw [nodeCatalog, Catalog.names_append, Catalog.names_append, names_levelsCatalog,
    names_reductionsCatalog]
  constructor
  · rintro ⟨⟨-, hl⟩, hr⟩
    exact ⟨hl, hr⟩
  · rintro ⟨hl, hr⟩
    exact ⟨⟨Catalog.names_node n, hl⟩, hr⟩

theorem nodes_nodeCatalog (stored : StoredNode) : (nodeCatalog n stored).nodes = [n] := by
  rw [nodeCatalog, Catalog.nodes_append, Catalog.nodes_append, nodes_levelsCatalog,
    nodes_reductionsCatalog]
  rfl

theorem levels_nodeCatalog (stored : StoredNode) :
    (nodeCatalog n stored).levels = stored.levelOffsets n := by
  rw [nodeCatalog, Catalog.levels_append, Catalog.levels_append, levels_levelsCatalog,
    levels_reductionsCatalog, List.append_nil]
  rfl

theorem always_le_iff {always reductions : Nat} : always ≤ reductions ↔
    ∃ a, alwaysNumber a = always ∧ ∀ index, a = some index → index < reductions := by
  constructor
  · intro h
    cases always with
    | zero => exact ⟨none, rfl, fun _ h => nomatch h⟩
    | succ index => exact ⟨some index, rfl, fun _ h' => Option.some.inj h' ▸ h⟩
  · rintro ⟨a, rfl, h⟩
    cases a with
    | none => exact Nat.zero_le _
    | some index => exact h index rfl

theorem scanNode_eq_ok {stop : Nat} :
    scanNode words n = .ok (catalog, stop) ↔ ∃ stored : StoredNode,
      Stores words n (stored.words n) ∧ stored.WellFormed ∧ catalog = nodeCatalog n stored ∧
        stop = n + stored.size := by
  constructor
  · intro h
    obtain ⟨levels, hlevels, h⟩ := bind_eq_ok.1 h
    obtain ⟨reductions, hreductions, h⟩ := bind_eq_ok.1 h
    obtain ⟨always, halways, h⟩ := bind_eq_ok.1 h
    obtain ⟨lookahead, hlookahead, h⟩ := bind_eq_ok.1 h
    obtain ⟨u₁, hroot, h⟩ := bind_eq_ok.1 h
    obtain ⟨u₂, hindex, h⟩ := bind_eq_ok.1 h
    obtain ⟨⟨levelCatalog, middle⟩, hls, h⟩ := bind_eq_ok.1 h
    obtain ⟨⟨reductionCatalog, stop'⟩, hrs, h⟩ := bind_eq_ok.1 h
    cases Except.ok.inj h
    obtain ⟨ls, rfl, hstores, hrange, rfl, rfl⟩ := scanLevels_eq_ok.1 hls
    obtain ⟨rs, rfl, hslots, hstores', hheads, rfl, rfl⟩ := scanReductions_eq_ok.1 hrs
    obtain ⟨a, rfl, halt⟩ := always_le_iff.1 (of_decide_eq_true (require_eq_ok.1 hindex))
    rw [word_eq_ok] at hlevels hreductions halways hlookahead
    refine ⟨⟨ls, a, lookahead, rs⟩, StoredNode.stores_words.2
      ⟨hlevels, hreductions, halways, hlookahead, hslots, hstores, hstores'⟩,
      ⟨?_, halt, hrange, hheads⟩, rfl, ?_⟩
    · rintro rfl
      exact absurd (require_eq_ok.1 hroot) (by decide)
    · simp only [StoredNode.size]
      omega
  · rintro ⟨stored, hstores, hwf, rfl, rfl⟩
    obtain ⟨hlevels, hreductions, halways, hlookahead, hslots, hls, hrs⟩ :=
      StoredNode.stores_words.1 hstores
    refine bind_eq_ok.2 ⟨_, word_eq_ok.2 hlevels, bind_eq_ok.2 ⟨_, word_eq_ok.2 hreductions, ?_⟩⟩
    refine bind_eq_ok.2 ⟨_, word_eq_ok.2 halways, bind_eq_ok.2 ⟨_, word_eq_ok.2 hlookahead, ?_⟩⟩
    refine bind_eq_ok.2 ⟨(), ?_, bind_eq_ok.2 ⟨(), ?_, ?_⟩⟩
    · refine require_eq_ok.2 (bne_iff_ne.2 fun hzero => ?_)
      exact hwf.levels_ne_nil (List.length_eq_zero_iff.1 hzero)
    · exact require_eq_ok.2 (decide_eq_true (always_le_iff.2 ⟨_, rfl, hwf.always_lt⟩))
    refine bind_eq_ok.2 ⟨_, scanLevels_eq_ok.2 ⟨_, rfl, hls, hwf.inRange, rfl, rfl⟩, ?_⟩
    refine bind_eq_ok.2 ⟨_, scanReductions_eq_ok.2
      ⟨_, rfl, hslots, hrs, hwf.head_isNonTerminal, rfl, rfl⟩, ?_⟩
    have hstop : n + Layout.nodeHead + stored.reductions.length +
        Layout.total (stored.levels.map levelSize) +
        Layout.total (stored.reductions.map StoredReduction.size) = n + stored.size := by
      simp only [StoredNode.size]
      omega
    rw [hstop]
    rfl

/-- The catalog of nodes that stand one behind the other. -/
def nodesCatalog (n : Nat) : List StoredNode → Catalog
  | [] => .empty
  | stored :: rest => nodeCatalog n stored ++ nodesCatalog (n + stored.size) rest

theorem names_nodesCatalog {nodes : List StoredNode} :
    (nodesCatalog n nodes).Names node level ↔ ∀ stored ∈ nodes, stored.Names node level := by
  induction nodes generalizing n with
  | nil => exact iff_of_true Catalog.names_empty fun _ h => absurd h List.not_mem_nil
  | cons stored rest ih =>
      rw [nodesCatalog, Catalog.names_append, names_nodeCatalog, ih, List.forall_mem_cons]

theorem nodes_nodesCatalog (nodes : List StoredNode) :
    (nodesCatalog n nodes).nodes = Layout.offsetsFrom n (nodes.map StoredNode.size) := by
  induction nodes generalizing n with
  | nil => rfl
  | cons stored rest ih =>
      rw [nodesCatalog, Catalog.nodes_append, nodes_nodeCatalog, ih]
      rfl

theorem levels_nodesCatalog (nodes : List StoredNode) :
    (nodesCatalog n nodes).levels = levelOffsetsFrom n nodes := by
  induction nodes generalizing n with
  | nil => rfl
  | cons stored rest ih =>
      rw [nodesCatalog, Catalog.levels_append, levels_nodeCatalog, ih]
      rfl

theorem scanNodes_eq_ok :
    scanNodes words count n = .ok catalog ↔ ∃ nodes : List StoredNode, nodes.length = count ∧
      Stores words n (nodesWords n nodes) ∧ (∀ stored ∈ nodes, stored.WellFormed) ∧
        catalog = nodesCatalog n nodes := by
  induction count generalizing n catalog with
  | zero =>
      rw [exists_length_zero]
      constructor
      · intro h
        exact ⟨stores_nil, List.forall_mem_nil _, (Except.ok.inj h).symm⟩
      · rintro ⟨-, -, rfl⟩
        rfl
  | succ count ih =>
      rw [exists_length_succ]
      constructor
      · intro h
        obtain ⟨⟨first, stop⟩, hfirst, h⟩ := bind_eq_ok.1 h
        obtain ⟨rest, hrest, h⟩ := bind_eq_ok.1 h
        obtain ⟨stored, hstores, hwf, rfl, rfl⟩ := scanNode_eq_ok.1 hfirst
        obtain ⟨nodes, rfl, hstores', hwf', rfl⟩ := ih.1 hrest
        refine ⟨stored, nodes, rfl, ?_, List.forall_mem_cons.2 ⟨hwf, hwf'⟩,
          (Except.ok.inj h).symm⟩
        rw [nodesWords, stores_append, StoredNode.length_words]
        exact ⟨hstores, hstores'⟩
      · rintro ⟨stored, rest, hlength, hstores, hwf, rfl⟩
        rw [nodesWords, stores_append, StoredNode.length_words] at hstores
        rw [List.forall_mem_cons] at hwf
        refine bind_eq_ok.2 ⟨_, scanNode_eq_ok.2 ⟨stored, hstores.1, hwf.1, rfl, rfl⟩, ?_⟩
        exact bind_eq_ok.2 ⟨_, ih.2 ⟨rest, hlength, hstores.2, hwf.2, rfl⟩, rfl⟩

/-! ## Tables -/

theorem scanReferences_eq_ok {records : List Nat} {defect : Defect}
    {references : List (Nat × Nat)} {u : Unit} :
    scanReferences records defect references = .ok u ↔ ∀ r ∈ references, r.2 ∈ records := by
  induction references with
  | nil => exact iff_of_true rfl fun _ h => absurd h List.not_mem_nil
  | cons r rest ih =>
      obtain ⟨place, target⟩ := r
      rw [List.forall_mem_cons, ← ih, scanReferences, bind_eq_ok]
      constructor
      · rintro ⟨v, hv, h⟩
        exact ⟨List.contains_iff_mem.1 (require_eq_ok.1 hv), h⟩
      · rintro ⟨hmem, h⟩
        exact ⟨(), require_eq_ok.2 (List.contains_iff_mem.2 hmem), h⟩

/-- **Words are accepted exactly if they are a table**: well-formed nodes that stand
one behind the other, and whose references all name nodes and levels of the
table. -/
theorem header_eq_ok {header : Header} :
    Scan.header words = .ok header ↔ ∃ nodes, Contains words header nodes := by
  constructor
  · intro h
    obtain ⟨nodeCount, hcount, h⟩ := bind_eq_ok.1 h
    obtain ⟨startup, hstartup, h⟩ := bind_eq_ok.1 h
    obtain ⟨catalog, hcatalog, h⟩ := bind_eq_ok.1 h
    obtain ⟨u₁, hknown, h⟩ := bind_eq_ok.1 h
    obtain ⟨u₂, hnodes, h⟩ := bind_eq_ok.1 h
    obtain ⟨u₃, hlevels, h⟩ := bind_eq_ok.1 h
    cases Except.ok.inj h
    obtain ⟨nodes, rfl, hstores, hwf, rfl⟩ := scanNodes_eq_ok.1 hcatalog
    rw [scanReferences_eq_ok, nodes_nodesCatalog] at hnodes
    rw [scanReferences_eq_ok, levels_nodesCatalog] at hlevels
    rw [require_eq_ok, nodes_nodesCatalog, List.contains_iff_mem] at hknown
    refine ⟨nodes, rfl, ?_, hstores, hwf, hknown, names_nodesCatalog.1 ⟨hnodes, hlevels⟩⟩
    rw [stores_cons, stores_cons]
    exact ⟨word_eq_ok.1 hcount, word_eq_ok.1 hstartup, stores_nil⟩
  · rintro ⟨nodes, h⟩
    have hhead := h.head
    rw [stores_cons, stores_cons] at hhead
    have hnames := names_nodesCatalog (n := Layout.header).2 h.names
    refine bind_eq_ok.2 ⟨_, word_eq_ok.2 hhead.1, bind_eq_ok.2 ⟨_, word_eq_ok.2 hhead.2.1, ?_⟩⟩
    refine bind_eq_ok.2 ⟨_, scanNodes_eq_ok.2 ⟨nodes, h.count, h.stored, h.wellFormed, rfl⟩, ?_⟩
    refine bind_eq_ok.2 ⟨(), ?_, bind_eq_ok.2 ⟨(), ?_, bind_eq_ok.2 ⟨(), ?_, rfl⟩⟩⟩
    · rw [require_eq_ok, nodes_nodesCatalog, List.contains_iff_mem]
      exact h.startup
    · rw [scanReferences_eq_ok, nodes_nodesCatalog]
      exact hnames.1
    · rw [scanReferences_eq_ok, levels_nodesCatalog]
      exact hnames.2

end Scan
end BoundedLR
