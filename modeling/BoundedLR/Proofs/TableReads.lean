import BoundedLR.Proofs.Sequencing
import BoundedLR.Proofs.StoredContents
import BoundedLR.Table.View

/-!
# What reading a table finds

The functions that read a table in place know nothing but words and offsets.  This
module says what they return at a place where a level, a reduction or a node with
known contents is stored.

A level is searched by halving, whether it is sorted or not.  In any level the
search returns, and what it finds is an entry of the level with the code that was
asked for (`searchCode_spec`).  That it finds such an entry whenever there is one
takes a level whose codes ascend.
-/

namespace BoundedLR
namespace Table

variable {t : Table} {n : Nat}

theorem word_eq_ok {w : Nat} : t.word n = .ok w ↔ t.words[n]? = some w := by
  rw [word]
  cases t.words[n]? with
  | none => simp [Read.ofOption]
  | some w => simp [Read.ofOption]

/-- The words of a table are all there is to it. -/
theorem ofWords_eq_ok {words : Array Nat} : ofWords words = .ok t ↔ t.words = words := by
  rw [ofWords]
  constructor
  · intro h
    split at h
    · cases h
      rfl
    · cases h
  · rintro rfl
    obtain ⟨words, header, haccepted⟩ := t
    dsimp only
    split
    · rename_i header' hheader
      cases haccepted.symm.trans hheader
      rfl
    · rename_i e herror
      cases haccepted.symm.trans herror

/-! ## Levels -/

section Levels

variable {l index : Nat} {level : StoredLevel} {e : Symbol × Action Nat Nat}

/-- The codes of a level ascend. -/
def Sorted (level : StoredLevel) : Prop :=
  level.Pairwise fun e f => e.1.code < f.1.code

theorem Sorted.code_lt (hs : Sorted level) {i j : Nat} {f : Symbol × Action Nat Nat}
    (he : level[i]? = some e) (hf : level[j]? = some f) (hij : i < j) : e.1.code < f.1.code := by
  obtain ⟨hi, rfl⟩ := List.getElem?_eq_some_iff.1 he
  obtain ⟨hj, rfl⟩ := List.getElem?_eq_some_iff.1 hf
  exact List.pairwise_iff_getElem.1 hs i j hi hj hij

/-- In a sorted level the order of the codes is the order of the places. -/
theorem Sorted.lt_of_code_lt (hs : Sorted level) {i j : Nat} {f : Symbol × Action Nat Nat}
    (he : level[i]? = some e) (hf : level[j]? = some f) (h : e.1.code < f.1.code) : i < j := by
  rcases Nat.lt_trichotomy i j with hij | rfl | hji
  · exact hij
  · rw [he] at hf
    cases hf
    exact absurd h (Nat.lt_irrefl _)
  · exact absurd h (Nat.lt_asymm (hs.code_lt hf he hji))

theorem Sorted.eq_of_code_eq (hs : Sorted level) {i j : Nat} {f : Symbol × Action Nat Nat}
    (he : level[i]? = some e) (hf : level[j]? = some f) (h : e.1.code = f.1.code) : i = j := by
  rcases Nat.lt_trichotomy i j with hij | hij | hji
  · exact absurd h (Nat.ne_of_lt (hs.code_lt he hf hij))
  · exact hij
  · exact absurd h (Nat.ne_of_gt (hs.code_lt hf he hji))

theorem entryCount_eq_ok (h : Stores t.words l (levelWords level)) :
    t.entryCount l = .ok level.length :=
  word_eq_ok.2 (stores_cons.1 h).1

/-- The words of an entry. -/
theorem stores_entry (h : Stores t.words l (levelWords level)) (he : level[index]? = some e) :
    t.words[entryOffset l index]? = some e.1.code ∧
      t.words[entryOffset l index + 1]? = some e.2.kind ∧
      t.words[entryOffset l index + 2]? = some e.2.value := by
  have hentry := (stores_cons.1 h).2.getElem?_flatMap_of_length length_entryWords he
  rw [entryWords, stores_cons, stores_cons, stores_cons] at hentry
  exact ⟨hentry.1, hentry.2.1, hentry.2.2.1⟩

theorem entryCode_eq_ok (h : Stores t.words l (levelWords level)) (he : level[index]? = some e) :
    t.entryCode l index = .ok e.1.code := by
  have hlt : index < level.length := (List.getElem?_eq_some_iff.1 he).1
  rw [entryCode, entryCount_eq_ok h, ok_bind, if_pos hlt]
  exact word_eq_ok.2 (stores_entry h he).1

theorem entrySymbol_eq_ok (h : Stores t.words l (levelWords level)) (he : level[index]? = some e) :
    t.entrySymbol l index = .ok e.1 := by
  rw [entrySymbol, entryCode_eq_ok h he, ok_bind, Symbol.ofCode?_code]
  rfl

theorem actionOf_kind_value (a : Action Nat Nat) : actionOf a.kind a.value = a := by
  cases a with
  | descend level => rfl
  | shift target predict => cases predict <;> rfl
  | reduce index => rfl

theorem entryAction_eq_ok (h : Stores t.words l (levelWords level)) (he : level[index]? = some e) :
    t.entryAction l index = .ok e.2 := by
  obtain ⟨-, hkind, hvalue⟩ := stores_entry h he
  rw [entryAction, word_eq_ok.2 hvalue, ok_bind, word_eq_ok.2 hkind, ok_bind,
    actionOf_kind_value]
  rfl

/-- The symbols of a level are read in the order in which they are stored. -/
theorem symbols_eq_ok (h : Stores t.words l (levelWords level)) :
    t.symbols l = .ok (level.map (·.1)) := by
  rw [symbols, entryCount_eq_ok h, ok_bind, mapM_eq_ok, List.forall₂_iff_get]
  refine ⟨by rw [List.length_range, List.length_map], fun i hi hi' => ?_⟩
  have hlt : i < level.length := by rwa [List.length_map] at hi'
  simp only [List.get_eq_getElem, List.getElem_range, List.getElem_map]
  exact entrySymbol_eq_ok h (List.getElem?_eq_getElem hlt)

/-- **Halving** returns, and it finds an entry with the code or none.  If the codes
ascend it narrows down the place where the code is. -/
theorem searchCode_spec (h : Stores t.words l (levelWords level))
    (code halvings low high : Nat) (hhigh : high ≤ level.length) (hroom : high - low < halvings) :
    ∃ found, t.searchCode l code halvings low high = .ok found ∧
      (∀ i, found = some i → ∃ e, level[i]? = some e ∧ e.1.code = code) ∧
      (Sorted level → ∀ i e, low ≤ i → i < high → level[i]? = some e → e.1.code = code →
        found = some i) := by
  induction halvings generalizing low high with
  | zero => omega
  | succ halvings ih =>
      rw [searchCode]
      by_cases hlt : low < high
      · rw [if_pos hlt]
        have hmiddle : (low + high) / 2 < level.length := by omega
        obtain ⟨here, hhere⟩ : ∃ e, level[(low + high) / 2]? = some e :=
          ⟨_, List.getElem?_eq_getElem hmiddle⟩
        dsimp only
        rw [entryCode_eq_ok h hhere, ok_bind]
        by_cases heq : here.1.code = code
        · rw [if_pos heq]
          refine ⟨_, rfl, fun i hi => ?_, fun hs i e _ _ he hcode => ?_⟩
          · cases hi
            exact ⟨here, hhere, heq⟩
          · -- An ascending level has the code only once.
            rw [hs.eq_of_code_eq he hhere (hcode.trans heq.symm)]
        · rw [if_neg heq]
          by_cases hsmaller : here.1.code < code
          · rw [if_pos hsmaller]
            obtain ⟨found, hfound, hsound, hcomplete⟩ :=
              ih ((low + high) / 2 + 1) high hhigh (by omega)
            refine ⟨found, hfound, hsound, fun hs i e _ hi he hcode => ?_⟩
            exact hcomplete hs i e (hs.lt_of_code_lt hhere he (by omega)) hi he hcode
          · rw [if_neg hsmaller]
            obtain ⟨found, hfound, hsound, hcomplete⟩ :=
              ih low ((low + high) / 2) (by omega) (by omega)
            refine ⟨found, hfound, hsound, fun hs i e hi _ he hcode => ?_⟩
            exact hcomplete hs i e hi (hs.lt_of_code_lt he hhere (by omega)) he hcode
      · rw [if_neg hlt]
        exact ⟨none, rfl, fun i hi => (nomatch hi), fun _ i _ _ _ => by omega⟩

theorem code_injective {s r : Symbol} (h : s.code = r.code) : s = r := by
  have hs := Symbol.ofCode?_code s
  rw [h, Symbol.ofCode?_code] at hs
  exact (Option.some.inj hs).symm

/-- **Looking a symbol up** returns, and what it returns is the action of an entry for
the symbol.  In a level whose codes ascend no entry is missed. -/
theorem find_spec (h : Stores t.words l (levelWords level)) (s : Symbol) :
    ∃ found, t.find l s = .ok found ∧ (∀ a, found = some a → (s, a) ∈ level) ∧
      (Sorted level → ∀ a, (s, a) ∈ level → found = some a) := by
  obtain ⟨place, hplace, hsound, hcomplete⟩ :=
    searchCode_spec h s.code (level.length + 1) 0 level.length (Nat.le_refl _) (by omega)
  have hsearch : t.search l s = .ok place := by
    rw [search, entryCount_eq_ok h, ok_bind]
    exact hplace
  rw [find, hsearch, ok_bind]
  cases place with
  | none =>
      refine ⟨none, rfl, fun a ha => (nomatch ha), fun hs a ha => ?_⟩
      obtain ⟨i, hi⟩ := List.mem_iff_getElem?.1 ha
      have hlt : i < level.length := (List.getElem?_eq_some_iff.1 hi).1
      cases hcomplete hs i _ (Nat.zero_le i) hlt hi rfl
  | some i =>
      obtain ⟨e, he, hcode⟩ := hsound i rfl
      have hsymbol : e.1 = s := code_injective hcode
      refine ⟨some e.2, ?_, fun a ha => ?_, fun hs a ha => ?_⟩
      · dsimp only
        rw [entryAction_eq_ok h he]
        rfl
      · cases ha
        rw [← hsymbol]
        exact List.mem_of_getElem? he
      · obtain ⟨j, hj⟩ := List.mem_iff_getElem?.1 ha
        have hlt : j < level.length := (List.getElem?_eq_some_iff.1 hj).1
        have hij := hcomplete hs j _ (Nat.zero_le j) hlt hj rfl
        rw [← Option.some.inj hij] at hj
        rw [he] at hj
        cases hj
        rfl

end Levels

/-! ## Reductions -/

section Reductions

variable {offset index : Nat} {r : StoredReduction}

theorem propertyAt_eq_ok (h : Stores t.words offset r.words) :
    t.propertyAt offset = .ok r.property := by
  obtain ⟨hhead, hrule, hcount, hmask, hflag, -, -⟩ := StoredReduction.stores_words.1 h
  rw [propertyAt, word_eq_ok.2 hhead, ok_bind, word_eq_ok.2 hrule, ok_bind, word_eq_ok.2 hcount,
    ok_bind, word_eq_ok.2 hmask, ok_bind, word_eq_ok.2 hflag, ok_bind, Symbol.ofCode?_code]
  cases hp : r.predict with
  | false => simp [StoredReduction.property, hp, pure, Except.pure]
  | true => simp [StoredReduction.property, hp, pure, Except.pure]

theorem tuple_eq_ok (h : Stores t.words offset r.words) {tuple : Tuple}
    (ht : r.tuples[index]? = some tuple) : t.tuple offset index = .ok tuple := by
  obtain ⟨-, -, -, -, -, hcount, htuples⟩ := StoredReduction.stores_words.1 h
  have hlt : index < r.tuples.length := (List.getElem?_eq_some_iff.1 ht).1
  have hstored := htuples.getElem?_flatMap_of_length Tuple.length_words ht
  rw [Tuple.words, stores_cons, stores_cons, stores_cons] at hstored
  rw [Table.tuple, tupleCount, word_eq_ok.2 hcount, ok_bind, if_pos hlt]
  dsimp only
  rw [word_eq_ok.2 hstored.1, ok_bind, word_eq_ok.2 hstored.2.1, ok_bind,
    word_eq_ok.2 hstored.2.2.1, ok_bind]
  obtain ⟨last, target, predict⟩ := tuple
  cases predict <;> rfl

/-- The first tuple that uncovers a node tells where a reduction leads from it. -/
theorem landingAt_eq_ok (h : Stores t.words offset r.words) (last : Nat) :
    t.landingAt offset last =
      .ok ((r.tuples.find? (·.last == last)).map fun u => ⟨u.target, u.predict⟩) := by
  obtain ⟨-, -, -, -, -, hcount, -⟩ := StoredReduction.stores_words.1 h
  rw [landingAt, tupleCount, word_eq_ok.2 hcount, ok_bind, List.range_eq_range']
  -- The tuples from any place on are searched like a list.
  have hfrom : ∀ rest k, r.tuples.drop k = rest →
      t.searchTuple offset last (List.range' k rest.length) =
        .ok ((rest.find? (·.last == last)).map fun u => ⟨u.target, u.predict⟩) := by
    intro rest
    induction rest with
    | nil =>
        intro k _
        rfl
    | cons u rest ih =>
        intro k hk
        have hu : r.tuples[k]? = some u := by
          rw [← List.head?_drop, hk]
          rfl
        have hrest : r.tuples.drop (k + 1) = rest := by
          rw [← List.tail_drop, hk]
          rfl
        rw [List.length_cons, List.range'_succ, searchTuple, tuple_eq_ok h hu, ok_bind,
          List.find?_cons]
        by_cases heq : u.last = last
        · rw [if_pos heq, heq, beq_self_eq_true]
          rfl
        · rw [if_neg heq, beq_eq_false_iff_ne.2 heq]
          exact ih (k + 1) hrest
  exact hfrom r.tuples 0 List.drop_zero

end Reductions

/-! ## Nodes -/

section Nodes

variable {offset index : Nat} {node : StoredNode}

theorem reductionCount_eq_ok (h : Stores t.words offset (node.words offset)) :
    t.reductionCount offset = .ok node.reductions.length :=
  word_eq_ok.2 (StoredNode.stores_words.1 h).2.1

theorem rootLevel_eq_ok (h : Stores t.words offset (node.words offset)) :
    t.rootLevel offset = .ok (node.root offset) := by
  rw [rootLevel, reductionCount_eq_ok h]
  rfl

theorem always_eq_ok (h : Stores t.words offset (node.words offset)) :
    t.always offset = .ok node.always := by
  rw [always, word_eq_ok.2 (StoredNode.stores_words.1 h).2.2.1, ok_bind]
  cases node.always <;> rfl

/-- The levels of a node are where its layout says. -/
theorem stores_level (h : Stores t.words offset (node.words offset)) {level : StoredLevel}
    {l : Nat} (hlevel : node.levels[index]? = some level)
    (hl : (node.levelOffsets offset)[index]? = some l) : Stores t.words l (levelWords level) := by
  obtain ⟨-, -, -, -, -, hlevels, -⟩ := StoredNode.stores_words.1 h
  exact hlevels.getElem?_flatMap (fun l _ => length_levelWords l) hlevel hl

/-- A node hands out its own reductions. -/
theorem reduction_of_getElem? (h : Stores t.words offset (node.words offset))
    {r : StoredReduction} (hr : node.reductions[index]? = some r) :
    ∃ place, t.reduction offset index = .ok place ∧ Stores t.words place r.words := by
  obtain ⟨-, -, -, -, hslots, -, hreductions⟩ := StoredNode.stores_words.1 h
  have hlt : index < node.reductions.length := (List.getElem?_eq_some_iff.1 hr).1
  obtain ⟨place, hplace⟩ : ∃ place, (node.reductionOffsets offset)[index]? = some place := by
    refine ⟨_, List.getElem?_eq_getElem ?_⟩
    rwa [StoredNode.reductionOffsets, Layout.length_offsetsFrom, List.length_map]
  refine ⟨place, ?_, ?_⟩
  · rw [reduction, reductionCount_eq_ok h, ok_bind, if_pos hlt]
    exact word_eq_ok.2 (hslots index place hplace)
  · exact hreductions.getElem?_flatMap (fun r _ => StoredReduction.length_words r) hr hplace

end Nodes

/-! ## Tables -/

section Tables

variable {header : Header} {nodes : List StoredNode} {index offset : Nat} {node : StoredNode}

theorem stores_nodesWords {words : Array Nat} {start : Nat}
    (h : Stores words start (nodesWords start nodes)) (hnode : nodes[index]? = some node)
    (ho : (Layout.offsetsFrom start (nodes.map StoredNode.size))[index]? = some offset) :
    Stores words offset (node.words offset) := by
  induction nodes generalizing start index with
  | nil => simp at hnode
  | cons first rest ih =>
      rw [nodesWords, stores_append, StoredNode.length_words] at h
      cases index with
      | zero =>
          cases hnode
          cases ho
          exact h.1
      | succ index => exact ih h.2 hnode ho

/-- The nodes of a table are where its layout says. -/
theorem stores_node (h : Contains t.words header nodes) (hnode : nodes[index]? = some node)
    (ho : (nodeOffsets nodes)[index]? = some offset) :
    Stores t.words offset (node.words offset) :=
  stores_nodesWords h.stored hnode ho

end Tables

end Table
end BoundedLR
