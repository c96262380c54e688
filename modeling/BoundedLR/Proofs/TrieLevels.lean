import BoundedLR.Lookahead.Trie
import BoundedLR.Proofs.Sequencing

/-!
# The levels of a trie

A trie in memory holds its levels inside each other, and a stored trie numbers
them.  `Trie.levels` lists the levels of a trie in the order of their numbers, and
`rows_mirror` says that the row with a number is that level, with a number in
place of each level further down.

Nothing in the type of tries says that a level lists a symbol only once, or that
what it settles on makes sense.  For the tries that are stored both is true of
every level, and `Trie.Orderly` is how that is said.
-/

namespace BoundedLR
namespace Trie

variable {α : Type} {t l : Trie α}

/-! ## Levels by number -/

/-- The levels below the root level, in the order of their numbers. -/
def levelsBelow : Trie α → List (Trie α)
  | done => []
  | leaf _ _ rest => rest.levelsBelow
  | branch _ below rest => below :: below.levelsBelow ++ rest.levelsBelow

/-- The levels of a trie in the order of their numbers, the root level first. -/
def levels (t : Trie α) : List (Trie α) := t :: t.levelsBelow

theorem length_levelsBelow (t : Trie α) : t.levelsBelow.length = t.sizeBelow := by
  induction t with
  | done => rfl
  | leaf s action rest ih => exact ih
  | branch s below rest ihb ihr =>
      simp only [levelsBelow, sizeBelow, List.length_append, List.length_cons, ihb, ihr]

/-- The row says the same as the level, if levels further down are known by their
numbers. -/
inductive Mirrors (levels : List (Trie α)) : Trie α → List (Symbol × RowEntry α) → Prop where
  | done : Mirrors levels .done []
  | leaf {s : Symbol} {action : α} {rest : Trie α} {row : List (Symbol × RowEntry α)} :
      Mirrors levels rest row → Mirrors levels (.leaf s action rest) ((s, .settled action) :: row)
  | branch {s : Symbol} {number : Nat} {below rest : Trie α} {row : List (Symbol × RowEntry α)} :
      levels[number]? = some below → Mirrors levels rest row →
      Mirrors levels (.branch s below rest) ((s, .level number) :: row)

variable {all before after : List (Trie α)}

/-- Behind a level and the levels below it the numbers go on. -/
theorem length_levelsBefore (before : List (Trie α)) (below : Trie α) :
    (before ++ below :: below.levelsBelow).length = before.length + 1 + below.sizeBelow := by
  rw [List.length_append, List.length_cons, length_levelsBelow]
  omega

theorem row_mirrors (h : all = before ++ t.levelsBelow ++ after) :
    Mirrors all t (t.row before.length) := by
  induction t generalizing before with
  | done => exact .done
  | leaf s action rest ih => exact .leaf (ih h)
  | branch s below rest _ ih =>
      rw [levelsBelow, List.append_assoc, List.append_assoc, List.cons_append] at h
      have hbelow : all[before.length]? = some below := by
        rw [h, List.getElem?_append_right (Nat.le_refl _), Nat.sub_self]
        rfl
      have hrest : all = (before ++ below :: below.levelsBelow) ++ rest.levelsBelow ++ after := by
        rw [h]
        simp only [List.append_assoc, List.cons_append]
      rw [row, ← length_levelsBefore]
      exact .branch hbelow (ih hrest)

theorem rowsBelow_mirror (h : all = before ++ t.levelsBelow ++ after) :
    List.Forall₂ (Mirrors all) t.levelsBelow (t.rowsBelow before.length) := by
  induction t generalizing before after with
  | done => exact .nil
  | leaf s action rest ih => exact ih h
  | branch s below rest ihb ihr =>
      have hbelow : all = (before ++ [below]) ++ below.levelsBelow ++
          (rest.levelsBelow ++ after) := by
        rw [h, levelsBelow]
        simp only [List.append_assoc, List.cons_append, List.nil_append]
      have hrest : all = (before ++ below :: below.levelsBelow) ++ rest.levelsBelow ++ after := by
        rw [h, levelsBelow]
        simp only [List.append_assoc, List.cons_append]
      have hone : before.length + 1 = (before ++ [below]).length := by
        rw [List.length_append, List.length_singleton]
      rw [levelsBelow, rowsBelow, ← length_levelsBefore, hone]
      exact List.rel_append (.cons (row_mirrors hbelow) (ihb hbelow)) (ihr hrest)

/-- **The rows of a trie are its levels**, in the order of their numbers. -/
theorem rows_mirror (t : Trie α) : List.Forall₂ (Mirrors t.levels) t.levels t.rows := by
  have h : t.levels = [t] ++ t.levelsBelow ++ [] := by
    rw [List.append_nil]
    rfl
  exact .cons (row_mirrors h) (rowsBelow_mirror h)

/-! ## What a row says -/

section Mirrors

variable {s : Symbol} {levels : List (Trie α)} {row : List (Symbol × RowEntry α)}

theorem Mirrors.symbols (h : Mirrors levels l row) : row.map (·.1) = l.symbols := by
  induction h with
  | done => rfl
  | leaf _ ih => exact congrArg _ ih
  | branch _ _ ih => exact congrArg _ ih

/-- An entry of a row is an entry of the level. -/
inductive MirrorsEntry (levels : List (Trie α)) : TrieEntry α → RowEntry α → Prop where
  | settled {action : α} : MirrorsEntry levels (.settled action) (.settled action)
  | deeper {number : Nat} {below : Trie α} : levels[number]? = some below →
      MirrorsEntry levels (.deeper below) (.level number)

/-- What the level says the row says. -/
theorem Mirrors.exists_mem (h : Mirrors levels l row) {entry : TrieEntry α}
    (he : l.find? s = some entry) : ∃ e, (s, e) ∈ row ∧ MirrorsEntry levels entry e := by
  induction h with
  | done => cases he
  | @leaf r action rest row _ ih =>
      rw [find?] at he
      by_cases hs : s = r
      · rw [if_pos hs] at he
        cases he
        rw [hs]
        exact ⟨_, List.mem_cons_self, .settled⟩
      · rw [if_neg hs] at he
        obtain ⟨e, hmem, he⟩ := ih he
        exact ⟨e, List.mem_cons_of_mem _ hmem, he⟩
  | @branch r number below rest row hbelow _ ih =>
      rw [find?] at he
      by_cases hs : s = r
      · rw [if_pos hs] at he
        cases he
        rw [hs]
        exact ⟨_, List.mem_cons_self, .deeper hbelow⟩
      · rw [if_neg hs] at he
        obtain ⟨e, hmem, he⟩ := ih he
        exact ⟨e, List.mem_cons_of_mem _ hmem, he⟩

theorem Mirrors.exists_of_mem_level (h : Mirrors levels l row) {number : Nat}
    (he : (s, .level number) ∈ row) : ∃ below, levels[number]? = some below := by
  induction h with
  | done => exact absurd he List.not_mem_nil
  | leaf _ ih =>
      rcases List.mem_cons.1 he with he | he
      · cases he
      · exact ih he
  | branch hbelow _ ih =>
      rcases List.mem_cons.1 he with he | he
      · cases he
        exact ⟨_, hbelow⟩
      · exact ih he

theorem find?_eq_none_iff : l.find? s = none ↔ s ∉ l.symbols := by
  induction l with
  | done => exact iff_of_true rfl List.not_mem_nil
  | leaf r action rest ih =>
      rw [find?, symbols, List.mem_cons, not_or]
      by_cases hs : s = r
      · rw [if_pos hs]
        exact iff_of_false (fun h => nomatch h) fun h => h.1 hs
      · rw [if_neg hs, ih]
        exact (and_iff_right hs).symm
  | branch r below rest _ ih =>
      rw [find?, symbols, List.mem_cons, not_or]
      by_cases hs : s = r
      · rw [if_pos hs]
        exact iff_of_false (fun h => nomatch h) fun h => h.1 hs
      · rw [if_neg hs, ih]
        exact (and_iff_right hs).symm

end Mirrors

/-! ## Orderly tries -/

/-- No level lists a symbol twice, and every action that is settled on has a given
property. -/
inductive Orderly (P : α → Prop) : Trie α → Prop where
  | done : Orderly P .done
  | leaf {s : Symbol} {action : α} {rest : Trie α} : P action → s ∉ rest.symbols → Orderly P rest →
      Orderly P (.leaf s action rest)
  | branch {s : Symbol} {below rest : Trie α} : s ∉ rest.symbols → Orderly P below →
      Orderly P rest → Orderly P (.branch s below rest)

namespace Orderly

variable {P : α → Prop}

theorem nodup_symbols (h : t.Orderly P) : t.symbols.Nodup := by
  induction h with
  | done => exact List.nodup_nil
  | leaf _ hs _ ih => exact List.nodup_cons.2 ⟨hs, ih⟩
  | branch hs _ _ _ ih => exact List.nodup_cons.2 ⟨hs, ih⟩

/-- All levels of an orderly trie are orderly. -/
theorem of_mem_levels (h : t.Orderly P) : ∀ l ∈ t.levels, l.Orderly P := by
  have hbelow : ∀ l ∈ t.levelsBelow, l.Orderly P := by
    induction h with
    | done => exact fun l hl => absurd hl List.not_mem_nil
    | leaf _ _ _ ih => exact ih
    | branch _ hbelow _ ihb ihr =>
        intro l hl
        rcases List.mem_append.1 hl with hl | hl
        · rcases List.mem_cons.1 hl with rfl | hl
          · exact hbelow
          · exact ihb l hl
        · exact ihr l hl
  exact List.forall_mem_cons.2 ⟨h, hbelow⟩

theorem of_mem_row {levels : List (Trie α)} {row : List (Symbol × RowEntry α)} (h : t.Orderly P)
    (hm : Mirrors levels t row) {s : Symbol} {action : α} (he : (s, .settled action) ∈ row) :
    P action := by
  induction hm with
  | done => exact absurd he List.not_mem_nil
  | leaf _ ih =>
      cases h with
      | leaf haction _ hrest =>
          rcases List.mem_cons.1 he with he | he
          · cases he
            exact haction
          · exact ih hrest he
  | branch _ _ ih =>
      cases h with
      | branch _ _ hrest =>
          rcases List.mem_cons.1 he with he | he
          · cases he
          · exact ih hrest he

/-- What a row of an orderly level says the level says. -/
theorem exists_find?_of_mem_row {levels : List (Trie α)} {row : List (Symbol × RowEntry α)}
    (h : t.Orderly P) (hm : Mirrors levels t row) {s : Symbol} {e : RowEntry α}
    (he : (s, e) ∈ row) :
    ∃ entry, t.find? s = some entry ∧ MirrorsEntry levels entry e := by
  -- A symbol that stands further back in the row is not the first one.
  have hne : ∀ {r : Symbol} {rest : Trie α} {tail : List (Symbol × RowEntry α)},
      r ∉ rest.symbols → Mirrors levels rest tail → (s, e) ∈ tail → s ≠ r := by
    rintro r rest tail hr htail hmem rfl
    refine hr ?_
    rw [← htail.symbols]
    exact List.mem_map_of_mem hmem
  induction hm with
  | done => exact absurd he List.not_mem_nil
  | leaf hrest ih =>
      cases h with
      | leaf _ hr horderly =>
          rcases List.mem_cons.1 he with he | he
          · cases he
            exact ⟨_, if_pos rfl, .settled⟩
          · rw [find?, if_neg (hne hr hrest he)]
            exact ih horderly he
  | branch hbelow hrest ih =>
      cases h with
      | branch hr _ horderly =>
          rcases List.mem_cons.1 he with he | he
          · cases he
            exact ⟨_, if_pos rfl, .deeper hbelow⟩
          · rw [find?, if_neg (hne hr hrest he)]
            exact ih horderly he

end Orderly

end Trie
end BoundedLR
