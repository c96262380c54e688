import BoundedLR.Proofs.CompiledTries

/-!
# The numbered levels are a tree

A trie that is written down level by level is no longer a tree by its type: an entry of a
row leads to a number, and any number could stand there.  `Trie.rows` numbers the levels
such that a tree comes out.  Every level but the root level is the target of exactly one
entry, and this entry stands in a level with a lower number (`Trie.numbered_rows`).

How far a node looks ahead can be read off this tree: it is the number of levels on the
longest way down from the root level, unless the root level has no entry
(`Trie.reckons_lookahead`).  The search that fills the levels need not look at the finished
tree for it.  It is enough to note a depth with each entry: for an action the number of
symbols that have been read, for an entry that leads down one more (`Trie.recorded`).

For a compiled state the number never exceeds the bound, nor one where the bound is zero.
-/

namespace BoundedLR
namespace Trie

variable {α : Type} {t l below : Trie α} {first source : Nat} {s : Symbol}

/-! ## Entries that lead down -/

/-- An entry that leads to another level. -/
structure Descent where
  /-- The level that the entry stands in. -/
  source : Nat
  symbol : Symbol
  /-- The level that it leads to. -/
  target : Nat

/-- The number of the level that an entry leads to. -/
def RowEntry.target? : RowEntry α → Option Nat
  | .settled _ => none
  | .level number => some number

/-- The entries of a level that lead down. -/
def rowDescents (source : Nat) (row : List (Symbol × RowEntry α)) : List Descent :=
  row.filterMap fun (s, e) => e.target?.map fun target => ⟨source, s, target⟩

/-- The entries of consecutive levels that lead down, the first level with the given
number. -/
def descentsFrom : Nat → List (List (Symbol × RowEntry α)) → List Descent
  | _, [] => []
  | source, row :: rows => rowDescents source row ++ descentsFrom (source + 1) rows

/-- The entries that lead down, of all levels. -/
def descents (rows : List (List (Symbol × RowEntry α))) : List Descent := descentsFrom 0 rows

theorem mem_rowDescents {row : List (Symbol × RowEntry α)} {d : Descent} :
    d ∈ rowDescents source row ↔ d.source = source ∧ (d.symbol, .level d.target) ∈ row := by
  rw [rowDescents, List.mem_filterMap]
  constructor
  · rintro ⟨⟨s, e⟩, hmem, hd⟩
    obtain ⟨target, htarget, rfl⟩ := Option.map_eq_some_iff.1 hd
    cases e with
    | settled action => cases htarget
    | level number =>
        cases htarget
        exact ⟨rfl, hmem⟩
  · rintro ⟨rfl, hmem⟩
    exact ⟨_, hmem, rfl⟩

theorem mem_descentsFrom {rows : List (List (Symbol × RowEntry α))} {d : Descent} :
    d ∈ descentsFrom first rows ↔ ∃ i row, rows[i]? = some row ∧ d.source = first + i ∧
      (d.symbol, .level d.target) ∈ row := by
  induction rows generalizing first with
  | nil => exact iff_of_false List.not_mem_nil fun ⟨i, row, hrow, _⟩ => nomatch hrow
  | cons row rows ih =>
      rw [descentsFrom, List.mem_append, mem_rowDescents, ih]
      constructor
      · rintro (⟨hsource, hmem⟩ | ⟨i, other, hother, hsource, hmem⟩)
        · exact ⟨0, row, rfl, hsource, hmem⟩
        · exact ⟨i + 1, other, hother, by omega, hmem⟩
      · rintro ⟨i, other, hother, hsource, hmem⟩
        cases i with
        | zero =>
            cases hother
            exact .inl ⟨hsource, hmem⟩
        | succ i => exact .inr ⟨i, other, hother, by omega, hmem⟩

theorem mem_descents {rows : List (List (Symbol × RowEntry α))} {d : Descent} :
    d ∈ descents rows ↔ ∃ row, rows[d.source]? = some row ∧ (d.symbol, .level d.target) ∈ row := by
  rw [descents, mem_descentsFrom]
  constructor
  · rintro ⟨i, row, hrow, hsource, hmem⟩
    rw [Nat.zero_add] at hsource
    exact ⟨row, hsource ▸ hrow, hmem⟩
  · rintro ⟨row, hrow, hmem⟩
    exact ⟨d.source, row, hrow, (Nat.zero_add _).symm, hmem⟩

theorem descentsFrom_append (xs ys : List (List (Symbol × RowEntry α))) :
    descentsFrom first (xs ++ ys) =
      descentsFrom first xs ++ descentsFrom (first + xs.length) ys := by
  induction xs generalizing first with
  | nil => rfl
  | cons row xs ih =>
      rw [List.cons_append, descentsFrom, ih, descentsFrom, List.append_assoc, List.length_cons,
        Nat.add_right_comm, Nat.add_assoc]

/-! ## The numbers -/

/-- Every level but the root level is the target of exactly one entry, which stands in a
level with a lower number. -/
structure Numbered (rows : List (List (Symbol × RowEntry α))) : Prop where
  targets : ((descents rows).map (·.target)).Perm (List.range' 1 (rows.length - 1))
  lt : ∀ d ∈ descents rows, d.source < d.target

/-- The numbers that a level leads to begin where they should. -/
theorem le_of_mem_row {number : Nat} (h : (s, .level number) ∈ t.row first) : first ≤ number := by
  induction t generalizing first with
  | done => exact absurd h List.not_mem_nil
  | leaf r action rest ih =>
      rcases List.mem_cons.1 h with h | h
      · cases h
      · exact ih h
  | branch r below rest _ ih =>
      rcases List.mem_cons.1 h with h | h
      · cases h
        exact Nat.le_refl _
      · exact Nat.le_trans (by omega) (ih h)

/-- Below the root level, entries lead to higher numbers. -/
theorem lt_of_mem_rowsBelow {d : Descent} (h : d ∈ descentsFrom first (t.rowsBelow first)) :
    d.source < d.target := by
  induction t generalizing first with
  | done => exact absurd h List.not_mem_nil
  | leaf r action rest ih => exact ih h
  | branch r below rest ihb ihr =>
      rw [rowsBelow, List.cons_append, descentsFrom, descentsFrom_append, length_rowsBelow,
        List.mem_append, List.mem_append, mem_rowDescents] at h
      rcases h with ⟨rfl, hmem⟩ | hbelow | hrest
      · exact le_of_mem_row hmem
      · exact ihb hbelow
      · exact ihr hrest

/-- The root level of a trie and the levels below it lead to the numbers of the levels
below it, each of them once. -/
theorem targets_perm (t : Trie α) (source first : Nat) :
    ((rowDescents source (t.row first) ++ descentsFrom first (t.rowsBelow first)).map
      (·.target)).Perm (List.range' first t.sizeBelow) := by
  induction t generalizing source first with
  | done => exact .nil
  | leaf r action rest ih => exact ih source first
  | branch r below rest ihb ihr =>
      have hbelow := ihb first (first + 1)
      have hrest := ihr source (first + 1 + below.sizeBelow)
      rw [List.map_append] at hbelow hrest
      have hrow : rowDescents source ((Trie.branch r below rest).row first) =
          ⟨source, r, first⟩ :: rowDescents source (rest.row (first + 1 + below.sizeBelow)) := rfl
      have hsize : below.sizeBelow + 1 + rest.sizeBelow =
          (below.sizeBelow + rest.sizeBelow) + 1 := Nat.add_right_comm ..
      rw [hrow, rowsBelow, List.cons_append, List.cons_append, descentsFrom, descentsFrom_append,
        length_rowsBelow, sizeBelow, hsize, List.range'_succ, ← List.range'_append_1,
        List.map_cons, List.map_append, ← List.append_assoc, List.map_append, List.map_append]
      exact (List.perm_append_comm_assoc ..).trans (hbelow.append hrest) |>.cons first

/-- **The rows of a trie are numbered as a tree.** -/
theorem numbered_rows (t : Trie α) : Numbered t.rows where
  targets := by
    rw [length_rows, Nat.add_sub_cancel]
    exact t.targets_perm 0 1
  lt d hd := by
    rw [descents, rows, descentsFrom, List.mem_append, mem_rowDescents] at hd
    rcases hd with ⟨hsource, hmem⟩ | hbelow
    · rw [hsource]
      exact le_of_mem_row hmem
    · exact lt_of_mem_rowsBelow hbelow

/-! ## Ways down -/

/-- A way down from the root level, along entries that lead down: how many levels are on
it, and the number of the last. -/
inductive RootPath (rows : List (List (Symbol × RowEntry α))) : Nat → Nat → Prop where
  | root : RootPath rows 1 0
  | down {count : Nat} {d : Descent} : RootPath rows count d.source → d ∈ descents rows →
      RootPath rows (count + 1) d.target

section Mirrors

variable {levels : List (Trie α)} {row : List (Symbol × RowEntry α)}

/-- What a level leads to is not as high. -/
theorem Mirrors.height_lt_of_mem (h : Mirrors levels l row) {number : Nat}
    (he : (s, .level number) ∈ row) :
    ∃ below, levels[number]? = some below ∧ below.height + 1 ≤ l.height := by
  induction h with
  | done => exact absurd he List.not_mem_nil
  | leaf _ ih =>
      rcases List.mem_cons.1 he with he | he
      · cases he
      · exact ih he
  | branch hbelow _ ih =>
      rcases List.mem_cons.1 he with he | he
      · cases he
        exact ⟨_, hbelow, Nat.le_max_left ..⟩
      · obtain ⟨below, hlevel, hle⟩ := ih he
        exact ⟨below, hlevel, Nat.le_trans hle (Nat.le_max_right ..)⟩

/-- A level that is not the last of its ways down leads to one that is just one lower. -/
theorem Mirrors.exists_height (h : Mirrors levels l row) : l.height = 1 ∨
    ∃ s number below, (s, .level number) ∈ row ∧ levels[number]? = some below ∧
      l.height = below.height + 1 := by
  induction h with
  | done => exact .inl rfl
  | leaf _ ih =>
      rcases ih with hone | ⟨s, number, below, hmem, hlevel, hheight⟩
      · exact .inl hone
      · exact .inr ⟨s, number, below, List.mem_cons_of_mem _ hmem, hlevel, hheight⟩
  | @branch s number below rest row hbelow _ ih =>
      refine .inr ?_
      rcases Nat.le_total rest.height (below.height + 1) with hle | hle
      · exact ⟨s, number, below, List.mem_cons_self, hbelow, Nat.max_eq_left hle⟩
      rcases ih with hone | ⟨r, other, deeper, hmem, hlevel, hheight⟩
      · have hpos := below.one_le_height
        omega
      · exact ⟨r, other, deeper, List.mem_cons_of_mem _ hmem, hlevel,
          (Nat.max_eq_right hle).trans hheight⟩

end Mirrors

/-- No way down is longer than the trie is high. -/
theorem RootPath.le_height {count last : Nat} (h : RootPath t.rows count last) :
    ∃ l, t.levels[last]? = some l ∧ count + l.height ≤ t.height + 1 := by
  induction h with
  | root => exact ⟨t, rfl, by omega⟩
  | down _ hd ih =>
      obtain ⟨l, hl, hle⟩ := ih
      obtain ⟨row, hrow, hmem⟩ := mem_descents.1 hd
      obtain ⟨l', hl', hm⟩ := forall₂_getElem?_right t.rows_mirror hrow
      obtain rfl := Option.some.inj (hl.symm.trans hl')
      obtain ⟨below, hbelow, hlt⟩ := hm.height_lt_of_mem hmem
      exact ⟨below, hbelow, by omega⟩

/-- A way down can be continued to the bottom of the level that it has come to. -/
theorem RootPath.exists_longest {count last : Nat} (h : RootPath t.rows count last)
    (hl : t.levels[last]? = some l) : ∃ bottom, RootPath t.rows (count + l.height - 1) bottom := by
  generalize hheight : l.height = height
  induction height generalizing count last l with
  | zero =>
      have hpos := l.one_le_height
      omega
  | succ height ih =>
      obtain ⟨row, hrow, hm⟩ := forall₂_getElem?_left t.rows_mirror hl
      rcases hm.exists_height with hone | ⟨s, number, below, hmem, hbelow, hlower⟩
      · rw [hheight] at hone
        exact ⟨last, by rwa [hone]⟩
      · have hnext := h.down (d := ⟨last, s, number⟩) (mem_descents.2 ⟨row, hrow, hmem⟩)
        obtain ⟨bottom, hbottom⟩ := ih hnext hbelow (by omega)
        exact ⟨bottom, by rwa [Nat.add_right_comm] at hbottom⟩

/-! ## How far ahead -/

/-- The number of symbols that a trie may have to look at is told by its rows. -/
structure Reckons (t : Trie α) (lookahead : Nat) : Prop where
  /-- If the root level has no entry, there is nothing to look at. -/
  eq_zero : t.rows.head? = some [] → lookahead = 0
  /-- Otherwise it is the number of levels on a longest way down. -/
  attained : t.rows.head? ≠ some [] → ∃ last, RootPath t.rows lookahead last
  longest : t.rows.head? ≠ some [] → ∀ count last, RootPath t.rows count last → count ≤ lookahead
  /-- It is known as soon as the levels have been filled. -/
  recorded : t.recorded 1 0 = lookahead

/-- **The lookahead of a trie** is the number of levels on its longest way down. -/
theorem reckons_lookahead (t : Trie α) : t.Reckons t.lookahead := by
  have hempty : t.rows.head? = some [] ↔ t.isEmpty = true := by
    cases t with
    | done => exact iff_of_true rfl rfl
    | leaf s action rest => exact iff_of_false (fun h => nomatch h) Bool.false_ne_true
    | branch s below rest => exact iff_of_false (fun h => nomatch h) Bool.false_ne_true
  refine ⟨fun h => if_pos (hempty.1 h), fun h => ?_, fun h count last hpath => ?_,
    t.recorded_eq_lookahead⟩
  · obtain ⟨last, hpath⟩ := RootPath.root.exists_longest (t := t) (l := t) rfl
    rw [Nat.add_comm, Nat.add_sub_cancel] at hpath
    exact ⟨last, by rwa [lookahead, if_neg fun he => h (hempty.2 he)]⟩
  · obtain ⟨l, -, hle⟩ := hpath.le_height
    have hpos := l.one_le_height
    rw [lookahead, if_neg fun he => h (hempty.2 he)]
    omega

/-- What is found at a level is not as high. -/
theorem height_lt_of_find? (h : t.find? s = some (.deeper below)) :
    below.height + 1 ≤ t.height := by
  induction t with
  | done => cases h
  | leaf r action rest ih =>
      rw [find?] at h
      split at h
      · cases h
      · exact ih h
  | branch r deeper rest _ ih =>
      rw [find?] at h
      split at h
      · cases h
        exact Nat.le_max_left ..
      · exact Nat.le_trans (ih h) (Nat.le_max_right ..)

/-- **Who goes down has further to look**: there are more symbols to look at than have led to
a level below the root level. -/
theorem length_lt_lookahead {word : List Symbol} (hw : t.walk word = some l) (hword : word ≠ []) :
    word.length < t.lookahead := by
  have hheight : ∀ {word : List Symbol} {t : Trie α}, t.walk word = some l →
      word.length + l.height ≤ t.height := by
    intro word
    induction word with
    | nil =>
        intro t hw
        cases hw
        simp
    | cons s word ih =>
        intro t hw
        rw [walk] at hw
        split at hw
        · rename_i below hbelow
          have hle := ih hw
          have hlt := height_lt_of_find? hbelow
          rw [List.length_cons]
          omega
        · cases hw
  have hle := hheight hw
  have hpos := l.one_le_height
  rw [lookahead, if_neg]
  · omega
  · intro hempty
    cases t with
    | done =>
        cases word with
        | nil => exact hword rfl
        | cons s word => cases hw
    | leaf s action rest => cases hempty
    | branch s below rest => cases hempty

end Trie

/-! ## Compiled states -/

namespace Contest

variable {k : Contest} {path : List Symbol} {continuations : List Continuation}
  {trie : Trie Decision}

/-- A level is one higher than the levels below it may be. -/
theorem height_level {most : Nat}
    {below : List Symbol → List Choice → List Continuation → Except Conflict (Trie Decision)}
    (hbelow : ∀ here choices s deeper, below here choices (group continuations s) = .ok deeper →
      deeper.height ≤ most) {symbols : List Symbol}
    (h : k.level below path continuations symbols = .ok trie) : trie.height ≤ most + 1 := by
  induction symbols generalizing trie with
  | nil =>
      cases Except.ok.inj h
      exact Nat.le_add_left 1 most
  | cons s symbols ih =>
      rcases level_cons_cases h with ⟨choice, decision, rest, -, -, hrest, rfl⟩ |
        ⟨choice, -, -, hrest⟩ | ⟨deeper, rest, -, -, -, hdeeper, hrest, rfl⟩
      · have hle := ih hrest
        exact hle
      · exact ih hrest
      · exact Nat.max_le.2 ⟨Nat.succ_le_succ (hbelow _ _ s deeper hdeeper), ih hrest⟩

theorem height_split {levels : Nat} (h : k.split levels path continuations = .ok trie) :
    trie.height ≤ levels + 1 := by
  induction levels generalizing path continuations trie with
  | zero =>
      refine height_level (fun _ _ _ _ hdeeper => ?_) h
      cases hdeeper
  | succ levels ih =>
      refine height_level (fun here _ s deeper hdeeper => ?_) h
      obtain ⟨next, -, hsplit⟩ := bind_eq_ok.1 hdeeper
      exact ih hsplit

end Contest

/-- The trie of a state that can only shift has one level. -/
theorem height_shiftTrie (announcing : Array Bool) (edges : List Edge) :
    (shiftTrie announcing edges).height = 1 := by
  induction edges with
  | nil => rfl
  | cons e rest ih => exact ih

/-- **A node looks no further ahead than the bound allows.**  A state that can only shift
looks at one symbol even if the bound is zero. -/
theorem Parser.Compiled.lookahead_le {p : Parser} {start : Symbol} (hp : p.Compiled start)
    {n : Nat} {node : Node} (h : p.node n = .ok node) : node.lookahead ≤ max 1 p.bound := by
  have hle : node.lookahead ≤ node.trie.height := by
    rw [Node.lookahead, Trie.lookahead]
    split
    · exact Nat.zero_le _
    · exact Nat.le_refl _
  obtain ⟨node', hnode', hfor, -⟩ := hp.exists_node (hp.lt_count_of_node h)
  rw [h, Except.ok.injEq] at hnode'
  subst hnode'
  refine Nat.le_trans hle ?_
  cases hfor with
  | reduces _ _ _ hdone =>
      rw [hdone]
      exact Nat.le_max_left ..
  | shifts _ _ htrie =>
      rw [htrie, height_shiftTrie]
      exact Nat.le_max_left ..
  | settled _ _ hsettle =>
      obtain ⟨levels, found, hbound, -, hsplit⟩ := Contest.settle_eq_ok hsettle
      have hheight := Contest.height_split hsplit
      exact Nat.le_trans hheight (hbound ▸ Nat.le_max_right ..)

end BoundedLR
