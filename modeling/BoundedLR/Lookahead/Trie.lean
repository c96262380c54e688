import BoundedLR.Symbol

/-!
# Decision tries

A state that cannot act at once reads ahead.  What it has to find out is written
down as a trie over the symbols to come: a level lists symbols, and each of them
either settles the action or leads one level further down, where the next symbol
is read.

A level is held as a chain of entries.  So a trie is the chain of its root
level, and a `branch` carries the whole chain of the level below it.  This makes
the type an ordinary inductive one, and all functions on it recurse on the trie.

For storage the levels of a trie are numbered in the order in which they are met
when each level is walked from left to right and a branch is entered as soon as
it is passed; the root has number `0`.  `rows` lists the levels in that order,
and a branch appears in its row as the number of the level it leads to.
-/

namespace BoundedLR

/-- A decision trie, given by the chain of entries of its root level. -/
inductive Trie (α : Type) where
  /-- No further entries on this level. -/
  | done
  /-- A symbol that settles the action. -/
  | leaf (symbol : Symbol) (action : α) (rest : Trie α)
  /-- A symbol after which the next symbol has to be read as well. -/
  | branch (symbol : Symbol) (below : Trie α) (rest : Trie α)
  deriving DecidableEq, Repr

/-- What a level says about a symbol. -/
inductive TrieEntry (α : Type) where
  | settled (action : α)
  | deeper (below : Trie α)
  deriving DecidableEq, Repr

namespace Trie

variable {α : Type}

/-- What the root level says about a symbol. -/
def find? (s : Symbol) : Trie α → Option (TrieEntry α)
  | done => none
  | leaf t action rest => if s = t then some (.settled action) else rest.find? s
  | branch t below rest => if s = t then some (.deeper below) else rest.find? s

/-- The symbols of the root level. -/
def symbols : Trie α → List Symbol
  | done => []
  | leaf s _ rest => s :: rest.symbols
  | branch s _ rest => s :: rest.symbols

/-- Whether the root level has no entry. -/
def isEmpty : Trie α → Bool
  | done => true
  | _ => false

/-- The number of levels on the longest way down.  A level counts even if it has
no entry. -/
def height : Trie α → Nat
  | done => 1
  | leaf _ _ rest => rest.height
  | branch _ below rest => max (below.height + 1) rest.height

/-- How many symbols a parser may have to look at before the trie settles on an
action.  The search that fills the levels need not look at the finished trie for
it (`recorded_eq_lookahead`). -/
def lookahead (t : Trie α) : Nat := if t.isEmpty then 0 else t.height

/-- The depth that is known when the entries of a level have been filled in, one
after the other, and the levels below with them: an action notes how many symbols
have been read for it, and an entry that leads down one more. -/
def recorded (depth deepest : Nat) : Trie α → Nat
  | done => deepest
  | leaf _ _ rest => rest.recorded depth (max deepest depth)
  | branch _ below rest =>
    rest.recorded depth (below.recorded (depth + 1) (max deepest (depth + 1)))

theorem one_le_height (t : Trie α) : 1 ≤ t.height := by
  induction t with
  | done => exact Nat.le_refl 1
  | leaf s action rest ih => exact ih
  | branch s below rest _ ih => exact Nat.le_trans ih (Nat.le_max_right ..)

theorem height_of_isEmpty {t : Trie α} (h : t.isEmpty = true) : t.height = 1 := by
  cases t with
  | done => rfl
  | leaf s action rest => cases h
  | branch s below rest => cases h

/-- Filling a level in raises the depth to that of the lowest level on a way down, if
there is any entry. -/
theorem recorded_eq (t : Trie α) (depth deepest : Nat) : t.recorded depth deepest =
    if t.isEmpty then deepest else max deepest (depth + t.height - 1) := by
  induction t generalizing depth deepest with
  | done => rfl
  | leaf s action rest ih =>
      have hpos := rest.one_le_height
      rw [recorded, ih]
      change _ = max deepest (depth + rest.height - 1)
      split
      · rename_i hrest
        rw [height_of_isEmpty hrest, Nat.add_sub_cancel]
      · omega
  | branch s below rest ihb ihr =>
      have hpos := rest.one_le_height
      have hpos' := below.one_le_height
      have hbelow : below.recorded (depth + 1) (max deepest (depth + 1)) =
          max deepest (depth + below.height) := by
        rw [ihb]
        split
        · rename_i hnone
          rw [height_of_isEmpty hnone]
        · omega
      rw [recorded, hbelow, ihr]
      change _ = max deepest (depth + max (below.height + 1) rest.height - 1)
      split
      · rename_i hrest
        rw [height_of_isEmpty hrest]
        omega
      · omega

/-- **What has been noted in the end** is the lookahead. -/
theorem recorded_eq_lookahead (t : Trie α) : t.recorded 1 0 = t.lookahead := by
  have hpos := t.one_le_height
  rw [recorded_eq, lookahead]
  split
  · rfl
  · omega

/-- The number of levels below the root level. -/
def sizeBelow : Trie α → Nat
  | done => 0
  | leaf _ _ rest => rest.sizeBelow
  | branch _ below rest => below.sizeBelow + 1 + rest.sizeBelow

/-- What a stored level says about a symbol: an action, or the number of the
level that comes next. -/
inductive RowEntry (α : Type) where
  | settled (action : α)
  | level (number : Nat)
  deriving DecidableEq, Repr

/-- The root level with its branches as numbers; `first` is the number of the
level below the first branch. -/
def row (first : Nat) : Trie α → List (Symbol × RowEntry α)
  | done => []
  | leaf s action rest => (s, .settled action) :: rest.row first
  | branch s below rest =>
    (s, .level first) :: rest.row (first + 1 + below.sizeBelow)

/-- The levels below the root level, the first of them with number `first`. -/
def rowsBelow (first : Nat) : Trie α → List (List (Symbol × RowEntry α))
  | done => []
  | leaf _ _ rest => rest.rowsBelow first
  | branch _ below rest =>
    below.row (first + 1) :: below.rowsBelow (first + 1) ++
      rest.rowsBelow (first + 1 + below.sizeBelow)

/-- All levels by number, the root level first. -/
def rows (t : Trie α) : List (List (Symbol × RowEntry α)) :=
  t.row 1 :: t.rowsBelow 1

theorem length_rowsBelow (first : Nat) (t : Trie α) :
    (t.rowsBelow first).length = t.sizeBelow := by
  induction t generalizing first with
  | done => rfl
  | leaf s action rest ih => exact ih first
  | branch s below rest ihb ihr =>
      simp only [rowsBelow, sizeBelow, List.length_append, List.length_cons, ihb, ihr]

/-- A trie has one row for each of its levels. -/
theorem length_rows (t : Trie α) : t.rows.length = t.sizeBelow + 1 := by
  simp only [rows, List.length_cons, length_rowsBelow]

end Trie

end BoundedLR
