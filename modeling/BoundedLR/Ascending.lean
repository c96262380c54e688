/-!
# Ascending lists

Finite sets appear everywhere in the construction of a parser: the items of a
state, the productions a slot accepts, the terminals that may come next.  All of
them are kept as lists in strictly ascending order.  Such a list is the set
written down in its one canonical way, so two sets are equal exactly when the
lists are, and walking over a set is walking over a list.

`insertAscending` puts one element in its place and leaves the list alone when
the element is there already.  `ascending` sorts an arbitrary list and drops the
repetitions.  Both recurse on the list itself, so they can be evaluated inside a
proof.

The two facts that everything else uses are `mem_ascending` (no member is lost
or invented) and `pairwise_ascending` (the result is strictly ascending).
-/

namespace BoundedLR

variable {α : Type} [Ord α]

/-- Puts an element into an ascending list, at its place in the order.  A list
that holds the element already is returned as it is. -/
def insertAscending (x : α) : List α → List α
  | [] => [x]
  | y :: ys =>
    match compare x y with
    | .lt => x :: y :: ys
    | .eq => y :: ys
    | .gt => y :: insertAscending x ys

/-- The members of a list in ascending order, each of them once. -/
def ascending (xs : List α) : List α :=
  xs.foldr insertAscending []

@[simp] theorem ascending_nil : ascending ([] : List α) = [] := rfl

@[simp] theorem ascending_cons (x : α) (xs : List α) :
    ascending (x :: xs) = insertAscending x (ascending xs) := rfl

section Lawful

variable [Std.LawfulEqOrd α]

@[simp] theorem mem_insertAscending {x z : α} {ys : List α} :
    z ∈ insertAscending x ys ↔ z = x ∨ z ∈ ys := by
  induction ys with
  | nil => simp [insertAscending]
  | cons y ys ih =>
      unfold insertAscending
      split
      · simp
      · rename_i h
        have hxy : x = y := Std.LawfulEqOrd.eq_of_compare h
        subst hxy
        simp
      · simp only [List.mem_cons, ih]
        constructor
        · rintro (h | h | h)
          · exact .inr (.inl h)
          · exact .inl h
          · exact .inr (.inr h)
        · rintro (h | h | h)
          · exact .inr (.inl h)
          · exact .inl h
          · exact .inr (.inr h)

/-- Sorting neither loses nor invents a member. -/
@[simp] theorem mem_ascending {z : α} {xs : List α} : z ∈ ascending xs ↔ z ∈ xs := by
  induction xs with
  | nil => simp
  | cons x xs ih => simp [ih]

variable [Std.TransOrd α]

theorem pairwise_insertAscending {x : α} {ys : List α}
    (h : ys.Pairwise fun a b => compare a b = .lt) :
    (insertAscending x ys).Pairwise fun a b => compare a b = .lt := by
  induction ys with
  | nil => simp [insertAscending]
  | cons y ys ih =>
      have hy := List.pairwise_cons.1 h
      unfold insertAscending
      split
      · rename_i hxy
        refine List.pairwise_cons.2 ⟨?_, h⟩
        intro b hb
        rcases List.mem_cons.1 hb with rfl | hb
        · exact hxy
        · exact Std.TransCmp.lt_trans hxy (hy.1 b hb)
      · exact h
      · rename_i hxy
        refine List.pairwise_cons.2 ⟨?_, ih hy.2⟩
        intro b hb
        rcases mem_insertAscending.1 hb with rfl | hb
        · exact Std.OrientedCmp.lt_of_gt hxy
        · exact hy.1 b hb

/-- A sorted list is strictly ascending, hence free of repetitions. -/
theorem pairwise_ascending (xs : List α) :
    (ascending xs).Pairwise fun a b => compare a b = .lt := by
  induction xs with
  | nil => simp
  | cons x xs ih => exact pairwise_insertAscending ih

end Lawful

end BoundedLR
