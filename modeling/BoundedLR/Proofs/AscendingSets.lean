import Mathlib.Data.List.Nodup
import Mathlib.Data.List.Perm.Subperm
import BoundedLR.Ascending

/-!
# Ascending lists as sets

An ascending list is the one way to write down its set of members: two strictly
ascending lists with the same members are equal.  This is what lets the
construction compare sets by comparing lists, and what makes sorting a list that
is ascending already, or mapping it by an increasing function, harmless.
-/

namespace BoundedLR

/-- The members stand in strictly ascending order. -/
def IsAscending {α : Type} [Ord α] (xs : List α) : Prop :=
  xs.Pairwise fun a b => compare a b = .lt

namespace IsAscending

variable {α β : Type} [Ord α] [Ord β]

theorem nil : IsAscending ([] : List α) := List.Pairwise.nil

theorem singleton (x : α) : IsAscending [x] := List.pairwise_singleton _ x

theorem filter {xs : List α} (h : IsAscending xs) (p : α → Bool) :
    IsAscending (xs.filter p) :=
  List.Pairwise.filter p h

/-- An increasing function keeps the order. -/
theorem map {f : α → β} (hf : ∀ a b, compare a b = .lt → compare (f a) (f b) = .lt)
    {xs : List α} (h : IsAscending xs) : IsAscending (xs.map f) :=
  List.pairwise_map.2 (h.imp fun {a b} => hf a b)

variable [Std.LawfulEqOrd α]

theorem nodup {xs : List α} (h : IsAscending xs) : xs.Nodup := by
  refine List.Pairwise.imp ?_ h
  intro a b hab he
  subst he
  simp at hab

variable [Std.TransOrd α]

theorem ascending (xs : List α) : IsAscending (BoundedLR.ascending xs) := pairwise_ascending xs

/-- **An ascending list is determined by its members.**  The smallest member
heads both lists, and what follows is again determined. -/
theorem eq_of_mem_iff {xs ys : List α} (hx : IsAscending xs) (hy : IsAscending ys)
    (h : ∀ z, z ∈ xs ↔ z ∈ ys) : xs = ys := by
  have hperm : xs.Perm ys := (List.perm_ext_iff_of_nodup hx.nodup hy.nodup).2 h
  refine hperm.eq_of_pairwise ?_ hx hy
  intro a b _ _ hab hba
  have hba' : compare a b = .gt := Std.OrientedCmp.gt_of_lt hba
  rw [hab] at hba'
  exact Ordering.noConfusion hba'

/-- A larger set has more members, so a set inside another of the same size is
all of it. -/
theorem eq_of_subset_of_length_le {xs ys : List α} (hx : IsAscending xs) (hy : IsAscending ys)
    (hs : xs ⊆ ys) (hl : ys.length ≤ xs.length) : xs = ys := by
  have hperm : xs.Perm ys := (List.subperm_of_subset hx.nodup hs).perm_of_length_le hl
  exact hx.eq_of_mem_iff hy fun _ => hperm.mem_iff

end IsAscending

end BoundedLR
