import Mathlib.Data.List.Basic
import BoundedLR.ParseTable
import BoundedLR.Proofs.Sequencing

/-!
# Reads that come out alike

Two computations on two tables come out alike if both succeed with related values,
or if both fail with the same fault.  Which faults are allowed is left open.  If
only `outOfFuel` is, then computations that come out alike have stayed inside
their tables; if every fault is, they may have left them together.

This is the relation in which two runs of a parser are compared.  It is kept by
sequencing, and by filtering the members of two lists.  The lists may even hold
the members in a different order, as long as there is only one fault to fail with.
-/

namespace BoundedLR

variable {α β γ δ : Type} {F : Fault → Prop}

/-- Both computations succeed, with related values, or both fail with the same
allowed fault. -/
inductive Alike (F : Fault → Prop) (R : α → β → Prop) : Read α → Read β → Prop where
  | ok {a : α} {b : β} : R a b → Alike F R (.ok a) (.ok b)
  | fault {e : Fault} : F e → Alike F R (.error e) (.error e)

namespace Alike

variable {R : α → β → Prop} {S : γ → δ → Prop} {x : Read α} {y : Read β}

theorem bind {f : α → Read γ} {g : β → Read δ} (h : Alike F R x y)
    (hfg : ∀ a b, R a b → Alike F S (f a) (g b)) : Alike F S (x >>= f) (y >>= g) := by
  cases h with
  | ok hab => exact hfg _ _ hab
  | fault he => exact .fault he

theorem mono {R' : α → β → Prop} (hR : ∀ a b, R a b → R' a b) (h : Alike F R x y) :
    Alike F R' x y := by
  cases h with
  | ok hab => exact .ok (hR _ _ hab)
  | fault he => exact .fault he

theorem of_eq_ok {a : α} {b : β} (hx : x = .ok a) (hy : y = .ok b) (h : R a b) :
    Alike F R x y := by
  rw [hx, hy]
  exact .ok h

/-- Reads that are alike up to equality are equal. -/
theorem eq {x y : Read α} (h : Alike F Eq x y) : x = y := by
  cases h with
  | ok hab => rw [hab]
  | fault _ => rfl

theorem fault_of_error {e : Fault} (h : Alike F R x y) (hy : y = .error e) : F e := by
  cases h with
  | ok _ => cases hy
  | fault he =>
      cases hy
      exact he

theorem exists_of_ok {b : β} (h : Alike F R x y) (hy : y = .ok b) : ∃ a, x = .ok a ∧ R a b := by
  cases h with
  | ok hab =>
      cases hy
      exact ⟨_, rfl, hab⟩
  | fault _ => cases hy

theorem exists_of_ok_left {a : α} (h : Alike F R x y) (hx : x = .ok a) :
    ∃ b, y = .ok b ∧ R a b := by
  cases h with
  | ok hab =>
      cases hx
      exact ⟨_, rfl, hab⟩
  | fault _ => cases hx

end Alike

/-! ## Filtering -/

section Filter

variable {f g : α → Read Bool} {xs ys : List α}

theorem filterAuxM_of_ok {b : α → Bool} (h : ∀ x ∈ xs, f x = .ok (b x)) (kept : List α) :
    xs.filterAuxM f kept = .ok ((xs.filter b).reverse ++ kept) := by
  induction xs generalizing kept with
  | nil => rfl
  | cons x xs ih =>
      rw [List.forall_mem_cons] at h
      rw [List.filterAuxM, h.1, ok_bind, ih h.2]
      cases hb : b x with
      | false =>
          rw [List.filter_cons_of_neg (by rw [hb]; exact Bool.false_ne_true)]
          rfl
      | true =>
          rw [List.filter_cons_of_pos hb, List.reverse_cons, List.append_assoc]
          rfl

theorem filterM_of_ok {b : α → Bool} (h : ∀ x ∈ xs, f x = .ok (b x)) :
    xs.filterM f = .ok (xs.filter b) := by
  rw [List.filterM, filterAuxM_of_ok h, ok_bind, List.append_nil, List.reverse_reverse]
  rfl

theorem mem_of_filterAuxM_eq_ok {kept : List α} (h : xs.filterAuxM f kept = .ok ys) {x : α}
    (hx : x ∈ kept ∨ x ∈ xs ∧ ∀ b, f x = .ok b → b = true) : x ∈ ys := by
  induction xs generalizing kept with
  | nil =>
      cases Except.ok.inj h
      exact hx.resolve_right fun hx => List.not_mem_nil hx.1
  | cons y xs ih =>
      obtain ⟨b, hb, h⟩ := bind_eq_ok.1 h
      refine ih h ?_
      rcases hx with hx | ⟨hx, hf⟩
      · left
        cases b with
        | true => exact List.mem_cons_of_mem y hx
        | false => exact hx
      · rcases List.mem_cons.1 hx with rfl | hx
        · left
          rw [hf b hb]
          exact List.mem_cons_self
        · exact .inr ⟨hx, hf⟩

/-- Filtering keeps what passes the test. -/
theorem mem_of_filterM_eq_ok (h : xs.filterM f = .ok ys) {x : α} (hx : x ∈ xs)
    (hf : ∀ b, f x = .ok b → b = true) : x ∈ ys := by
  obtain ⟨kept, haux, h⟩ := bind_eq_ok.1 h
  cases Except.ok.inj h
  exact List.mem_reverse.2 (mem_of_filterAuxM_eq_ok haux (.inr ⟨hx, hf⟩))

theorem filterAuxM_of_outOfFuel (h : ∀ x ∈ xs, f x ≠ .error .outOfBounds) {x : α} (hx : x ∈ xs)
    (hfuel : f x = .error .outOfFuel) (kept : List α) :
    xs.filterAuxM f kept = .error .outOfFuel := by
  induction xs generalizing kept with
  | nil => exact absurd hx List.not_mem_nil
  | cons y xs ih =>
      rw [List.forall_mem_cons] at h
      rw [List.filterAuxM]
      cases hy : f y with
      | error e =>
          cases e with
          | outOfBounds => exact absurd hy h.1
          | outOfFuel => rfl
      | ok b =>
          rw [ok_bind]
          rcases List.mem_cons.1 hx with rfl | hx
          · rw [hfuel] at hy
            cases hy
          · exact ih h.2 hx _

theorem filterM_of_outOfFuel (h : ∀ x ∈ xs, f x ≠ .error .outOfBounds) {x : α} (hx : x ∈ xs)
    (hfuel : f x = .error .outOfFuel) : xs.filterM f = .error .outOfFuel := by
  rw [List.filterM, filterAuxM_of_outOfFuel h hx hfuel]
  rfl

theorem exists_of_filterAuxM_eq_error {e : Fault} {kept : List α}
    (h : xs.filterAuxM f kept = .error e) : ∃ x ∈ xs, f x = .error e := by
  induction xs generalizing kept with
  | nil => cases h
  | cons x xs ih =>
      rcases bind_eq_error.1 h with hx | ⟨b, -, h⟩
      · exact ⟨x, List.mem_cons_self, hx⟩
      · obtain ⟨y, hy, hfy⟩ := ih h
        exact ⟨y, List.mem_cons_of_mem x hy, hfy⟩

/-- Filtering fails only if the test of a member does. -/
theorem exists_of_filterM_eq_error {e : Fault} (h : xs.filterM f = .error e) :
    ∃ x ∈ xs, f x = .error e := by
  rcases bind_eq_error.1 h with haux | ⟨kept, -, h⟩
  · exact exists_of_filterAuxM_eq_error haux
  · cases h

theorem filterAuxM_alike (hfg : ∀ x ∈ xs, Alike F Eq (f x) (g x)) (kept : List α) :
    Alike F Eq (xs.filterAuxM f kept) (xs.filterAuxM g kept) := by
  induction xs generalizing kept with
  | nil => exact .ok rfl
  | cons x xs ih =>
      rw [List.forall_mem_cons] at hfg
      refine hfg.1.bind fun a b hab => ?_
      rw [hab]
      exact ih hfg.2 _

/-- **Filtering the same members** comes out alike.  If their order differs it
matters which member fails first, so then only one fault may be allowed. -/
theorem filterM_alike (hfg : ∀ x ∈ xs, Alike F Eq (f x) (g x)) (hp : xs.Perm ys)
    (hsame : F .outOfBounds → xs = ys) :
    Alike F List.Perm (xs.filterM f) (ys.filterM g) := by
  by_cases hF : F .outOfBounds
  · rw [← hsame hF]
    refine (filterAuxM_alike hfg []).bind fun a b hab => ?_
    rw [hab]
    exact .ok (List.Perm.refl _)
  have heq : ∀ x ∈ xs, f x = g x := fun x hx => (hfg x hx).eq
  have hbounds : ∀ y ∈ ys, g y ≠ .error .outOfBounds := fun y hy h =>
    hF ((hfg y (hp.mem_iff.2 hy)).fault_of_error h)
  have hbounds' : ∀ x ∈ xs, f x ≠ .error .outOfBounds := fun x hx => by
    rw [heq x hx]
    exact hbounds x (hp.mem_iff.1 hx)
  by_cases hfuel : ∃ x ∈ xs, f x = .error .outOfFuel
  · obtain ⟨x, hx, hfx⟩ := hfuel
    have hgx : g x = .error .outOfFuel := heq x hx ▸ hfx
    rw [filterM_of_outOfFuel hbounds' hx hfx, filterM_of_outOfFuel hbounds (hp.mem_iff.1 hx) hgx]
    exact .fault ((hfg x hx).fault_of_error hgx)
  · have hok : ∀ x ∈ xs, f x = .ok (f x == .ok true) := by
      intro x hx
      cases hfx : f x with
      | ok b => cases b <;> rfl
      | error e =>
          cases e with
          | outOfBounds => exact absurd hfx (hbounds' x hx)
          | outOfFuel => exact absurd ⟨x, hx, hfx⟩ hfuel
    have hok' : ∀ y ∈ ys, g y = .ok (f y == .ok true) := by
      intro y hy
      have hmem := hp.mem_iff.2 hy
      rw [← heq y hmem]
      exact hok y hmem
    rw [filterM_of_ok hok, filterM_of_ok hok']
    exact .ok (hp.filter _)

end Filter

end BoundedLR
