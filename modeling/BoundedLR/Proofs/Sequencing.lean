import Mathlib.Data.List.Forall2

/-!
# Computations that may fail, one after the other

Almost every function of the construction runs in `Except`.  A chain of binds
succeeds exactly when each of its parts does, and walking over a list succeeds
exactly when every member does; these are the forms in which that is used.
-/

namespace BoundedLR

variable {ε α β γ : Type}

/-! ## Lists side by side -/

section Forall₂

variable {R : α → β → Prop} {xs : List α} {ys : List β}

theorem forall₂_getElem?_left (h : List.Forall₂ R xs ys) {n : Nat} {x : α}
    (hx : xs[n]? = some x) : ∃ y, ys[n]? = some y ∧ R x y := by
  obtain ⟨hn, rfl⟩ := List.getElem?_eq_some_iff.1 hx
  have hn' : n < ys.length := h.length_eq ▸ hn
  exact ⟨ys[n], List.getElem?_eq_getElem hn', (List.forall₂_iff_get.1 h).2 n hn hn'⟩

theorem forall₂_getElem?_right (h : List.Forall₂ R xs ys) {n : Nat} {y : β}
    (hy : ys[n]? = some y) : ∃ x, xs[n]? = some x ∧ R x y := by
  obtain ⟨x, hx, hr⟩ := forall₂_getElem?_left h.flip hy
  exact ⟨x, hx, hr⟩

theorem forall₂_mem_left (h : List.Forall₂ R xs ys) {x : α} (hx : x ∈ xs) :
    ∃ y ∈ ys, R x y := by
  obtain ⟨n, hn⟩ := List.mem_iff_getElem?.1 hx
  obtain ⟨y, hy, hr⟩ := forall₂_getElem?_left h hn
  exact ⟨y, List.mem_of_getElem? hy, hr⟩

theorem forall₂_mem_right (h : List.Forall₂ R xs ys) {y : β} (hy : y ∈ ys) :
    ∃ x ∈ xs, R x y := by
  obtain ⟨n, hn⟩ := List.mem_iff_getElem?.1 hy
  obtain ⟨x, hx, hr⟩ := forall₂_getElem?_right h hn
  exact ⟨x, List.mem_of_getElem? hx, hr⟩

theorem exists_forall₂ (h : ∀ x ∈ xs, ∃ y, R x y) : ∃ ys, List.Forall₂ R xs ys := by
  induction xs with
  | nil => exact ⟨[], .nil⟩
  | cons x xs ih =>
      obtain ⟨y, hy⟩ := h x List.mem_cons_self
      obtain ⟨ys, hys⟩ := ih fun x hx => h x (List.mem_cons_of_mem _ hx)
      exact ⟨y :: ys, .cons hy hys⟩

end Forall₂

/-- What lies under the topmost members of a stack begins with the member whose place
is known. -/
theorem exists_drop_eq_cons {xs : List α} {n : Nat} {x : α} (h : xs[n]? = some x) :
    ∃ rest, xs.drop n = x :: rest := by
  rw [← List.head?_drop] at h
  exact List.head?_eq_some_iff.1 h

/-! ## Chains of binds -/

/-- A bind succeeds exactly when both of its parts do. -/
theorem bind_eq_ok {x : Except ε α} {f : α → Except ε β} {b : β} :
    (x >>= f) = .ok b ↔ ∃ a, x = .ok a ∧ f a = .ok b := by
  cases x with
  | error e => simp [bind, Except.bind]
  | ok a => simp [bind, Except.bind]

@[simp] theorem ok_bind (a : α) (f : α → Except ε β) : (Except.ok a >>= f) = f a := rfl

@[simp] theorem error_bind (e : ε) (f : α → Except ε β) :
    ((Except.error e : Except ε α) >>= f) = .error e := rfl

/-- A sequence fails if its first part does, or the second after the first. -/
theorem bind_eq_error {x : Except ε α} {f : α → Except ε β} {e : ε} :
    (x >>= f) = .error e ↔ x = .error e ∨ ∃ a, x = .ok a ∧ f a = .error e := by
  cases x with
  | ok a => simp
  | error e' => simp

theorem map_eq_ok {x : Except ε α} {f : α → β} {b : β} :
    x.map f = .ok b ↔ ∃ a, x = .ok a ∧ f a = b := by
  cases x with
  | error e => simp [Except.map]
  | ok a => simp [Except.map]

/-- Whether a computation succeeds, and its result passes a test. -/
def yields (x : Except ε α) (test : α → Bool) : Bool :=
  match x with
  | .ok a => test a
  | .error _ => false

theorem exists_of_yields {x : Except ε α} {test : α → Bool} (h : yields x test = true) :
    ∃ a, x = .ok a ∧ test a = true := by
  cases x with
  | error e => cases h
  | ok a => exact ⟨a, rfl, h⟩

/-! ## Walking over a list -/

/-- Walking over a list succeeds exactly when each member does, and gives the
results in the same order. -/
theorem mapM_eq_ok {f : α → Except ε β} {xs : List α} {ys : List β} :
    xs.mapM f = .ok ys ↔ List.Forall₂ (fun a b => f a = .ok b) xs ys := by
  induction xs generalizing ys with
  | nil => simp [pure, Except.pure, eq_comm]
  | cons x xs ih =>
      rw [List.mapM_cons, List.forall₂_cons_left_iff, bind_eq_ok]
      constructor
      · rintro ⟨b, hb, h⟩
        obtain ⟨bs, hbs, h⟩ := bind_eq_ok.1 h
        exact ⟨b, bs, hb, ih.1 hbs, (Except.ok.inj h).symm⟩
      · rintro ⟨b, bs, hb, hbs, rfl⟩
        exact ⟨b, hb, bind_eq_ok.2 ⟨bs, ih.2 hbs, rfl⟩⟩

/-- Walking over a list fails at the first member that does. -/
theorem mapM_eq_error {f : α → Except ε β} {xs : List α} {e : ε} :
    xs.mapM f = .error e ↔ ∃ before x after, xs = before ++ x :: after ∧
      (∀ y ∈ before, ∃ b, f y = .ok b) ∧ f x = .error e := by
  induction xs with
  | nil => simp [pure, Except.pure]
  | cons x xs ih =>
      rw [List.mapM_cons, bind_eq_error]
      constructor
      · rintro (hx | ⟨b, hb, h⟩)
        · exact ⟨[], x, xs, rfl, by simp, hx⟩
        · rcases bind_eq_error.1 h with hrest | ⟨bs, -, h⟩
          · obtain ⟨before, y, after, rfl, hbefore, hy⟩ := ih.1 hrest
            exact ⟨x :: before, y, after, rfl, List.forall_mem_cons.2 ⟨⟨b, hb⟩, hbefore⟩, hy⟩
          · cases h
      · rintro ⟨before, y, after, hsplit, hbefore, hy⟩
        cases before with
        | nil =>
            obtain ⟨rfl, rfl⟩ := List.cons.inj hsplit
            exact .inl hy
        | cons first before =>
            obtain ⟨rfl, rfl⟩ := List.cons.inj hsplit
            obtain ⟨⟨b, hb⟩, hbefore⟩ := List.forall_mem_cons.1 hbefore
            exact .inr ⟨b, hb, bind_eq_error.2 (.inl (ih.2 ⟨before, y, after, rfl, hbefore, hy⟩))⟩

theorem exists_mapM_eq_ok {f : α → Except ε β} {xs : List α} (h : ∀ x ∈ xs, ∃ y, f x = .ok y) :
    ∃ ys, xs.mapM f = .ok ys := by
  obtain ⟨ys, hys⟩ := exists_forall₂ h
  exact ⟨ys, mapM_eq_ok.2 hys⟩

/-- What each step of a fold keeps, the whole fold keeps. -/
theorem foldlM_keeps {f : γ → α → Except ε γ} {P : γ → Prop} {xs : List α}
    (hf : ∀ s x s', x ∈ xs → P s → f s x = .ok s' → P s') {s s' : γ} (hs : P s)
    (h : xs.foldlM f s = .ok s') : P s' := by
  induction xs generalizing s with
  | nil =>
      cases h
      exact hs
  | cons x xs ih =>
      rw [List.foldlM_cons, bind_eq_ok] at h
      obtain ⟨t, ht, h⟩ := h
      have hP : P t := hf s x t List.mem_cons_self hs ht
      exact ih (fun s x s' hx => hf s x s' (List.mem_cons_of_mem _ hx)) hP h

/-- A fold that fails does so at one of its members. -/
theorem exists_of_foldlM_eq_error {f : γ → α → Except ε γ} {xs : List α} {s : γ} {e : ε}
    (h : xs.foldlM f s = .error e) : ∃ x ∈ xs, ∃ t, f t x = .error e := by
  induction xs generalizing s with
  | nil => cases h
  | cons x xs ih =>
      rw [List.foldlM_cons] at h
      rcases bind_eq_error.1 h with hx | ⟨t, -, h⟩
      · exact ⟨x, List.mem_cons_self, s, hx⟩
      · obtain ⟨y, hy, ht⟩ := ih h
        exact ⟨y, List.mem_cons_of_mem _ hy, ht⟩

end BoundedLR
