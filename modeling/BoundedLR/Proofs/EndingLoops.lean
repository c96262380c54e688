import BoundedLR.Proofs.Announcements

/-!
# Loops that come to an end

Three loops of the construction go on until nothing is left to be done: the closure of
a set of items grows until a round adds nothing, the kernels with a number are worked
through until each has its state, and marks spread until a round changes none.  The
definitions give each of them a number of rounds and stop there at the latest.  So they
would return something even if the loop did not end, and that they return says nothing.

This module runs the loops without counting.  A loop is given by its step, which goes on
with another state or stops with a result, and `EndsIn` says that it stops, after how many
steps that go on, and with which result; there is one way only (`EndsIn.unique`).  Each of
the three loops ends, in the result of the definition, and after no more steps than there
is something to be used up: the initial items that are missing (`Productions.closure_ends`),
the sets of items that have no number (`Productions.skeleton_ends`), and the states without
a mark (`Automaton.announcing_ends`).
-/

namespace BoundedLR

/-- A loop, given by its step, stops with a result after some steps that go on. -/
inductive EndsIn {σ β : Type} (step : σ → σ ⊕ β) : Nat → σ → β → Prop where
  | stop {s : σ} {b : β} : step s = .inr b → EndsIn step 0 s b
  | next {s t : σ} {n : Nat} {b : β} :
      step s = .inl t → EndsIn step n t b → EndsIn step (n + 1) s b

namespace EndsIn

variable {σ β : Type} {step : σ → σ ⊕ β} {s : σ} {n m : Nat} {b c : β}

/-- The state in which a loop stops. -/
theorem exists_last (h : EndsIn step n s b) :
    ∃ t, Relation.ReflTransGen (fun s t => step s = .inl t) s t ∧ step t = .inr b := by
  induction h with
  | stop hb => exact ⟨_, .refl, hb⟩
  | next ht _ ih =>
      obtain ⟨last, hleads, hb⟩ := ih
      exact ⟨last, hleads.head ht, hb⟩

end EndsIn

/-! ## The closure -/

namespace Productions

variable {g : Productions} {items : List Item}

/-- One round of a closure, which is finished when nothing is new. -/
def grow (g : Productions) (items : List Item) : List Item ⊕ List Item :=
  let grown := ascending (items.flatMap g.openings ++ items)
  if grown.length = items.length then .inr items else .inl grown

/-- **A closure grows only as long as an initial item is missing.** -/
theorem saturate_ends {rounds : Nat} (ha : IsAscending items)
    (h : (g.missing items).card ≤ rounds) :
    ∃ n ≤ (g.missing items).card, EndsIn g.grow n items (g.saturate rounds items) := by
  induction rounds generalizing items with
  | zero =>
      have hlen : (ascending (items.flatMap g.openings ++ items)).length = items.length := by
        by_contra hl
        have hlt := missing_lt_of_grows ha hl
        omega
      exact ⟨0, Nat.zero_le _, .stop (if_pos hlen)⟩
  | succ rounds ih =>
      rw [saturate]
      by_cases hl : (ascending (items.flatMap g.openings ++ items)).length = items.length
      · rw [if_pos hl]
        exact ⟨0, Nat.zero_le _, .stop (if_pos hl)⟩
      · have hlt := missing_lt_of_grows ha hl
        obtain ⟨n, hn, hends⟩ := ih (IsAscending.ascending _)
          (Nat.le_of_lt_succ (Nat.lt_of_lt_of_le hlt h))
        rw [if_neg hl]
        exact ⟨n + 1, by omega, .next (if_neg hl) hends⟩

/-- **The closure of a set of items comes to an end**, after as many rounds as there are
productions at the latest. -/
theorem closure_ends (g : Productions) (seeds : List Item) :
    ∃ n ≤ g.count, EndsIn g.grow n (ascending seeds) (g.closure seeds) := by
  have hcard : (g.missing (ascending seeds)).card ≤ g.count :=
    calc (g.missing (ascending seeds)).card
        ≤ (Finset.range g.count).card := Finset.card_filter_le _ _
      _ = g.count := Finset.card_range _
  obtain ⟨n, hn, hends⟩ := saturate_ends (IsAscending.ascending seeds) hcard
  exact ⟨n, Nat.le_trans hn hcard, hends⟩

/-! ## The states -/

/-- Works through one kernel that has a number but no state yet. -/
def workThrough (g : Productions) (s : Array Core × Array State) :
    (Array Core × Array State) ⊕ Array State :=
  match s.1[s.2.size]? with
  | none => .inr s.2
  | some core =>
    let items := g.closure core.kernel
    let (edges, cores) := numberMoves s.1 (g.moves items)
    .inl (cores, s.2.push ⟨core.via, core.kernel, items, edges, g.completions items⟩)

/-- **Each step makes a state**, and when the loop ends every number has its own. -/
theorem explore_ends {rounds : Nat} {cores : Array Core} {done : Array State}
    (h : g.Explored cores done) (hr : 2 ^ g.itemCount ≤ rounds + done.size) :
    ∃ n, n + done.size = (g.explore rounds cores done).size ∧ n + done.size ≤ 2 ^ g.itemCount ∧
      EndsIn g.workThrough n (cores, done) (g.explore rounds cores done) := by
  induction rounds generalizing cores done with
  | zero =>
      have hnone : cores[done.size]? = none :=
        Array.getElem?_eq_none (by have := h.size_le_pow; omega)
      have hle := Nat.le_trans h.size_le h.size_le_pow
      exact ⟨0, Nat.zero_add _, by omega, .stop (by rw [workThrough, hnone]; rfl)⟩
  | succ rounds ih =>
      rw [explore]
      cases hcore : cores[done.size]? with
      | none =>
          have hle := Nat.le_trans h.size_le h.size_le_pow
          exact ⟨0, Nat.zero_add _, by omega, .stop (by rw [workThrough, hcore])⟩
      | some core =>
          obtain ⟨n, hn, hle, hends⟩ := ih (h.push hcore) (by rw [Array.size_push]; omega)
          rw [Array.size_push] at hn hle
          dsimp only
          exact ⟨n + 1, by omega, by omega, .next (by rw [workThrough, hcore]) hends⟩

/-- **All states are found**, one with each step, and there are no more of them than sets
of items. -/
theorem skeleton_ends {start : Symbol} (hg : g.WellFormed start) :
    g.automaton.count ≤ 2 ^ g.itemCount ∧
      EndsIn g.workThrough g.automaton.count (#[startCore], #[]) g.skeleton.states := by
  obtain ⟨n, hn, hle, hends⟩ :=
    explore_ends (explored_start hg) (Nat.le_add_right (Nat.pow 2 g.itemCount) 0)
  have hcount : n = g.automaton.count := by
    rw [automaton, Automaton.count_withTuples]
    exact hn
  exact ⟨hcount ▸ hle, hcount ▸ hends⟩

end Productions

/-! ## The marks -/

namespace Automaton

variable {next : Array (List Nat)} {marks : Array Bool}

/-- One round of spreading marks, which is finished when none changes. -/
def spread (next : Array (List Nat)) (marks : Array Bool) : Array Bool ⊕ Array Bool :=
  if spreadOnce next marks = marks then .inr marks else .inl (spreadOnce next marks)

/-- **Marks spread only as long as a state has none.** -/
theorem spreadMarks_ends {rounds : Nat} (h : (unmarked marks).card ≤ rounds) :
    ∃ n ≤ (unmarked marks).card, EndsIn (spread next) n marks (spreadMarks next rounds marks) := by
  induction rounds generalizing marks with
  | zero =>
      have hfixed : spreadOnce next marks = marks := by
        by_contra hne
        have hlt := card_unmarked_spreadOnce_lt hne
        omega
      exact ⟨0, Nat.zero_le _, .stop (if_pos hfixed)⟩
  | succ rounds ih =>
      rw [spreadMarks_succ]
      by_cases hfixed : spreadOnce next marks = marks
      · rw [if_pos hfixed]
        exact ⟨0, Nat.zero_le _, .stop (if_pos hfixed)⟩
      · have hlt := card_unmarked_spreadOnce_lt hfixed
        obtain ⟨n, hn, hends⟩ := @ih (spreadOnce next marks) (by omega)
        rw [if_neg hfixed]
        exact ⟨n + 1, by omega, .next (if_neg hfixed) hends⟩

/-- **The marks of an automaton come to rest**, after as many rounds as there are states at
the latest. -/
theorem announcing_ends (a : Automaton) (g : Productions) :
    ∃ n ≤ a.count, EndsIn (spread ((Array.range a.count).map a.successors)) n
      ((Array.range a.count).map (a.reducesPredicted g)) (a.announcing g) := by
  have hcard : (unmarked ((Array.range a.count).map (a.reducesPredicted g))).card ≤ a.count :=
    calc (unmarked ((Array.range a.count).map (a.reducesPredicted g))).card
        ≤ (Finset.range ((Array.range a.count).map (a.reducesPredicted g)).size).card :=
          Finset.card_filter_le _ _
      _ = a.count := by simp
  obtain ⟨n, hn, hends⟩ := spreadMarks_ends hcard
  exact ⟨n, Nat.le_trans hn hcard, hends⟩

end Automaton
end BoundedLR
