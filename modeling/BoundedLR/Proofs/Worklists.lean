import BoundedLR.Proofs.EndingLoops

/-!
# Working through what has been found

Two sets of the construction are the least that hold some seeds and with each element what
it opens: the closure of some items, and the states that announce.  Their definitions go by
rounds.  Such a set can also be worked out one element at a time: elements that have been
found wait in a list, the one found last is taken up next, and of what it opens the elements
that are new are found and have to wait in their turn.  `Expansion` is what such a loop
remembers, and `Expansion.takeUp` is its step.

Every element is found once, and so it is taken up once: the loop ends with the least set
after as many steps as the set has elements (`Generated.ends`).  For the states that
announce this is `Automaton.marked_ends`; a state opens the states from which a move enters
it.  The closure of items is treated in `LeastClosures`.
-/

namespace BoundedLR

variable {α : Type} [Ord α]

/-- An ascending list grows by an element that it lacks. -/
theorem length_insertAscending [Std.LawfulEqOrd α] {x : α} {ys : List α}
    (h : x ∉ ys) : (insertAscending x ys).length = ys.length + 1 := by
  induction ys with
  | nil => rfl
  | cons y ys ih =>
      rw [List.mem_cons, not_or] at h
      unfold insertAscending
      split
      · rfl
      · rename_i heq
        exact absurd (Std.LawfulEqOrd.eq_of_compare heq) h.1
      · rw [List.length_cons, ih h.2, List.length_cons]

/-- A set that is being worked out. -/
structure Expansion (α : Type) where
  /-- The elements that have been found, ascending. -/
  found : List α
  /-- Those of them that have not been taken up, the latest first. -/
  waiting : List α

/-- An ascending list is the least set that holds the seeds and with each element what it
opens. -/
structure Generated (opens : α → List α) (seeds all : List α) : Prop where
  ascending : IsAscending all
  seeds_subset : seeds ⊆ all
  closed : ∀ x ∈ all, opens x ⊆ all
  least : ∀ other : List α, seeds ⊆ other → (∀ x ∈ other, opens x ⊆ other) → all ⊆ other

namespace Expansion

/-- What finding elements changes: they are found, and the new ones wait. -/
structure Finds (e : Expansion α) (xs : List α) (after : Expansion α) : Prop where
  ascending : IsAscending after.found
  mem_found : ∀ x, x ∈ after.found ↔ x ∈ e.found ∨ x ∈ xs
  waiting_subset : e.waiting ⊆ after.waiting
  mem_waiting : ∀ x ∈ after.waiting, x ∈ e.waiting ∨ x ∈ xs
  waits : ∀ x ∈ after.found, x ∈ e.found ∨ x ∈ after.waiting
  length_eq : after.found.length + e.waiting.length = e.found.length + after.waiting.length

variable {e : Expansion α} {xs more : List α}

theorem Finds.refl (ha : IsAscending e.found) : e.Finds [] e where
  ascending := ha
  mem_found _ := ⟨.inl, fun h => h.resolve_right List.not_mem_nil⟩
  waiting_subset _ h := h
  mem_waiting _ := .inl
  waits _ := .inl
  length_eq := rfl

theorem Finds.trans {between after : Expansion α} (h : e.Finds xs between)
    (h' : between.Finds more after) : e.Finds (xs ++ more) after where
  ascending := h'.ascending
  mem_found x := by rw [h'.mem_found, h.mem_found, List.mem_append, or_assoc]
  waiting_subset _ hx := h'.waiting_subset (h.waiting_subset hx)
  mem_waiting x hx := by
    rcases h'.mem_waiting x hx with hx | hx
    · exact (h.mem_waiting x hx).imp_right (List.mem_append_left more)
    · exact .inr (List.mem_append_right xs hx)
  waits x hx := by
    rcases h'.waits x hx with hx | hx
    · exact (h.waits x hx).imp_right fun hx => h'.waiting_subset hx
    · exact .inr hx
  length_eq := by
    have hfirst := h.length_eq
    have hsecond := h'.length_eq
    omega

variable [DecidableEq α]

/-- Finds an element, which has to wait if it is new. -/
def add (e : Expansion α) (x : α) : Expansion α :=
  if x ∈ e.found then e else ⟨insertAscending x e.found, x :: e.waiting⟩

/-- Finds elements one after the other. -/
def addAll (e : Expansion α) (xs : List α) : Expansion α := xs.foldl add e

/-- What is found first. -/
def ofSeeds (seeds : List α) : Expansion α := addAll ⟨[], []⟩ seeds

/-- Takes up the element that has been found last, and finds what it opens. -/
def takeUp (opens : α → List α) (e : Expansion α) : Expansion α ⊕ List α :=
  match e.waiting with
  | [] => .inr e.found
  | x :: waiting => .inl ((⟨e.found, waiting⟩ : Expansion α).addAll (opens x))

variable [Std.LawfulEqOrd α] [Std.TransOrd α]

theorem finds_add (ha : IsAscending e.found) (x : α) : e.Finds [x] (e.add x) := by
  unfold add
  split
  · rename_i hx
    exact ⟨ha, fun y => ⟨.inl, fun hy => hy.elim id fun hy => List.mem_singleton.1 hy ▸ hx⟩,
      fun _ hy => hy, fun _ => .inl, fun _ => .inl, rfl⟩
  · rename_i hx
    refine ⟨pairwise_insertAscending ha, fun y => ?_, fun _ hy => List.mem_cons_of_mem _ hy,
      fun y hy => ?_, fun y hy => ?_, ?_⟩
    · rw [mem_insertAscending, List.mem_singleton, or_comm]
    · exact (List.mem_cons.1 hy).elim (fun h => .inr (List.mem_singleton.2 h)) .inl
    · exact (mem_insertAscending.1 hy).elim (fun h => .inr (h ▸ List.mem_cons_self)) .inl
    · rw [length_insertAscending hx, List.length_cons]
      omega

/-- **What becomes of an expansion** by finding elements one after the other. -/
theorem finds_addAll (ha : IsAscending e.found) (xs : List α) : e.Finds xs (e.addAll xs) := by
  induction xs generalizing e with
  | nil => exact .refl ha
  | cons x xs ih =>
      have hfirst := finds_add ha x
      exact hfirst.trans (ih hfirst.ascending)

end Expansion

/-! ## On the way to the least set -/

/-- The expansion is on its way to a set. -/
structure Expands (opens : α → List α) (seeds all : List α) (e : Expansion α) : Prop where
  ascending : IsAscending e.found
  seeds_subset : seeds ⊆ e.found
  found_subset : e.found ⊆ all
  waiting_subset : e.waiting ⊆ e.found
  /-- What has been found waits, or what it opens has been found, too. -/
  opened : ∀ x ∈ e.found, x ∈ e.waiting ∨ opens x ⊆ e.found

section Generated

variable [Std.LawfulEqOrd α] [Std.TransOrd α] {opens : α → List α} {seeds all : List α}
  {e : Expansion α}

/-- If nothing waits, the set has been found. -/
theorem Generated.found_eq (h : Generated opens seeds all) (he : Expands opens seeds all e)
    (hw : e.waiting = []) : e.found = all := by
  refine he.ascending.eq_of_mem_iff h.ascending fun x =>
    ⟨fun hx => he.found_subset hx, fun hx => h.least _ he.seeds_subset (fun y hy => ?_) hx⟩
  refine (he.opened y hy).resolve_left ?_
  rw [hw]
  exact List.not_mem_nil

variable [DecidableEq α]

theorem Generated.expands_ofSeeds (h : Generated opens seeds all) :
    Expands opens seeds all (.ofSeeds seeds) := by
  have hfinds := Expansion.finds_addAll (e := ⟨[], []⟩) IsAscending.nil seeds
  have hmem : ∀ x, x ∈ (Expansion.ofSeeds seeds).found ↔ x ∈ seeds := fun x => by
    rw [Expansion.ofSeeds, hfinds.mem_found, or_iff_right List.not_mem_nil]
  exact ⟨hfinds.ascending, fun x hx => (hmem x).2 hx, fun x hx => h.seeds_subset ((hmem x).1 hx),
    fun x hx => (hmem x).2 ((hfinds.mem_waiting x hx).resolve_left List.not_mem_nil),
    fun x hx => .inl ((hfinds.waits x hx).resolve_left List.not_mem_nil)⟩

/-- **Taking up an element stays on the way.** -/
theorem Generated.expands_takeUp (h : Generated opens seeds all) (he : Expands opens seeds all e)
    {x : α} {waiting : List α} (hw : e.waiting = x :: waiting) :
    Expands opens seeds all ((⟨e.found, waiting⟩ : Expansion α).addAll (opens x)) := by
  have hfinds := Expansion.finds_addAll (e := ⟨e.found, waiting⟩) he.ascending (opens x)
  have hx : x ∈ e.found := he.waiting_subset (hw ▸ List.mem_cons_self)
  have hkeeps : ∀ y ∈ e.found, y ∈ (Expansion.addAll ⟨e.found, waiting⟩ (opens x)).found :=
    fun y hy => (hfinds.mem_found y).2 (.inl hy)
  have hopens : ∀ y ∈ opens x, y ∈ (Expansion.addAll ⟨e.found, waiting⟩ (opens x)).found :=
    fun y hy => (hfinds.mem_found y).2 (.inr hy)
  constructor
  case ascending => exact hfinds.ascending
  case seeds_subset => exact fun y hy => hkeeps y (he.seeds_subset hy)
  case found_subset =>
    intro y hy
    rcases (hfinds.mem_found y).1 hy with hy | hy
    · exact he.found_subset hy
    · exact h.closed x (he.found_subset hx) hy
  case waiting_subset =>
    intro y hy
    rcases hfinds.mem_waiting y hy with hy | hy
    · exact hkeeps y (he.waiting_subset (hw ▸ List.mem_cons_of_mem x hy))
    · exact hopens y hy
  case opened =>
    -- the element that is taken up is the only one that no longer waits
    intro y hy
    rcases hfinds.waits y hy with hy | hy
    · rcases he.opened y hy with hwaits | hopened
      · rcases List.mem_cons.1 (hw ▸ hwaits) with rfl | hwaits
        · exact .inr hopens
        · exact .inl (hfinds.waiting_subset hwaits)
      · exact .inr fun z hz => hkeeps z (hopened hz)
    · exact .inl hy

/-- The loop ends once it has taken up what waits and what has not been found yet. -/
theorem Generated.ends_of_expands (h : Generated opens seeds all) (he : Expands opens seeds all e)
    {n : Nat} (hn : n + e.found.length = all.length + e.waiting.length) :
    EndsIn (Expansion.takeUp opens) n e all := by
  induction n generalizing e with
  | zero =>
      have hle : e.found.length ≤ all.length :=
        (List.subperm_of_subset he.ascending.nodup he.found_subset).length_le
      have hw : e.waiting = [] := List.eq_nil_of_length_eq_zero (by omega)
      refine .stop ?_
      rw [Expansion.takeUp, hw]
      exact congrArg Sum.inr (h.found_eq he hw)
  | succ n ih =>
      cases hw : e.waiting with
      | nil =>
          rw [h.found_eq he hw, hw, List.length_nil] at hn
          omega
      | cons x waiting =>
          have hfinds := Expansion.finds_addAll (e := ⟨e.found, waiting⟩) he.ascending (opens x)
          have hlength := hfinds.length_eq
          rw [hw, List.length_cons] at hn
          refine .next (by rw [Expansion.takeUp, hw]) (ih (h.expands_takeUp he hw) ?_)
          -- what is new is found and waits, so the count changes by the element taken up
          dsimp only at hlength
          omega

/-- **Every element is taken up once**, and then the set has been found. -/
theorem Generated.ends (h : Generated opens seeds all) :
    EndsIn (Expansion.takeUp opens) all.length (.ofSeeds seeds) all := by
  refine h.ends_of_expands h.expands_ofSeeds ?_
  have hlength := (Expansion.finds_addAll (e := ⟨[], []⟩) IsAscending.nil seeds).length_eq
  rw [Expansion.ofSeeds]
  simp only [List.length_nil] at hlength
  omega

end Generated

/-! ## The states that announce -/

namespace Automaton

variable {a : Automaton} {g : Productions} {state target : Nat}

/-- The states from which a move enters a state, each as often as there are such moves. -/
def sources (a : Automaton) (target : Nat) : List Nat :=
  (List.range a.count).flatMap fun state =>
    ((a.successors state).filter (· == target)).map fun _ => state

/-- The states that themselves reduce a production that asks for an announcement. -/
def predicted (a : Automaton) (g : Productions) : List Nat :=
  (List.range a.count).filter (a.reducesPredicted g)

/-- The states with a mark. -/
def marked (a : Automaton) (g : Productions) : List Nat :=
  (List.range a.count).filter fun state => (a.announcing g).getD state false

theorem mem_sources : state ∈ a.sources target ↔ target ∈ a.successors state := by
  simp only [sources, List.mem_flatMap, List.mem_map, List.mem_filter, beq_iff_eq, List.mem_range]
  constructor
  · rintro ⟨state, -, target, ⟨hmem, rfl⟩, rfl⟩
    exact hmem
  · intro hmem
    exact ⟨state, lt_count_of_mem_successors hmem, target, ⟨hmem, rfl⟩, rfl⟩

theorem mem_predicted : state ∈ a.predicted g ↔ a.reducesPredicted g state = true := by
  rw [predicted, List.mem_filter, List.mem_range]
  exact and_iff_right_of_imp lt_count_of_reducesPredicted

theorem mem_marked : state ∈ a.marked g ↔ a.Announces g state := by
  rw [marked, List.mem_filter, List.mem_range, announcing_iff]
  refine and_iff_right_of_imp fun h => ?_
  cases h with
  | here hpredicted => exact lt_count_of_reducesPredicted hpredicted
  | later hmem _ => exact lt_count_of_mem_successors hmem

theorem isAscending_marked (a : Automaton) (g : Productions) : IsAscending (a.marked g) :=
  IsAscending.filter (List.pairwise_lt_range.imp Nat.compare_eq_lt.2) _

/-- The marked states are the least set that holds the states that reduce such a production,
and with a state those from which a move enters it. -/
theorem generated_marked (a : Automaton) (g : Productions) :
    Generated a.sources (a.predicted g) (a.marked g) where
  ascending := a.isAscending_marked g
  seeds_subset state h := mem_marked.2 (.here (mem_predicted.1 h))
  closed target h state hmem := mem_marked.2 (.later (mem_sources.1 hmem) (mem_marked.1 h))
  least other hseeds hclosed state h := by
    induction mem_marked.1 h with
    | here hpredicted => exact hseeds (mem_predicted.2 hpredicted)
    | later hmem hannounces ih =>
        exact hclosed _ (ih (mem_marked.2 hannounces)) (mem_sources.2 hmem)

/-- **Every marked state is taken up once**, and there are no more of them than states. -/
theorem marked_ends (a : Automaton) (g : Productions) : (a.marked g).length ≤ a.count ∧
    EndsIn (Expansion.takeUp a.sources) (a.marked g).length (.ofSeeds (a.predicted g))
      (a.marked g) := by
  refine ⟨?_, (a.generated_marked g).ends⟩
  calc (a.marked g).length
      ≤ (List.range a.count).length := List.length_filter_le ..
    _ = a.count := List.length_range

end Automaton
end BoundedLR
