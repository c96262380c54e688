import Mathlib.Data.Finset.Card
import BoundedLR.Proofs.ShiftDecisions

/-!
# Marks tell where an announcement may still be due

`Automaton.announcing` spreads marks backwards over the moves of the automaton, for
as many rounds as there are states.  That is enough: a round that is not the last
marks a state that was not marked before.  So the marks are exactly those of
`Automaton.Announces` (`announcing_iff`), and a state is marked as soon as one move
leads from it to a marked state.

The flags of a compiled grammar are these marks.  `Productions.property`,
`Parser.table` and the tries pass them on unchanged, which is stated here for each of
the three ways in which a machine gets to see one.
-/

namespace BoundedLR
namespace Automaton

variable {next : Array (List Nat)} {marks : Array Bool} {state target : Nat}

/-! ## One round -/

/-- One round of spreading marks. -/
def spreadOnce (next : Array (List Nat)) (marks : Array Bool) : Array Bool :=
  marks.mapIdx fun state mark =>
    mark || (next.getD state []).any fun target => marks.getD target false

/-- No round would mark another state. -/
def Settled (next : Array (List Nat)) (marks : Array Bool) : Prop :=
  ∀ state target, state < marks.size → target ∈ next.getD state [] →
    marks.getD target false = true → marks.getD state false = true

theorem spreadMarks_succ (rounds : Nat) : spreadMarks next (rounds + 1) marks =
    if spreadOnce next marks = marks then marks
    else spreadMarks next rounds (spreadOnce next marks) := rfl

@[simp] theorem size_spreadOnce : (spreadOnce next marks).size = marks.size := by
  simp [spreadOnce]

theorem lt_size_of_getD (h : marks.getD state false = true) : state < marks.size := by
  by_contra hge
  simp [Array.getD, hge] at h

theorem getD_spreadOnce (hlt : state < marks.size) : (spreadOnce next marks).getD state false =
    (marks.getD state false || (next.getD state []).any fun target => marks.getD target false) := by
  simp [spreadOnce, Array.getD, hlt]

/-- A round takes no mark away. -/
theorem getD_spreadOnce_of_getD (h : marks.getD state false = true) :
    (spreadOnce next marks).getD state false = true := by
  rw [getD_spreadOnce (lt_size_of_getD h), h, Bool.true_or]

theorem settled_of_spreadOnce_eq (h : spreadOnce next marks = marks) : Settled next marks := by
  intro state target hlt hmem htarget
  rw [← h, getD_spreadOnce hlt, Bool.or_eq_true]
  exact .inr (List.any_eq_true.2 ⟨target, hmem, htarget⟩)

/-! ## Enough rounds -/

/-- The states that have no mark. -/
def unmarked (marks : Array Bool) : Finset Nat :=
  (Finset.range marks.size).filter fun state => marks.getD state false = false

/-- A round that changes anything leaves fewer states without a mark. -/
theorem card_unmarked_spreadOnce_lt (h : spreadOnce next marks ≠ marks) :
    (unmarked (spreadOnce next marks)).card < (unmarked marks).card := by
  obtain ⟨state, hlt, hne⟩ : ∃ state, ∃ hlt : state < marks.size,
      (spreadOnce next marks).getD state false ≠ marks.getD state false := by
    by_contra hall
    push Not at hall
    refine h (Array.ext size_spreadOnce fun state hlt hlt' => ?_)
    have hstate := hall state hlt'
    simpa [Array.getD, hlt', hlt] using hstate
  refine Finset.card_lt_card (Finset.ssubset_iff_of_subset ?_ |>.2 ⟨state, ?_, ?_⟩)
  · intro other hother
    simp only [unmarked, Finset.mem_filter, Finset.mem_range, size_spreadOnce] at hother ⊢
    refine ⟨hother.1, Bool.eq_false_iff.2 fun hmark => ?_⟩
    rw [getD_spreadOnce_of_getD hmark] at hother
    exact Bool.noConfusion hother.2
  · simp only [unmarked, Finset.mem_filter, Finset.mem_range]
    refine ⟨hlt, Bool.eq_false_iff.2 fun hmark => hne ?_⟩
    rw [getD_spreadOnce_of_getD hmark, hmark]
  · simp only [unmarked, Finset.mem_filter, Finset.mem_range, not_and]
    intro _ hnone
    refine hne (hnone.trans (Eq.symm (Bool.eq_false_iff.2 fun hmark => ?_)))
    rw [getD_spreadOnce_of_getD hmark] at hnone
    exact Bool.noConfusion hnone

/-- **As many rounds as states without a mark** are enough. -/
theorem settled_spreadMarks {rounds : Nat} (h : (unmarked marks).card ≤ rounds) :
    Settled next (spreadMarks next rounds marks) := by
  induction rounds generalizing marks with
  | zero =>
      have hnone : unmarked marks = ∅ := Finset.card_eq_zero.1 (Nat.le_zero.1 h)
      intro state target hlt _ _
      by_contra hmark
      have hmem : state ∈ unmarked marks :=
        Finset.mem_filter.2 ⟨Finset.mem_range.2 hlt, Bool.eq_false_iff.2 hmark⟩
      rw [hnone] at hmem
      exact Finset.notMem_empty state hmem
  | succ rounds ih =>
      rw [spreadMarks_succ]
      by_cases hfixed : spreadOnce next marks = marks
      · rw [if_pos hfixed]
        exact settled_of_spreadOnce_eq hfixed
      · rw [if_neg hfixed]
        have hlt := card_unmarked_spreadOnce_lt hfixed
        exact ih (by omega)

/-- What holds of the marked states, and passes backwards over a move, holds of all
states that are ever marked. -/
theorem spreadMarks_keeps {P : Nat → Prop} (hP : ∀ state target, target ∈ next.getD state [] →
      P target → P state) {rounds : Nat} (h : ∀ state, marks.getD state false = true → P state) :
    ∀ state, (spreadMarks next rounds marks).getD state false = true → P state := by
  induction rounds generalizing marks with
  | zero => exact h
  | succ rounds ih =>
      rw [spreadMarks_succ]
      split
      · exact h
      · refine ih fun state hmark => ?_
        have hlt := lt_size_of_getD hmark
        rw [size_spreadOnce] at hlt
        rw [getD_spreadOnce hlt, Bool.or_eq_true, List.any_eq_true] at hmark
        rcases hmark with hmark | ⟨target, hmem, htarget⟩
        · exact h state hmark
        · exact hP state target hmem (h target htarget)

/-- Spreading takes no mark away, and adds no state. -/
theorem le_spreadMarks (next : Array (List Nat)) (marks : Array Bool) (rounds : Nat) :
    (spreadMarks next rounds marks).size = marks.size ∧
      ∀ state, marks.getD state false = true →
        (spreadMarks next rounds marks).getD state false = true := by
  induction rounds generalizing marks with
  | zero => exact ⟨rfl, fun _ h => h⟩
  | succ rounds ih =>
      rw [spreadMarks_succ]
      split
      · exact ⟨rfl, fun _ h => h⟩
      · obtain ⟨hsize, hkept⟩ := ih (spreadOnce next marks)
        exact ⟨hsize.trans size_spreadOnce, fun state h => hkept state (getD_spreadOnce_of_getD h)⟩

/-! ## The marks of an automaton -/

section Announcing

variable {a : Automaton} {g : Productions}

theorem mem_successors : target ∈ a.successors state ↔
    (∃ e ∈ a.terminalEdges state, e.target = target) ∨
      ∃ r ∈ a.reductions state, ∃ last, (last, target) ∈ r.tuples := by
  simp only [successors, List.mem_append, List.mem_map, List.mem_flatMap, Prod.exists,
    exists_eq_right]

/-- Only states have moves. -/
theorem lt_count_of_mem_successors (h : target ∈ a.successors state) : state < a.count := by
  rcases mem_successors.1 h with ⟨e, he, -⟩ | ⟨r, hr, -⟩
  · exact lt_count_of_mem_edges (Realises.mem_terminalEdges.1 he).1
  · exact lt_count_of_mem_reductions hr

theorem lt_count_of_reducesPredicted (h : a.reducesPredicted g state = true) :
    state < a.count := by
  obtain ⟨r, hr, -⟩ := List.any_eq_true.1 h
  exact lt_count_of_mem_reductions hr

theorem getD_range_map {β : Type} {f : Nat → β} {default : β} (h : state < a.count) :
    ((Array.range a.count).map f).getD state default = f state := by
  simp [Array.getD, h]

/-- **The marks are right**: a state is marked exactly if some moves lead from it to the
reduction of a production that asks for an announcement. -/
theorem announcing_iff :
    (a.announcing g).getD state false = true ↔ a.Announces g state := by
  have hsize : ((Array.range a.count).map (a.reducesPredicted g)).size = a.count := by simp
  constructor
  · refine spreadMarks_keeps (fun n m hmem hm => ?_) (fun n hn => ?_) state
    · by_cases hlt : n < a.count
      · rw [getD_range_map hlt] at hmem
        exact .later hmem hm
      · simp [Array.getD, hlt] at hmem
    · have hlt := lt_size_of_getD hn
      rw [hsize] at hlt
      rw [getD_range_map hlt] at hn
      exact .here hn
  · intro h
    have hsettled : Settled ((Array.range a.count).map a.successors) (a.announcing g) := by
      refine settled_spreadMarks ?_
      calc (unmarked ((Array.range a.count).map (a.reducesPredicted g))).card
          ≤ (Finset.range ((Array.range a.count).map (a.reducesPredicted g)).size).card :=
            Finset.card_filter_le _ _
        _ = a.count := by rw [Finset.card_range, hsize]
    obtain ⟨hspread, hkept⟩ := le_spreadMarks ((Array.range a.count).map a.successors)
      ((Array.range a.count).map (a.reducesPredicted g)) a.count
    induction h with
    | here hpredicted =>
        refine hkept _ ?_
        rw [getD_range_map (lt_count_of_reducesPredicted hpredicted)]
        exact hpredicted
    | later hmem _ ih =>
        have hlt := lt_count_of_mem_successors hmem
        refine hsettled _ _ ?_ ?_ ih
        · rw [announcing, hspread, hsize]
          exact hlt
        · rw [getD_range_map hlt]
          exact hmem

end Announcing

end Automaton

/-! ## The flags of a compiled grammar -/

namespace Parser

variable {p : Parser} {start : Symbol} {n index target last : Nat}

theorem announces_iff : p.announces n = true ↔ p.automaton.Announces p.productions n :=
  Automaton.announcing_iff

namespace Compiled

/-- A shift leads on, and its flag is the mark of the state that it enters. -/
theorem flag_of_shift (hp : p.Compiled start) {root level : Trie Decision} {word : List Symbol}
    {s : Symbol} {predict : Bool} (hroot : p.table.root n = .ok root)
    (hw : root.walk word = some level)
    (hs : level.find? s = some (.settled (.shift target predict))) :
    target ∈ p.automaton.successors n ∧ predict = p.announces target := by
  obtain ⟨first, -, hterm, hshift, hpredict⟩ := hp.shift_of_walk hroot hw hs
  obtain ⟨e, he, hes, htarget⟩ := (hp.realises.shift_eq_some_iff hterm).1 hshift
  have hmem := Automaton.Realises.mem_terminalEdges.2 ⟨he, hes ▸ hterm⟩
  exact ⟨Automaton.mem_successors.2 (.inl ⟨e, hmem, htarget⟩), hpredict⟩

/-- So does the state that a reduction enters. -/
theorem flag_of_landing (hp : p.Compiled start) {landing : Landing Nat}
    (h : p.table.landing n index last = .ok (some landing)) :
    landing.target ∈ p.automaton.successors n ∧ landing.predict = p.announces landing.target := by
  obtain ⟨r, hr, hmem, hpredict⟩ := hp.landing_eq_ok.1 h
  exact ⟨Automaton.mem_successors.2 (.inr ⟨r, List.mem_of_getElem? hr, last, hmem⟩), hpredict⟩

/-- A reduction that asks for an announcement is one of a marked state. -/
theorem announces_of_property (hp : p.Compiled start) {q : ReductionProperty}
    (h : p.table.property n index = .ok q) (hq : q.predict = true) :
    p.automaton.Announces p.productions n := by
  obtain ⟨r, hr, rfl⟩ := hp.property_eq_ok.1 h
  refine .here (List.any_eq_true.2 ⟨r, List.mem_of_getElem? hr, ?_⟩)
  rw [Productions.property] at hq
  cases hproduction : p.productions.all[r.production]? with
  | none =>
      rw [hproduction] at hq
      cases hq
  | some production =>
      rw [hproduction] at hq
      exact hq

end Compiled
end Parser
end BoundedLR
