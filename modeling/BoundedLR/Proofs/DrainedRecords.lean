import BoundedLR.Proofs.LawfulStacks

/-!
# Records that have been drained

`Record.drained` is what is left of a record once its first steps have been handed
out: the offsets of its entries count from the first step that is left.  Draining
twice is draining once, and `Record.clearSteps` drains what is settled.

What a machine does to a drained record, it does to the whole record, as long as
nothing is inserted among the steps that are gone (`shift_drained`,
`reduce_drained`).  Whether something might be is decided at the bottom of the
stack.  The element above the lowest entry begins where the steps begin; if an
announcement may be due in front of every element, then nothing is settled at all
(`Grounded.settled_eq_zero`).
-/

namespace BoundedLR

variable {Node : Type} {r : Record Node} {count : Nat}

/-! ## Draining -/

namespace Record

/-- What is left of a record once its first steps have been handed out. -/
def drained (r : Record Node) (count : Nat) : Record Node :=
  { r with
    entries := r.entries.map fun e => { e with offset := e.offset - count }
    steps := r.steps.drop count }

theorem clearSteps_eq (r : Record Node) :
    r.clearSteps = (r.steps.take r.settled, r.drained r.settled) := rfl

@[simp] theorem drained_zero (r : Record Node) : r.drained 0 = r := by
  simp [drained]

theorem drained_drained (r : Record Node) (count more : Nat) :
    (r.drained count).drained more = r.drained (count + more) := by
  simp [drained, Nat.sub_sub]

theorem settled_drained (r : Record Node) (count : Nat) :
    (r.drained count).settled = r.settled - count := by
  have hfind : (r.drained count).entries.reverse.find? (·.provisional) =
      (r.entries.reverse.find? (·.provisional)).map
        fun e => { e with offset := e.offset - count } := by
    rw [drained, ← List.map_reverse, List.find?_map]
    rfl
  rw [settled, settled, hfind]
  cases r.entries.reverse.find? (·.provisional) with
  | none => exact List.length_drop
  | some entry => rfl

theorem spanStart_drained (r : Record Node) (count elements : Nat) :
    (r.drained count).spanStart elements = r.spanStart elements - count := by
  cases elements with
  | zero => exact List.length_drop
  | succ elements =>
      rw [spanStart, spanStart, drained]
      dsimp only
      rw [List.getElem?_map]
      cases r.entries[elements]? with
      | none => exact List.length_drop
      | some entry => rfl

/-- Draining leaves the nodes on the stack. -/
theorem peek_drained (r : Record Node) (count n : Nat) :
    StateStack.peek (r.drained count) n = StateStack.peek r n := by
  change ((r.drained count).entries[n]?).map (·.node) = (r.entries[n]?).map (·.node)
  rw [drained, List.getElem?_map, Option.map_map]
  rfl

/-! ## Working on a drained record -/

theorem shift_drained (h : count ≤ r.steps.length) (token : Token) (landing : Landing Node) :
    (r.drained count).shift token landing = (r.shift token landing).drained count := by
  rw [shift, shift, drained, drained]
  by_cases hend : token.symbol = .endOfInput
  · simp [hend]
  · simp [hend, List.drop_append_of_le_length h]

/-- An announcement may only be inserted if nothing has been handed out. -/
theorem reduce_drained (h : count ≤ r.steps.length) {q : ReductionProperty}
    (hq : q.predict = true → count = 0) (landing : Landing Node) :
    (r.drained count).reduce q landing = (r.reduce q landing).drained count := by
  by_cases hpredict : q.predict = true
  · rw [hq hpredict, drained_zero, drained_zero]
  · have hspan := r.spanStart_drained count q.count
    rw [reduce, reduce, hspan]
    simp [drained, hpredict, List.drop_append_of_le_length h, List.map_drop]

/-- The steps that have been handed out stay the first steps. -/
theorem take_steps_shift (h : count ≤ r.steps.length) (token : Token) (landing : Landing Node) :
    (r.shift token landing).steps.take count = r.steps.take count := by
  rw [shift]
  by_cases hend : token.symbol = .endOfInput
  · simp [hend]
  · simp [hend, List.take_append_of_le_length h]

theorem take_steps_reduce (h : count ≤ r.steps.length) {q : ReductionProperty}
    (hq : q.predict = true → count = 0) (landing : Landing Node) :
    (r.reduce q landing).steps.take count = r.steps.take count := by
  by_cases hpredict : q.predict = true
  · rw [hq hpredict, List.take_zero, List.take_zero]
  · simp [reduce, hpredict, List.take_append_of_le_length h]

/-! ## The bottom of the stack -/

/-- The lowest two entries of a record begin where its steps begin, and no entry
begins behind the last of them. -/
structure Grounded (r : Record Node) : Prop where
  base : ∃ above bottom, r.entries = above ++ [bottom] ∧ bottom.offset = 0 ∧
    (above = [] → r.steps = []) ∧ ∀ e, above.getLast? = some e → e.offset = 0
  within : ∀ e ∈ r.entries, e.offset ≤ r.steps.length

theorem grounded_start (startup : Node) : (start startup).Grounded where
  base := ⟨[], _, rfl, rfl, fun _ => rfl, nofun⟩
  within e he := by
    cases List.mem_singleton.1 he
    exact Nat.le_refl _

/-- Draining leaves the bottom of the stack where it is. -/
theorem Grounded.drained (h : r.Grounded) (count : Nat) : (r.drained count).Grounded where
  base := by
    obtain ⟨above, bottom, hentries, hbottom, hnil, hlast⟩ := h.base
    refine ⟨above.map fun e => { e with offset := e.offset - count },
      { bottom with offset := bottom.offset - count }, ?_, ?_, fun hempty => ?_, fun e he => ?_⟩
    · rw [Record.drained, hentries, List.map_append]
      rfl
    · rw [hbottom, Nat.zero_sub]
    · rw [Record.drained, hnil (List.map_eq_nil_iff.1 hempty), List.drop_nil]
    · rw [List.getLast?_map] at he
      obtain ⟨e, hmem, rfl⟩ := Option.map_eq_some_iff.1 he
      rw [hlast e hmem, Nat.zero_sub]
  within e he := by
    obtain ⟨e, hmem, rfl⟩ := List.mem_map.1 he
    rw [Record.drained, List.length_drop]
    exact Nat.sub_le_sub_right (h.within e hmem) count

/-- The steps of the topmost elements begin within the steps, at the first of them if
no other element is left. -/
theorem Grounded.spanStart (h : r.Grounded) (elements : Nat) :
    r.spanStart elements ≤ r.steps.length ∧
      (elements + 1 = r.entries.length → r.spanStart elements = 0) := by
  obtain ⟨above, bottom, hentries, hbottom, hnil, hlast⟩ := h.base
  cases elements with
  | zero =>
      refine ⟨Nat.le_refl _, fun hlen => ?_⟩
      have habove : above = [] := by
        simpa [hentries] using hlen
      rw [Record.spanStart, hnil habove]
      rfl
  | succ elements =>
      rw [Record.spanStart]
      cases hentry : r.entries[elements]? with
      | none =>
          refine ⟨Nat.le_refl _, fun hlen => ?_⟩
          have hge := List.getElem?_eq_none_iff.1 hentry
          omega
      | some entry =>
          refine ⟨h.within entry (List.mem_of_getElem? hentry), fun hlen => hlast entry ?_⟩
          have hlen : elements + 1 = above.length := by
            simpa [hentries] using hlen
          rw [hentries, List.getElem?_append_left (by omega)] at hentry
          rw [List.getLast?_eq_getElem?, ← hlen]
          exact hentry

/-- An entry that is pushed on a grounded record leaves it grounded, if it begins within
the steps, and at the first of them if it is pushed on the lowest entry. -/
theorem Grounded.push {steps : List Step} {dropped : Nat} {e : Entry Node} (h : r.Grounded)
    (hdropped : dropped < r.entries.length) (hsteps : r.steps.length ≤ steps.length)
    (hwithin : e.offset ≤ steps.length)
    (hlowest : dropped + 1 = r.entries.length → e.offset = 0) :
    ({ r with entries := e :: r.entries.drop dropped, steps := steps } : Record Node).Grounded where
  base := by
    obtain ⟨above, bottom, hentries, hbottom, -, hlast⟩ := h.base
    have hlen : r.entries.length = above.length + 1 := by simp [hentries]
    refine ⟨e :: above.drop dropped, bottom, ?_, hbottom, nofun, fun x hx => ?_⟩
    · simp [hentries, List.drop_append_of_le_length (show dropped ≤ above.length by omega)]
    · by_cases hall : dropped = above.length
      · rw [hall, List.drop_length, List.getLast?_singleton, Option.some.injEq] at hx
        rw [← hx]
        exact hlowest (by omega)
      · refine hlast x ?_
        rw [List.getLast?_cons, List.getLast?_drop, if_neg (by omega)] at hx
        cases hgot : above.getLast? with
        | none =>
            rw [List.getLast?_eq_none_iff] at hgot
            simp [hgot] at hlen hall
            omega
        | some y =>
            rw [hgot] at hx
            exact hx
  within x hx := by
    rcases List.mem_cons.1 hx with rfl | hx
    · exact hwithin
    · exact Nat.le_trans (h.within x (List.mem_of_mem_drop hx)) hsteps

theorem Grounded.shift (h : r.Grounded) (token : Token) (landing : Landing Node) :
    (r.shift token landing).Grounded := by
  obtain ⟨above, bottom, hentries, -⟩ := h.base
  have hpos : 0 < r.entries.length := by simp [hentries]
  have hsteps : r.steps.length ≤ (r.shift token landing).steps.length := by
    rw [Record.shift]
    split <;> simp
  exact h.push hpos hsteps hsteps (h.spanStart 0).2

theorem Grounded.reduce (h : r.Grounded) {q : ReductionProperty}
    (hq : q.count < r.entries.length) (landing : Landing Node) :
    (r.reduce q landing).Grounded := by
  obtain ⟨hle, hzero⟩ := h.spanStart q.count
  have hsteps : r.steps.length ≤ (r.reduce q landing).steps.length := by
    rw [Record.reduce]
    by_cases hpredict : q.predict = true
    · simp [hpredict, List.length_insertIdx_of_le_length hle]
      omega
    · simp [hpredict]
  exact h.push hq hsteps (Nat.le_trans hle hsteps) hzero

theorem Grounded.settled_le (h : r.Grounded) : r.settled ≤ r.steps.length := by
  rw [settled]
  cases hfound : r.entries.reverse.find? (·.provisional) with
  | none => exact Nat.le_refl _
  | some entry => exact h.within entry (List.mem_reverse.1 (List.mem_of_find?_eq_some hfound))

/-- **Nothing is settled** while every element is provisional. -/
theorem Grounded.settled_eq_zero (h : r.Grounded)
    (hprovisional : ∀ e ∈ r.entries.dropLast, e.provisional = true) : r.settled = 0 := by
  obtain ⟨above, bottom, hentries, hbottom, hnil, hlast⟩ := h.base
  rw [settled, hentries, List.reverse_append, List.reverse_singleton, List.singleton_append,
    List.find?_cons]
  cases hb : bottom.provisional with
  | true => exact hbottom
  | false =>
      cases habove : above.reverse with
      | nil =>
          rw [List.reverse_eq_nil_iff] at habove
          simp [hnil habove]
      | cons second rest =>
          have hsecond : above.getLast? = some second := by
            rw [List.getLast?_eq_head?_reverse, habove]
            rfl
          have hmem : second ∈ r.entries.dropLast := by
            rw [hentries, List.dropLast_concat]
            exact List.mem_of_getLast? hsecond
          rw [List.find?_cons, hprovisional second hmem]
          exact hlast second hsecond

end Record
end BoundedLR
