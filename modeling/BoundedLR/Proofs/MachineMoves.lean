import BoundedLR.Machine
import BoundedLR.Proofs.Sequencing

/-!
# What one move of the machine does

A move first finds out which action is due: the reduction that the topmost node
performs without looking at the input, or what the trie says about the token
under the cursor.  `Consults` is this first half of a move, and `Machine.perform`
is the second.  Apart from that the machine only waits, or rejects the token.

A run is a sequence of moves.  Whatever every move keeps, the run keeps
(`run_keeps`), and giving a run more moves than it needs changes nothing
(`run_mono`).
-/

namespace BoundedLR
namespace Machine

variable {σ Node Level : Type} [StateStack σ Node] {t : ParseTable Node Level}
  {c c' : Configuration σ Level} {top : Node} {action : Action Node Level}

/-- The action that the topmost node demands. -/
inductive Consults (t : ParseTable Node Level) (c : Configuration σ Level) (top : Node) :
    Action Node Level → Prop where
  | always {index : Nat} :
      c.cursor.depth = 0 → t.always top = .ok (some index) → Consults t c top (.reduce index)
  | found {token : Token} {action : Action Node Level} :
      (c.cursor.depth = 0 → t.always top = .ok none) →
      c.buffer[c.cursor.depth]? = some token →
      t.find top c.cursor.level token.symbol = .ok (some action) → Consults t c top action

/-! ## One move -/

/-- What the machine does once it knows whether the topmost node reduces without
looking at the input. -/
def resume (t : ParseTable Node Level) (c : Configuration σ Level) (top : Node) :
    Option Nat → Read (Progress σ Level)
  | some index => perform t c top (.reduce index)
  | none =>
    match c.buffer[c.cursor.depth]? with
    | none => return .waiting
    | some token => do
      match ← t.find top c.cursor.level token.symbol with
      | none => return .stalled (.rejected c.cursor.depth)
      | some action => perform t c top action

theorem step_eq_resume (ha : StateStack.isAccepted c.stack = false)
    (ht : StateStack.peek c.stack 0 = some top) :
    step t c = (if c.cursor.depth = 0 then t.always top else .ok none) >>= resume t c top := by
  rw [step, if_neg (by rw [ha]; exact Bool.false_ne_true), ht]
  by_cases hd : c.cursor.depth = 0
  · simp only [Read.ofOption, ok_bind, if_pos hd]
    rfl
  · simp only [Read.ofOption, ok_bind, if_neg hd]
    rfl

omit [StateStack σ Node] in
theorem always_eq (h : c.cursor.depth = 0 → t.always top = .ok none) :
    (if c.cursor.depth = 0 then t.always top else .ok none) = .ok none := by
  split
  · rename_i hd
    exact h hd
  · rfl

theorem step_of_accepted (h : StateStack.isAccepted c.stack = true) :
    step t c = .ok (if c.buffer.isEmpty then .waiting else .stalled .afterAcceptance) := by
  rw [step, if_pos h]

/-- The machine carries out the action that is due. -/
theorem step_of_consults (ha : StateStack.isAccepted c.stack = false)
    (ht : StateStack.peek c.stack 0 = some top) (h : Consults t c top action) :
    step t c = perform t c top action := by
  rw [step_eq_resume ha ht]
  cases h with
  | always hd hal =>
      rw [if_pos hd, hal]
      rfl
  | found hal hb hf =>
      rw [always_eq hal, ok_bind, resume, hb]
      simp only [hf, ok_bind]

/-- The machine waits if there is no token under the cursor. -/
theorem step_of_waits (ha : StateStack.isAccepted c.stack = false)
    (ht : StateStack.peek c.stack 0 = some top)
    (hal : c.cursor.depth = 0 → t.always top = .ok none)
    (hb : c.buffer[c.cursor.depth]? = none) : step t c = .ok .waiting := by
  rw [step_eq_resume ha ht, always_eq hal, ok_bind, resume, hb]
  rfl

/-- What comes of a move, if it does not break off. -/
theorem step_cases {r : Progress σ Level} (h : step t c = .ok r)
    (ha : StateStack.isAccepted c.stack = false) :
    ∃ top, StateStack.peek c.stack 0 = some top ∧
      ((∃ action, Consults t c top action ∧ perform t c top action = .ok r) ∨
        (r = .waiting ∧ c.buffer[c.cursor.depth]? = none) ∨
        ∃ token, c.buffer[c.cursor.depth]? = some token ∧
          t.find top c.cursor.level token.symbol = .ok none ∧
          r = .stalled (.rejected c.cursor.depth)) := by
  cases htop : StateStack.peek c.stack 0 with
  | none =>
      rw [step, if_neg (by rw [ha]; exact Bool.false_ne_true), htop] at h
      cases h
  | some top =>
  rw [step_eq_resume ha htop] at h
  obtain ⟨always, halways, h⟩ := bind_eq_ok.1 h
  refine ⟨top, rfl, ?_⟩
  cases always with
  | some index =>
      have hd : c.cursor.depth = 0 := by
        by_contra hd
        rw [if_neg hd] at halways
        cases halways
      rw [if_pos hd] at halways
      exact .inl ⟨.reduce index, .always hd halways, h⟩
  | none =>
      have hal : c.cursor.depth = 0 → t.always top = .ok none := by
        intro hd
        rw [if_pos hd] at halways
        exact halways
      cases hb : c.buffer[c.cursor.depth]? with
      | none =>
          rw [resume, hb] at h
          exact .inr (.inl ⟨(Except.ok.inj h).symm, rfl⟩)
      | some token =>
          rw [resume, hb] at h
          obtain ⟨found, hfound, h⟩ := bind_eq_ok.1 h
          cases found with
          | none => exact .inr (.inr ⟨token, rfl, hfound, (Except.ok.inj h).symm⟩)
          | some action => exact .inl ⟨action, .found hal hb hfound, h⟩

/-- What a move leads to. -/
inductive Moves (t : ParseTable Node Level) (c : Configuration σ Level) (top : Node) :
    Action Node Level → Configuration σ Level → Prop where
  | descend {level : Level} :
      Moves t c top (.descend level) { c with cursor := ⟨level, c.cursor.depth + 1⟩ }
  | shift {target : Node} {predict : Bool} {token : Token} {rest : List Token} {root : Level} :
      c.buffer = token :: rest → t.root target = .ok root →
      Moves t c top (.shift target predict)
        ⟨StateStack.shift c.stack token ⟨target, predict⟩, rest, ⟨root, 0⟩⟩
  | accept {index : Nat} {property : ReductionProperty} :
      t.property top index = .ok property → property.accepts = true →
      Moves t c top (.reduce index) { c with stack := StateStack.accept c.stack }
  | reduce {index : Nat} {property : ReductionProperty} {last : Node} {landing : Landing Node}
      {root : Level} :
      t.property top index = .ok property → property.accepts = false →
      StateStack.peek c.stack property.count = some last →
      t.landing top index last = .ok (some landing) → t.root landing.target = .ok root →
      Moves t c top (.reduce index)
        ⟨StateStack.reduce c.stack property landing, c.buffer, ⟨root, 0⟩⟩

/-- An action is carried out in one of four ways. -/
theorem perform_eq_moved : perform t c top action = .ok (.moved c') ↔ Moves t c top action c' := by
  constructor
  · intro h
    cases action with
    | descend level =>
        cases Except.ok.inj h
        exact .descend
    | shift target predict =>
        rw [perform] at h
        split at h
        · cases h
        · rename_i token rest hb
          obtain ⟨root, hroot, h⟩ := bind_eq_ok.1 h
          cases Except.ok.inj h
          exact .shift hb hroot
    | reduce index =>
        rw [perform] at h
        obtain ⟨property, hproperty, h⟩ := bind_eq_ok.1 h
        split at h
        · rename_i hacc
          cases Except.ok.inj h
          exact .accept hproperty hacc
        · rename_i hacc
          split at h
          · cases h
          · rename_i last hlast
            obtain ⟨landing, hlanding, h⟩ := bind_eq_ok.1 h
            cases landing with
            | none => cases h
            | some landing =>
                obtain ⟨root, hroot, h⟩ := bind_eq_ok.1 h
                cases Except.ok.inj h
                exact .reduce hproperty (Bool.eq_false_iff.2 hacc) hlast hlanding hroot
  · intro h
    cases h with
    | descend => rfl
    | shift hb hroot =>
        rw [perform, hb]
        simp only [hroot, ok_bind]
        rfl
    | accept hproperty hacc =>
        rw [perform, hproperty, ok_bind, if_pos hacc]
        rfl
    | reduce hproperty hacc hlast hlanding hroot =>
        rw [perform, hproperty, ok_bind, if_neg (by rw [hacc]; exact Bool.false_ne_true), hlast]
        simp only [hlanding, ok_bind, hroot]
        rfl

/-- **A move** finds out which action is due and carries it out. -/
theorem step_eq_moved : step t c = .ok (.moved c') ↔
    StateStack.isAccepted c.stack = false ∧ ∃ top action,
      StateStack.peek c.stack 0 = some top ∧ Consults t c top action ∧ Moves t c top action c' := by
  constructor
  · intro h
    have ha : StateStack.isAccepted c.stack = false := by
      refine Bool.eq_false_iff.2 fun ha => ?_
      rw [step_of_accepted ha] at h
      split at h <;> cases h
    obtain ⟨top, htop, hcases⟩ := step_cases h ha
    rcases hcases with ⟨action, hc, hp⟩ | ⟨hw, -⟩ | ⟨token, -, -, hr⟩
    · exact ⟨ha, top, action, htop, hc, perform_eq_moved.1 hp⟩
    · cases hw
    · cases hr
  · rintro ⟨ha, top, action, htop, hc, hm⟩
    rw [step_of_consults ha htop hc]
    exact perform_eq_moved.2 hm

/-! ## Runs -/

theorem run_of_moved {moves : Nat} (h : step t c = .ok (.moved c')) :
    run t (moves + 1) c = run t moves c' := by
  rw [run, h]
  rfl

theorem run_of_waiting {moves : Nat} (h : step t c = .ok .waiting) :
    run t (moves + 1) c = .ok (c, none) := by
  rw [run, h]
  rfl

theorem run_of_stalled {moves : Nat} {why : Stall} (h : step t c = .ok (.stalled why)) :
    run t (moves + 1) c = .ok (c, some why) := by
  rw [run, h]
  rfl

/-- How a run comes to its end. -/
inductive Ends (t : ParseTable Node Level) (c : Configuration σ Level) : Option Stall → Prop where
  | waiting : step t c = .ok .waiting → Ends t c none
  | stalled {why : Stall} : step t c = .ok (.stalled why) → Ends t c (some why)

/-- **What every move keeps, a run keeps**, and it ends where the machine waits or
stalls. -/
theorem run_keeps {P : Configuration σ Level → Prop}
    (hstep : ∀ c c', P c → step t c = .ok (.moved c') → P c') {moves : Nat} {stall : Option Stall}
    (hc : P c) (h : run t moves c = .ok (c', stall)) : P c' ∧ Ends t c' stall := by
  induction moves generalizing c with
  | zero => cases h
  | succ moves ih =>
      cases hs : step t c with
      | error e =>
          rw [run, hs] at h
          cases h
      | ok r =>
          cases r with
          | moved next =>
              rw [run_of_moved hs] at h
              exact ih (hstep c next hc hs) h
          | waiting =>
              rw [run_of_waiting hs] at h
              cases h
              exact ⟨hc, .waiting hs⟩
          | stalled why =>
              rw [run_of_stalled hs] at h
              cases h
              exact ⟨hc, .stalled hs⟩

/-- More moves than are needed change nothing. -/
theorem run_mono {moves moves' : Nat} (hle : moves ≤ moves')
    {r : Configuration σ Level × Option Stall} (h : run t moves c = .ok r) :
    run t moves' c = .ok r := by
  induction moves generalizing c moves' with
  | zero => cases h
  | succ moves ih =>
      obtain ⟨more, rfl⟩ : ∃ more, moves' = more + 1 :=
        ⟨moves' - 1, by omega⟩
      have hle : moves ≤ more := Nat.le_of_succ_le_succ hle
      cases hs : step t c with
      | error e =>
          rw [run, hs] at h
          cases h
      | ok r' =>
          cases r' with
          | moved next =>
              rw [run_of_moved hs] at h ⊢
              exact ih hle h
          | waiting =>
              rw [run_of_waiting hs] at h ⊢
              exact h
          | stalled why =>
              rw [run_of_stalled hs] at h ⊢
              exact h

end Machine
end BoundedLR
