import BoundedLR.Proofs.Operations

/-!
# Where a run breaks off

A run breaks off if one of the reads of a move fails.  This module says which
reads a move makes, and that a run which does not run out of moves breaks off at
the first configuration whose move does.

The reads of a reduction are special: the node is given an index that has been
found elsewhere, in a level.  `HandsOver` says that a run gives a node an index,
and `Session.HandsOver` says so of all the runs that operations on a session set
off: the one at the beginning, those that try a token out, and those that record
it.
-/

namespace BoundedLR
namespace Machine

variable {σ Node Level : Type} [StateStack σ Node] {t : ParseTable Node Level}
  {c c' : Configuration σ Level} {top : Node} {action : Action Node Level} {e : Fault}

/-! ## One move -/

/-- Which read fails when an action is carried out. -/
inductive Breaks (t : ParseTable Node Level) (c : Configuration σ Level) (top : Node)
    (e : Fault) : Action Node Level → Prop where
  | shift {target : Node} {predict : Bool} :
      t.root target = .error e → Breaks t c top e (.shift target predict)
  | property {index : Nat} :
      t.property top index = .error e → Breaks t c top e (.reduce index)
  | landing {index : Nat} {property : ReductionProperty} {last : Node} :
      t.property top index = .ok property → StateStack.peek c.stack property.count = some last →
      t.landing top index last = .error e → Breaks t c top e (.reduce index)
  | root {index : Nat} {property : ReductionProperty} {last : Node} {landing : Landing Node} :
      t.property top index = .ok property → StateStack.peek c.stack property.count = some last →
      t.landing top index last = .ok (some landing) → t.root landing.target = .error e →
      Breaks t c top e (.reduce index)

theorem breaks_of_perform (h : perform t c top action = .error e) : Breaks t c top e action := by
  cases action with
  | descend level => cases h
  | shift target predict =>
      rw [perform] at h
      split at h
      · cases h
      · rcases bind_eq_error.1 h with hroot | ⟨root, -, h⟩
        · exact .shift hroot
        · cases h
  | reduce index =>
      rcases bind_eq_error.1 h with hproperty | ⟨property, hproperty, h⟩
      · exact .property hproperty
      split at h
      · cases h
      · split at h
        · cases h
        · rename_i last hlast
          rcases bind_eq_error.1 h with hlanding | ⟨landing, hlanding, h⟩
          · exact .landing hproperty hlast hlanding
          cases landing with
          | none => cases h
          | some landing =>
              rcases bind_eq_error.1 h with hroot | ⟨root, -, h⟩
              · exact .root hproperty hlast hlanding hroot
              · cases h

theorem breaks_of_resume (hal : c.cursor.depth = 0 → t.always top = .ok none)
    (h : resume t c top none = .error e) :
    (∃ token : Token, t.find top c.cursor.level token.symbol = .error e) ∨
      ∃ action, Consults t c top action ∧ Breaks t c top e action := by
  rw [resume] at h
  split at h
  · cases h
  · rename_i token hb
    rcases bind_eq_error.1 h with hfind | ⟨found, hfound, h⟩
    · exact .inl ⟨token, hfind⟩
    cases found with
    | none => cases h
    | some action => exact .inr ⟨action, .found hal hb hfound, breaks_of_perform h⟩

/-- **A move fails** if the stack is empty, if the topmost node or its level cannot be
read, or if the action that is due breaks off. -/
theorem step_eq_error (h : step t c = .error e) :
    StateStack.isAccepted c.stack = false ∧ (StateStack.peek c.stack 0 = none ∨
      ∃ top, StateStack.peek c.stack 0 = some top ∧ (t.always top = .error e ∨
        (∃ token : Token, t.find top c.cursor.level token.symbol = .error e) ∨
        ∃ action, Consults t c top action ∧ Breaks t c top e action)) := by
  have ha : StateStack.isAccepted c.stack = false := by
    refine Bool.eq_false_iff.2 fun ha => ?_
    rw [step_of_accepted ha] at h
    cases h
  refine ⟨ha, ?_⟩
  cases htop : StateStack.peek c.stack 0 with
  | none => exact .inl rfl
  | some top =>
  refine .inr ⟨top, rfl, ?_⟩
  rw [step_eq_resume ha htop] at h
  by_cases hd : c.cursor.depth = 0
  · rw [if_pos hd] at h
    rcases bind_eq_error.1 h with halways | ⟨always, halways, h⟩
    · exact .inl halways
    cases always with
    | some index => exact .inr (.inr ⟨_, .always hd halways, breaks_of_perform h⟩)
    | none => exact .inr (breaks_of_resume (fun _ => halways) h)
  · rw [if_neg hd] at h
    exact .inr (breaks_of_resume (fun hd' => absurd hd' hd) h)

/-! ## Runs -/

/-- The configurations that a run comes to while it has moves left. -/
inductive Visits (t : ParseTable Node Level) :
    Nat → Configuration σ Level → Configuration σ Level → Prop where
  | here {moves : Nat} {c : Configuration σ Level} : Visits t (moves + 1) c c
  | later {moves : Nat} {c next c' : Configuration σ Level} :
      step t c = .ok (.moved next) → Visits t moves next c' → Visits t (moves + 1) c c'

theorem Visits.keeps {P : Configuration σ Level → Prop}
    (hstep : ∀ c c', P c → step t c = .ok (.moved c') → P c') {moves : Nat}
    (h : Visits t moves c c') (hc : P c) : P c' := by
  induction h with
  | here => exact hc
  | later hs _ ih => exact ih (hstep _ _ hc hs)

/-- **A run breaks off** where one of its moves does, unless it just runs out of
moves. -/
theorem run_eq_error (he : e ≠ .outOfFuel) {moves : Nat} :
    run t moves c = .error e ↔ ∃ c', Visits t moves c c' ∧ step t c' = .error e := by
  constructor
  · intro h
    induction moves generalizing c with
    | zero =>
        cases h
        exact absurd rfl he
    | succ moves ih =>
        rcases bind_eq_error.1 h with hs | ⟨r, hs, h⟩
        · exact ⟨c, .here, hs⟩
        cases r with
        | moved next =>
            obtain ⟨c', hv, hs'⟩ := ih h
            exact ⟨c', .later hs hv, hs'⟩
        | waiting => cases h
        | stalled why => cases h
  · rintro ⟨c', hv, hs'⟩
    induction hv with
    | here => exact bind_eq_error.2 (.inl hs')
    | later hs _ ih =>
        rw [run_of_moved hs]
        exact ih hs'

/-- A run from the configuration gives the node the index of a reduction. -/
def HandsOver (t : ParseTable Node Level) (moves : Nat) (c : Configuration σ Level) (n : Node)
    (index : Nat) : Prop :=
  ∃ c', Visits t moves c c' ∧ StateStack.isAccepted c'.stack = false ∧
    StateStack.peek c'.stack 0 = some n ∧ Consults t c' n (.reduce index)

/-- If the node cannot tell what the reduction is, the run breaks off. -/
theorem run_eq_error_of_handsOver (he : e ≠ .outOfFuel) {moves : Nat} {n : Node} {index : Nat}
    (h : HandsOver t moves c n index) (hp : t.property n index = .error e) :
    run t moves c = .error e := by
  obtain ⟨c', hv, ha, htop, hconsults⟩ := h
  refine (run_eq_error he).2 ⟨c', hv, ?_⟩
  rw [step_of_consults ha htop hconsults]
  exact bind_eq_error.2 (.inl hp)

end Machine

/-! ## Sessions -/

namespace Session

variable {Node Level : Type}

/-- Operations on a session give a node the index of a reduction. -/
inductive HandsOver (t : ParseTable Node Level) (moves : Nat) (n : Node) (index : Nat) : Prop where
  | starting {root : Level} : t.root t.startup = .ok root →
      Machine.HandsOver t moves ⟨Record.start t.startup, [], ⟨root, 0⟩⟩ n index →
      HandsOver t moves n index
  | trying {s : Session Node Level} {symbol : Symbol} : Reachable t moves s →
      Machine.HandsOver t moves (withToken (dryRun s.configuration) ⟨symbol, s.next⟩) n index →
      HandsOver t moves n index
  | taking {s : Session Node Level} {symbol : Symbol} {token : Nat} : Reachable t moves s →
      s.wouldAccept t moves symbol = .ok true →
      Machine.HandsOver t moves (withToken s.configuration ⟨symbol, token⟩) n index →
      HandsOver t moves n index

variable {t : ParseTable Node Level} {moves : Nat} {n : Node} {index : Nat} {e : Fault}

/-- **Some operations break off** if one of their runs gives a node an index that it
knows nothing of. -/
theorem exists_transcript_eq_error_of_handsOver (he : e ≠ .outOfFuel)
    (h : HandsOver t moves n index) (hp : t.property n index = .error e) :
    ∃ operations, transcript t moves operations = .error e := by
  refine exists_transcript_eq_error.2 ?_
  cases h with
  | starting hroot hrun =>
      have hfails := Machine.run_eq_error_of_handsOver he hrun hp
      exact .inl (bind_eq_error.2 (.inr ⟨_, hroot, bind_eq_error.2 (.inl hfails)⟩))
  | @trying s symbol hs hrun =>
      have hfails := Machine.run_eq_error_of_handsOver he hrun hp
      refine .inr ⟨s, .consume symbol 0, hs, bind_eq_error.2 (.inl ?_)⟩
      exact bind_eq_error.2 (.inl (bind_eq_error.2 (.inl hfails)))
  | @taking s symbol token hs hwould hrun =>
      have hfails := Machine.run_eq_error_of_handsOver he hrun hp
      refine .inr ⟨s, .consume symbol token, hs, bind_eq_error.2 (.inl ?_)⟩
      refine bind_eq_error.2 (.inr ⟨true, hwould, ?_⟩)
      exact bind_eq_error.2 (.inl hfails)

end Session
end BoundedLR
