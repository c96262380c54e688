import BoundedLR.Proofs.AlikeReads
import BoundedLR.Proofs.LawfulStacks
import BoundedLR.Proofs.MachineMoves

/-!
# Two machines in lockstep

A table is asked about nodes, levels and symbols, and about nothing else.  So it
cannot tell two configurations apart whose stacks show the same nodes, whose
cursors agree and whose buffers hold the same symbols, whatever else the two stacks
keep and whichever indices the tokens have.  Such configurations are *in step*.

One move of the first is then matched by one move of the second: both machines do
the same thing, and what they come to is in step again (`step_together`).  So a run
of the one is a run of the other (`run_together`).  That says nothing yet about what
the stacks keep besides nodes.  A caller who wants to know more about them states it
as a relation between the two configurations, and shows that it is kept by two moves
that carry out the same action.
-/

namespace BoundedLR

/-- Two computations that begin with the same read come out alike if they do so
behind it. -/
theorem Alike.bind_read {α β γ : Type} {S : β → γ → Prop} {x : Read α} {f : α → Read β}
    {g : α → Read γ} (h : ∀ a, x = .ok a → Alike (fun _ => True) S (f a) (g a)) :
    Alike (fun _ => True) S (x >>= f) (x >>= g) := by
  cases x with
  | ok a => exact h a rfl
  | error e => exact .fault trivial

namespace Machine

variable {σ σ' Node Level : Type} [StateStack σ Node] [StateStack σ' Node]
  {t : ParseTable Node Level} {c d : Configuration σ Level} {c' d' : Configuration σ' Level}
  {top : Node} {action : Action Node Level}

/-- No table can tell the two configurations apart. -/
structure InStep (c : Configuration σ Level) (c' : Configuration σ' Level) : Prop where
  peek : ∀ n, StateStack.peek c.stack n = StateStack.peek c'.stack n
  isAccepted : StateStack.isAccepted c.stack = StateStack.isAccepted c'.stack
  symbols : c.buffer.map (·.symbol) = c'.buffer.map (·.symbol)
  cursor : c.cursor = c'.cursor

namespace InStep

theorem symm (h : InStep c c') : InStep c' c :=
  ⟨fun n => (h.peek n).symm, h.isAccepted.symm, h.symbols.symm, h.cursor.symm⟩

theorem trans {σ'' : Type} [StateStack σ'' Node] {c'' : Configuration σ'' Level} (h : InStep c c')
    (h' : InStep c' c'') : InStep c c'' :=
  ⟨fun n => (h.peek n).trans (h'.peek n), h.isAccepted.trans h'.isAccepted,
    h.symbols.trans h'.symbols, h.cursor.trans h'.cursor⟩

theorem getElem?_buffer (h : InStep c c') (n : Nat) :
    (c.buffer[n]?).map (·.symbol) = (c'.buffer[n]?).map (·.symbol) := by
  rw [← List.getElem?_map, h.symbols, List.getElem?_map]

theorem isEmpty_buffer (h : InStep c c') : c.buffer.isEmpty = c'.buffer.isEmpty := by
  rw [← List.isEmpty_map (f := fun token : Token => token.symbol), h.symbols, List.isEmpty_map]

/-- The same action is due in both configurations. -/
theorem consults (h : InStep c c') (hconsults : Consults t c top action) :
    Consults t c' top action := by
  cases hconsults with
  | always hd hal => exact .always (h.cursor ▸ hd) hal
  | @found token _ hal hb hf =>
      have hsymbol := h.getElem?_buffer c.cursor.depth
      rw [hb, Option.map_some, eq_comm, Option.map_eq_some_iff] at hsymbol
      obtain ⟨token', hb', hs⟩ := hsymbol
      rw [h.cursor] at hal hb' hf
      exact .found hal hb' (hs ▸ hf)

section Lawful

variable [LawfulStack σ Node] [LawfulStack σ' Node]

theorem shift (h : InStep c c') (token token' : Token) (landing : Landing Node)
    {rest rest' : List Token} (hrest : rest.map (·.symbol) = rest'.map (·.symbol)) (root : Level) :
    InStep (⟨StateStack.shift c.stack token landing, rest, ⟨root, 0⟩⟩ : Configuration σ Level)
      (⟨StateStack.shift c'.stack token' landing, rest', ⟨root, 0⟩⟩ : Configuration σ' Level) where
  peek n := by
    cases n with
    | zero => rw [LawfulStack.peek_shift_zero, LawfulStack.peek_shift_zero]
    | succ n => rw [LawfulStack.peek_shift_succ, LawfulStack.peek_shift_succ, h.peek]
  isAccepted := by
    rw [LawfulStack.isAccepted_shift, LawfulStack.isAccepted_shift, h.isAccepted]
  symbols := hrest
  cursor := rfl

theorem reduce (h : InStep c c') (q : ReductionProperty) (landing : Landing Node) (root : Level) :
    InStep (⟨StateStack.reduce c.stack q landing, c.buffer, ⟨root, 0⟩⟩ : Configuration σ Level)
      (⟨StateStack.reduce c'.stack q landing, c'.buffer, ⟨root, 0⟩⟩ : Configuration σ' Level) where
  peek n := by
    cases n with
    | zero => rw [LawfulStack.peek_reduce_zero, LawfulStack.peek_reduce_zero]
    | succ n => rw [LawfulStack.peek_reduce_succ, LawfulStack.peek_reduce_succ, h.peek]
  isAccepted := by
    rw [LawfulStack.isAccepted_reduce, LawfulStack.isAccepted_reduce, h.isAccepted]
  symbols := h.symbols
  cursor := rfl

theorem accept (h : InStep c c') :
    InStep { c with stack := StateStack.accept c.stack }
      { c' with stack := StateStack.accept c'.stack } where
  peek n := by rw [LawfulStack.peek_accept, LawfulStack.peek_accept, h.peek]
  isAccepted := by rw [LawfulStack.isAccepted_accept, LawfulStack.isAccepted_accept]
  symbols := h.symbols
  cursor := h.cursor

end Lawful

end InStep

/-! ## One move -/

/-- The same comes of a move in both configurations. -/
inductive Together (t : ParseTable Node Level) (c : Configuration σ Level)
    (c' : Configuration σ' Level) : Progress σ Level → Progress σ' Level → Prop where
  | moved {top : Node} {action : Action Node Level} {d : Configuration σ Level}
      {d' : Configuration σ' Level} :
      StateStack.peek c.stack 0 = some top → Consults t c top action →
      Moves t c top action d → Moves t c' top action d' → InStep d d' →
      Together t c c' (.moved d) (.moved d')
  | waiting : Together t c c' .waiting .waiting
  | stalled {why : Stall} : Together t c c' (.stalled why) (.stalled why)

variable [LawfulStack σ Node] [LawfulStack σ' Node]

/-- The action that is due is carried out in the same way. -/
theorem perform_together (h : InStep c c') (htop : StateStack.peek c.stack 0 = some top)
    (hconsults : Consults t c top action) :
    Alike (fun _ => True) (Together t c c') (perform t c top action) (perform t c' top action) := by
  cases action with
  | descend level =>
      refine .ok (.moved htop hconsults .descend .descend ?_)
      exact ⟨h.peek, h.isAccepted, h.symbols, by rw [h.cursor]⟩
  | shift target predict =>
      rw [perform, perform]
      have hsymbols := h.symbols
      cases hb : c.buffer with
      | nil =>
          rw [hb, List.map_nil, eq_comm, List.map_eq_nil_iff] at hsymbols
          rw [hsymbols]
          exact .ok .stalled
      | cons token rest =>
          rw [hb, List.map_cons, eq_comm, List.map_eq_cons_iff] at hsymbols
          obtain ⟨token', rest', hb', -, hrest⟩ := hsymbols
          rw [hb']
          refine .bind_read fun root hroot => .ok ?_
          exact .moved htop hconsults (.shift hb hroot) (.shift hb' hroot)
            (h.shift token token' _ hrest.symm root)
  | reduce index =>
      refine .bind_read fun q hq => ?_
      by_cases hacc : q.accepts = true
      · rw [if_pos hacc, if_pos hacc]
        exact .ok (.moved htop hconsults (.accept hq hacc) (.accept hq hacc) h.accept)
      · rw [if_neg hacc, if_neg hacc, ← h.peek q.count]
        cases hlast : StateStack.peek c.stack q.count with
        | none => exact .ok .stalled
        | some last =>
            refine .bind_read fun found hfound => ?_
            cases found with
            | none => exact .ok .stalled
            | some landing =>
                have hacc := Bool.eq_false_iff.2 hacc
                refine .bind_read fun root hroot => .ok ?_
                exact .moved htop hconsults (.reduce hq hacc hlast hfound hroot)
                  (.reduce hq hacc ((h.peek q.count).symm.trans hlast) hfound hroot)
                  (h.reduce q landing root)

theorem resume_together (h : InStep c c') (htop : StateStack.peek c.stack 0 = some top)
    (hal : c.cursor.depth = 0 → t.always top = .ok none) :
    Alike (fun _ => True) (Together t c c') (resume t c top none) (resume t c' top none) := by
  have hsymbol := h.getElem?_buffer c.cursor.depth
  rw [resume, resume, ← h.cursor]
  cases hb : c.buffer[c.cursor.depth]? with
  | none =>
      rw [hb, Option.map_none, eq_comm, Option.map_eq_none_iff] at hsymbol
      rw [hsymbol]
      exact .ok .waiting
  | some token =>
      rw [hb, Option.map_some, eq_comm, Option.map_eq_some_iff] at hsymbol
      obtain ⟨token', hb', hs⟩ := hsymbol
      rw [hb']
      dsimp only
      rw [hs]
      refine .bind_read fun found hfound => ?_
      cases found with
      | none => exact .ok .stalled
      | some action => exact perform_together h htop (.found hal hb hfound)

/-- **One move** is matched by one move, which carries out the same action. -/
theorem step_together (h : InStep c c') (t : ParseTable Node Level) :
    Alike (fun _ => True) (Together t c c') (step t c) (step t c') := by
  cases ha : StateStack.isAccepted c.stack with
  | true =>
      rw [step_of_accepted ha, step_of_accepted (h.isAccepted.symm.trans ha), h.isEmpty_buffer]
      cases c'.buffer.isEmpty with
      | true => exact .ok .waiting
      | false => exact .ok .stalled
  | false =>
      have ha' := h.isAccepted.symm.trans ha
      cases htop : StateStack.peek c.stack 0 with
      | none =>
          have htop' := (h.peek 0).symm.trans htop
          rw [step, step, if_neg (by rw [ha]; exact Bool.false_ne_true),
            if_neg (by rw [ha']; exact Bool.false_ne_true), htop, htop']
          exact .fault trivial
      | some top =>
          rw [step_eq_resume ha htop, step_eq_resume ha' ((h.peek 0).symm.trans htop), ← h.cursor]
          refine .bind_read fun always halways => ?_
          cases always with
          | none =>
              refine resume_together h htop fun hd => ?_
              rw [if_pos hd] at halways
              exact halways
          | some index =>
              by_cases hd : c.cursor.depth = 0
              · rw [if_pos hd] at halways
                exact perform_together h htop (.always hd halways)
              · rw [if_neg hd] at halways
                cases halways

/-! ## Runs -/

/-- **A whole run** is matched by a run.  A relation that holds at the beginning holds
at the end, if it is kept by two moves that carry out the same action. -/
theorem run_together {K : Configuration σ Level → Configuration σ' Level → Prop}
    (hK : ∀ {c c' top action d d'}, InStep c c' → K c c' → StateStack.peek c.stack 0 = some top →
      Consults t c top action → Moves t c top action d → Moves t c' top action d' → K d d')
    (h : InStep c c') (hc : K c c') (moves : Nat) :
    Alike (fun _ => True) (fun x y => (InStep x.1 y.1 ∧ K x.1 y.1) ∧ x.2 = y.2)
      (run t moves c) (run t moves c') := by
  induction moves generalizing c c' with
  | zero => exact .fault trivial
  | succ moves ih =>
      refine (step_together h t).bind fun r r' hr => ?_
      cases hr with
      | moved htop hconsults hmoves hmoves' hnext =>
          exact ih hnext (hK h hc htop hconsults hmoves hmoves')
      | waiting => exact .ok ⟨⟨h, hc⟩, rfl⟩
      | stalled => exact .ok ⟨⟨h, hc⟩, rfl⟩

end Machine
end BoundedLR
