import BoundedLR.Proofs.AlikeReads
import BoundedLR.Proofs.LawfulStacks
import BoundedLR.Proofs.MachineMoves

/-!
# Running on tables that correspond

Two tables may describe the same parser in different terms.  A `Correspondence`
says which nodes of the two tables belong together, which levels of such nodes,
and which reductions.  The tables *respect* it if every read, asked about things
that belong together, comes out alike on both of them.

Then the machine does the same on both.  Configurations are alike if their stacks
are, if their cursors stand at levels that belong together and if they have the
same tokens in front of them, and one move keeps this (`step_alike`), so a run does
(`run_alike`).

What a stack is made of is left open here as well.  It may even be a record on the
one side and a dry run on the other.
-/

namespace BoundedLR

/-- Which nodes, levels and reductions of two tables belong together.  Levels and
reductions are those of nodes that do. -/
structure Correspondence (Node Level Node' Level' : Type) where
  node : Node → Node' → Prop
  level : Node → Node' → Level → Level' → Prop
  reduction : Node → Node' → Nat → Prop

namespace Correspondence

variable {Node Level Node' Level' : Type} {F : Fault → Prop}
  {R : Correspondence Node Level Node' Level'}

/-- Actions of two nodes that belong together. -/
inductive ActionsAlike (R : Correspondence Node Level Node' Level') (n : Node) (n' : Node') :
    Action Node Level → Action Node' Level' → Prop where
  | descend {l : Level} {l' : Level'} : R.level n n' l l' →
      ActionsAlike R n n' (.descend l) (.descend l')
  | shift {m : Node} {m' : Node'} {predict : Bool} : R.node m m' →
      ActionsAlike R n n' (.shift m predict) (.shift m' predict)
  | reduce {index : Nat} : R.reduction n n' index →
      ActionsAlike R n n' (.reduce index) (.reduce index)

/-- Landings that belong together. -/
def LandingsAlike (R : Correspondence Node Level Node' Level') (a : Landing Node)
    (b : Landing Node') : Prop :=
  R.node a.target b.target ∧ a.predict = b.predict

/-- The reads of two tables come out alike when they are asked about things that
belong together.  A fault that the reads may fail with is one of `F`. -/
structure Respected (F : Fault → Prop) (R : Correspondence Node Level Node' Level')
    (t : ParseTable Node Level) (t' : ParseTable Node' Level') : Prop where
  outOfFuel : F .outOfFuel
  startup : R.node t.startup t'.startup
  root : ∀ {n n'}, R.node n n' → Alike F (R.level n n') (t.root n) (t'.root n')
  always : ∀ {n n'}, R.node n n' →
    Alike F (fun a b => a = b ∧ ∀ index, a = some index → R.reduction n n' index)
      (t.always n) (t'.always n')
  find : ∀ {n n' l l'} (s : Symbol), R.node n n' → R.level n n' l l' →
    Alike F (Option.Rel (R.ActionsAlike n n')) (t.find n l s) (t'.find n' l' s)
  symbols : ∀ {n n' l l'}, R.node n n' → R.level n n' l l' →
    Alike F (fun xs ys => xs.Perm ys ∧ (F .outOfBounds → xs = ys)) (t.symbols n l)
      (t'.symbols n' l')
  property : ∀ {n n' index}, R.node n n' → R.reduction n n' index →
    Alike F Eq (t.property n index) (t'.property n' index)
  landing : ∀ {n n' m m' index}, R.node n n' → R.reduction n n' index → R.node m m' →
    Alike F (Option.Rel R.LandingsAlike) (t.landing n index m) (t'.landing n' index m')

/-- Two kinds of stack whose operations keep a relation between them. -/
structure StacksRelated {σ σ' : Type} [StateStack σ Node] [StateStack σ' Node']
    (R : Correspondence Node Level Node' Level') (K : σ → σ' → Prop) : Prop where
  peek : ∀ {s s'}, K s s' → ∀ k, Option.Rel R.node (StateStack.peek s k) (StateStack.peek s' k)
  isAccepted : ∀ {s s'}, K s s' → StateStack.isAccepted s = StateStack.isAccepted s'
  shift : ∀ {s s' landing landing'} (token : Token), K s s' → R.LandingsAlike landing landing' →
    K (StateStack.shift s token landing) (StateStack.shift s' token landing')
  reduce : ∀ {s s' landing landing'} (q : ReductionProperty), K s s' →
    R.LandingsAlike landing landing' →
    K (StateStack.reduce s q landing) (StateStack.reduce s' q landing')
  accept : ∀ {s s'}, K s s' → K (StateStack.accept s) (StateStack.accept s')

section Machine

variable {σ σ' : Type} [StateStack σ Node] [StateStack σ' Node'] {K : σ → σ' → Prop}
  {t : ParseTable Node Level} {t' : ParseTable Node' Level'}
  {c : Configuration σ Level} {c' : Configuration σ' Level'}

/-- The machine has come to the same place on both tables. -/
structure ConfigurationsAlike (R : Correspondence Node Level Node' Level') (K : σ → σ' → Prop)
    (c : Configuration σ Level) (c' : Configuration σ' Level') : Prop where
  stack : K c.stack c'.stack
  top : ∃ n n', StateStack.peek c.stack 0 = some n ∧ StateStack.peek c'.stack 0 = some n' ∧
    R.node n n' ∧ R.level n n' c.cursor.level c'.cursor.level
  buffer : c.buffer = c'.buffer
  depth : c.cursor.depth = c'.cursor.depth

/-- The same comes of a move on both tables. -/
inductive ProgressAlike (R : Correspondence Node Level Node' Level') (K : σ → σ' → Prop) :
    Progress σ Level → Progress σ' Level' → Prop where
  | moved {c : Configuration σ Level} {c' : Configuration σ' Level'} :
      R.ConfigurationsAlike K c c' → ProgressAlike R K (.moved c) (.moved c')
  | waiting : ProgressAlike R K .waiting .waiting
  | stalled {why : Stall} : ProgressAlike R K (.stalled why) (.stalled why)

variable [LawfulStack σ Node] [LawfulStack σ' Node']

/-- After a shift both machines stand at the root level of the node that has been
entered. -/
theorem shift_alike (hK : R.StacksRelated K) (hs : K c.stack c'.stack) {landing : Landing Node}
    {landing' : Landing Node'} (hl : R.LandingsAlike landing landing') (token : Token)
    (rest : List Token) {root : Level} {root' : Level'}
    (hroot : R.level landing.target landing'.target root root') :
    R.ConfigurationsAlike K ⟨StateStack.shift c.stack token landing, rest, ⟨root, 0⟩⟩
      ⟨StateStack.shift c'.stack token landing', rest, ⟨root', 0⟩⟩ :=
  ⟨hK.shift token hs hl, ⟨_, _, LawfulStack.peek_shift_zero _ _ _,
    LawfulStack.peek_shift_zero _ _ _, hl.1, hroot⟩, rfl, rfl⟩

/-- So do they after a reduction. -/
theorem reduce_alike (hK : R.StacksRelated K) (hc : R.ConfigurationsAlike K c c')
    {landing : Landing Node} {landing' : Landing Node'} (hl : R.LandingsAlike landing landing')
    (q : ReductionProperty) {root : Level} {root' : Level'}
    (hroot : R.level landing.target landing'.target root root') :
    R.ConfigurationsAlike K ⟨StateStack.reduce c.stack q landing, c.buffer, ⟨root, 0⟩⟩
      ⟨StateStack.reduce c'.stack q landing', c'.buffer, ⟨root', 0⟩⟩ :=
  ⟨hK.reduce q hc.stack hl, ⟨_, _, LawfulStack.peek_reduce_zero _ _ _,
    LawfulStack.peek_reduce_zero _ _ _, hl.1, hroot⟩, hc.buffer, rfl⟩

/-- Actions that are alike are carried out alike. -/
theorem perform_alike (h : R.Respected F t t') (hK : R.StacksRelated K)
    (hc : R.ConfigurationsAlike K c c') {n : Node} {n' : Node'}
    (htop : StateStack.peek c.stack 0 = some n) (htop' : StateStack.peek c'.stack 0 = some n')
    (hn : R.node n n') {action : Action Node Level} {action' : Action Node' Level'}
    (ha : R.ActionsAlike n n' action action') :
    Alike F (R.ProgressAlike K) (Machine.perform t c n action)
      (Machine.perform t' c' n' action') := by
  cases ha with
  | descend hl =>
      refine .ok (.moved ⟨hc.stack, ⟨n, n', htop, htop', hn, hl⟩, hc.buffer, ?_⟩)
      exact congrArg (· + 1) hc.depth
  | shift hm =>
      rw [Machine.perform, Machine.perform, ← hc.buffer]
      cases c.buffer with
      | nil => exact .ok .stalled
      | cons token rest =>
          exact (h.root hm).bind fun root root' hroot =>
            .ok (.moved (shift_alike hK hc.stack ⟨hm, rfl⟩ token rest hroot))
  | reduce hr =>
      refine (h.property hn hr).bind fun q q' hq => ?_
      subst hq
      by_cases hacc : q.accepts = true
      · rw [if_pos hacc, if_pos hacc]
        obtain ⟨m, m', hm, hm', hrel, hlevel⟩ := hc.top
        refine .ok (.moved ⟨hK.accept hc.stack, ⟨m, m', ?_, ?_, hrel, hlevel⟩, hc.buffer, hc.depth⟩)
        · exact (LawfulStack.peek_accept _ _).trans hm
        · exact (LawfulStack.peek_accept _ _).trans hm'
      · rw [if_neg hacc, if_neg hacc]
        have hpeek := hK.peek hc.stack q.count
        generalize StateStack.peek c.stack q.count = last at hpeek ⊢
        generalize StateStack.peek c'.stack q.count = last' at hpeek ⊢
        cases hpeek with
        | none => exact .ok .stalled
        | some hm =>
            refine (h.landing hn hr hm).bind fun found found' hfound => ?_
            cases hfound with
            | none => exact .ok .stalled
            | some hl =>
                exact (h.root hl.1).bind fun root root' hroot =>
                  .ok (.moved (reduce_alike hK hc hl q hroot))

/-- **One move** comes out alike on tables that correspond. -/
theorem step_alike (h : R.Respected F t t') (hK : R.StacksRelated K)
    (hc : R.ConfigurationsAlike K c c') :
    Alike F (R.ProgressAlike K) (Machine.step t c) (Machine.step t' c') := by
  have hacc := hK.isAccepted hc.stack
  cases ha : StateStack.isAccepted c.stack with
  | true =>
      rw [Machine.step_of_accepted ha, Machine.step_of_accepted (hacc.symm.trans ha), ← hc.buffer]
      cases c.buffer.isEmpty with
      | true => exact .ok .waiting
      | false => exact .ok .stalled
  | false =>
      obtain ⟨n, n', htop, htop', hn, hlevel⟩ := hc.top
      rw [Machine.step_eq_resume ha htop, Machine.step_eq_resume (hacc.symm.trans ha) htop',
        ← hc.depth]
      have halways : Alike F (fun a b => a = b ∧ ∀ index, a = some index → R.reduction n n' index)
          (if c.cursor.depth = 0 then t.always n else .ok none)
          (if c.cursor.depth = 0 then t'.always n' else .ok none) := by
        by_cases hd : c.cursor.depth = 0
        · rw [if_pos hd, if_pos hd]
          exact h.always hn
        · rw [if_neg hd, if_neg hd]
          exact .ok ⟨rfl, fun index hi => nomatch hi⟩
      refine halways.bind fun a b hab => ?_
      obtain ⟨rfl, hvalid⟩ := hab
      cases a with
      | some index => exact perform_alike h hK hc htop htop' hn (.reduce (hvalid index rfl))
      | none =>
          rw [Machine.resume, Machine.resume, ← hc.depth, ← hc.buffer]
          cases c.buffer[c.cursor.depth]? with
          | none => exact .ok .waiting
          | some token =>
              refine (h.find token.symbol hn hlevel).bind fun found found' hfound => ?_
              cases hfound with
              | none => exact .ok .stalled
              | some haction => exact perform_alike h hK hc htop htop' hn haction

/-- **A whole run** comes out alike on tables that correspond. -/
theorem run_alike (h : R.Respected F t t') (hK : R.StacksRelated K)
    (hc : R.ConfigurationsAlike K c c') (moves : Nat) :
    Alike F (fun x y => R.ConfigurationsAlike K x.1 y.1 ∧ x.2 = y.2) (Machine.run t moves c)
      (Machine.run t' moves c') := by
  induction moves generalizing c c' with
  | zero => exact .fault h.outOfFuel
  | succ moves ih =>
      refine (step_alike h hK hc).bind fun r r' hr => ?_
      cases hr with
      | moved hnext => exact ih hnext
      | waiting => exact .ok ⟨hc, rfl⟩
      | stalled => exact .ok ⟨hc, rfl⟩

end Machine

end Correspondence
end BoundedLR
