import BoundedLR.Proofs.CompiledTries
import BoundedLR.Proofs.FailingRuns
import BoundedLR.Proofs.ReductionChains

/-!
# Every run comes to an end

The machine has no clock of its own, and a reduction leaves the buffer as it is.  That it
does not go on forever is a property of the grammar: it has to compile, and its slots can be
filled.  Then a machine that has recorded trees

* always finds what it looks up, since the cursor stands on a way down in the trie of the
  topmost node (`Compiled.exists_step`), and
* comes closer to its end with every move (`Compiled.moved_cases`).  A shift takes a token from
  the buffer.  A reduction is one of a chain that has an end.  Looking at one more token
  leaves fewer to look at.  And behind the acceptance of the input there is no move.

The three measures are compared in this order, and the run is followed by induction along
them (`Compiled.halts`).
-/

namespace BoundedLR

/-! ## Ways down in an orderly trie -/

namespace Trie.Orderly

variable {α : Type} {P : α → Prop} {t level below : Trie α} {s : Symbol} {word : List Symbol}
  {action : α}

theorem of_settled (h : t.Orderly P) (hs : t.find? s = some (.settled action)) : P action := by
  induction h with
  | done => cases hs
  | @leaf r _ rest haction _ _ ih =>
      rw [find?] at hs
      split at hs
      · cases hs
        exact haction
      · exact ih hs
  | @branch r _ rest _ _ _ _ ih =>
      rw [find?] at hs
      split at hs
      · cases hs
      · exact ih hs

theorem of_deeper (h : t.Orderly P) (hs : t.find? s = some (.deeper below)) :
    below.Orderly P := by
  induction h with
  | done => cases hs
  | @leaf r _ rest _ _ _ ih =>
      rw [find?] at hs
      split at hs
      · cases hs
      · exact ih hs
  | @branch r _ rest _ hbelow _ _ ih =>
      rw [find?] at hs
      split at hs
      · cases hs
        exact hbelow
      · exact ih hs

/-- Every level on the way down is orderly. -/
theorem of_walk (h : t.Orderly P) (hw : t.walk word = some level) : level.Orderly P := by
  induction word generalizing t with
  | nil =>
      cases hw
      exact h
  | cons s word ih =>
      rw [walk] at hw
      split at hw
      · rename_i below hbelow
        exact ih (h.of_deeper hbelow) hw
      · cases hw

end Trie.Orderly

/-! ## Runs that halt -/

namespace Machine

variable {σ Node Level : Type} [StateStack σ Node] {t : ParseTable Node Level}
  {c c' : Configuration σ Level}

/-- The machine comes to its end after some number of moves. -/
def Halts (t : ParseTable Node Level) (c : Configuration σ Level) : Prop :=
  ∃ moves r, run t moves c = .ok r

theorem Halts.of_moved (h : step t c = .ok (.moved c')) (hhalts : Halts t c') : Halts t c := by
  obtain ⟨moves, r, hrun⟩ := hhalts
  exact ⟨moves + 1, r, (run_of_moved h).trans hrun⟩

/-- A machine that makes no move has come to its end. -/
theorem Halts.of_step {r : Progress σ Level} (h : step t c = .ok r)
    (hmoved : ∀ c', r = .moved c' → Halts t c') : Halts t c := by
  cases r with
  | moved c' => exact (hmoved c' rfl).of_moved h
  | waiting => exact ⟨1, _, run_of_waiting h⟩
  | stalled why => exact ⟨1, _, run_of_stalled h⟩

theorem Halts.of_accepted (h : StateStack.isAccepted c.stack = true) : Halts t c := by
  refine .of_step (step_of_accepted h) fun c' hc' => ?_
  split at hc' <;> cases hc'

end Machine

namespace Parser

variable {p : Parser} {start : Symbol} {taken : List Token} {trees : List (Tree Nat)}
  {c c' : Configuration (Record Nat) (Trie Decision)} {top index : Nat}

/-- The nodes on a recorded stack. -/
def nodesOf (c : Configuration (Record Nat) (Trie Decision)) : List Nat :=
  c.stack.entries.map (·.node)

namespace Compiled

variable (hp : p.Compiled start)

include hp

/-! ## One move -/

/-- What a node does without looking at the input is one of its reductions. -/
theorem exists_always (htop : top < p.automaton.count) :
    ∃ always, p.table.always top = .ok always ∧
      ∀ index, always = some index → index < (p.automaton.reductions top).length := by
  obtain ⟨node, hnode, -, hreductions⟩ := hp.exists_node htop
  refine ⟨node.always, map_eq_ok.2 ⟨node, hnode, rfl⟩, fun index hindex => ?_⟩
  have hlt := (hp.storable hnode).always index hindex
  rw [hreductions, List.length_map] at hlt
  exact hlt

/-- **What is due is in range**: a reduction of the topmost node, or a shift to a state. -/
theorem inRange_of_consults (hs : p.Growth taken c trees)
    (htop : StateStack.peek c.stack 0 = some top) (hlt : top < p.automaton.count)
    {decision : Decision}
    (hc : Machine.Consults p.table c top (actionOf (.settled decision))) :
    decision.InRange p.automaton.count (p.automaton.reductions top).length := by
  have hfound : ∀ {token : Token} {entry : TrieEntry Decision},
      c.cursor.level.find? token.symbol = some entry →
        actionOf entry = actionOf (.settled decision) →
        decision.InRange p.automaton.count (p.automaton.reductions top).length := by
    intro token entry hentry hact
    obtain rfl : entry = .settled decision := actionOf_injective hact
    obtain ⟨root, hroot, hwalk⟩ := hs.cursor top htop
    obtain ⟨node, -, hfor, rfl⟩ := hp.root_eq_ok hroot
    exact ((hp.orderly_trie hlt hfor).of_walk hwalk).of_settled hentry
  cases decision with
  | shift target predict =>
      obtain ⟨token, entry, -, hentry, hact⟩ := entry_of_consults hc fun _ => nofun
      exact hfound hentry hact
  | reduce index =>
      cases hc with
      | always _ halways =>
          obtain ⟨always, hok, hindex⟩ := hp.exists_always hlt
          cases hok.symm.trans halways
          exact hindex index rfl
      | @found token _ _ _ hfind =>
          obtain ⟨entry, hentry, hact⟩ := Option.map_eq_some_iff.1 (Except.ok.inj hfind)
          exact hfound hentry hact

/-- **The machine finds what it looks up.** -/
theorem exists_step (hs : p.Growth taken c trees) : ∃ r, Machine.step p.table c = .ok r := by
  cases hstep : Machine.step p.table c with
  | ok r => exact ⟨r, rfl⟩
  | error e =>
  exfalso
  obtain ⟨-, hcases⟩ := Machine.step_eq_error hstep
  obtain ⟨top, below, hnodes, htop⟩ := hs.exists_top
  have hpath := hs.grown.path
  rw [hnodes] at hpath
  have hlt := hpath.lt_count hp.realises
  rcases hcases with hnone | ⟨top', htop', hcases⟩
  · cases hnone.symm.trans htop
  cases htop.symm.trans htop'
  rcases hcases with halways | ⟨token, hfind⟩ | ⟨action, hconsults, hbreaks⟩
  · obtain ⟨always, hok, -⟩ := hp.exists_always hlt
    cases hok.symm.trans halways
  · cases hfind
  have hreduction : ∀ {index : Nat}, Machine.Consults p.table c top (.reduce index) →
      ∃ r, (p.automaton.reductions top)[index]? = some r := by
    intro index hc
    have hrange : (Decision.reduce index).InRange p.automaton.count
        (p.automaton.reductions top).length := hp.inRange_of_consults hs htop hlt hc
    exact ⟨_, List.getElem?_eq_getElem hrange⟩
  cases hbreaks with
  | @shift target predict hroot =>
      have htarget : (Decision.shift target predict).InRange p.automaton.count
          (p.automaton.reductions top).length := hp.inRange_of_consults hs htop hlt hconsults
      obtain ⟨root, hok⟩ := hp.exists_root htarget
      cases hok.symm.trans hroot
  | property hproperty =>
      obtain ⟨r, hr⟩ := hreduction hconsults
      cases (hp.property_eq_ok.2 ⟨r, hr, rfl⟩).symm.trans hproperty
  | @landing index property last _ _ hlanding =>
      obtain ⟨r, hr⟩ := hreduction hconsults
      have hread := hp.reduction_of_getElem? hr
      change (p.reduction top index).map _ = _ at hlanding
      rw [hread] at hlanding
      cases hlanding
  | root _ _ hlanding hroot =>
      obtain ⟨r, hr, htuple, -⟩ := hp.landing_eq_ok.1 hlanding
      rw [(hp.realises.mem_reductions_iff.1 (List.mem_of_getElem? hr)).2] at htuple
      obtain ⟨-, htarget⟩ := Automaton.lt_count_of_mem_reductionTuples hp.realises htuple
      obtain ⟨root, hok⟩ := hp.exists_root htarget
      cases hok.symm.trans hroot

/-- A reduction of the machine is one of the automaton. -/
theorem reduces_of_landing (hs : p.Growth taken c trees) {last : Nat}
    {property : ReductionProperty} {landing : Landing Nat}
    (htop : StateStack.peek c.stack 0 = some top)
    (hproperty : p.table.property top index = .ok property)
    (hlast : StateStack.peek c.stack property.count = some last)
    (hlanding : p.table.landing top index last = .ok (some landing)) :
    p.automaton.Reduces p.productions (nodesOf c)
      (landing.target :: (nodesOf c).drop property.count) := by
  obtain ⟨r, below, hr, hbelow, -, hcount, -, hitem, -, -⟩ :=
    hp.children_of_property hs htop hproperty
  obtain ⟨r', hr', htuple, -⟩ := hp.landing_eq_ok.1 hlanding
  obtain rfl : r = r' := Option.some.inj (hr.symm.trans hr')
  rw [(hp.realises.mem_reductions_iff.1 (List.mem_of_getElem? hr)).2] at htuple
  obtain ⟨-, -, hne, -, -, -⟩ := Automaton.mem_reductionTuples.1 htuple
  have hnodes : nodesOf c = top :: below := hbelow
  rw [peek_record, hbelow] at hlast
  rw [hcount] at hlast ⊢
  rw [hnodes]
  exact ⟨r.production, .reduce hne hitem hlast htuple .done⟩

/-- **A move comes closer to the end**: it accepts the input, takes a token from the buffer,
reduces, or looks at one more token. -/
theorem moved_cases (hs : p.Growth taken c trees)
    (h : Machine.step p.table c = .ok (.moved c')) :
    StateStack.isAccepted c'.stack = true ∨ c'.buffer.length < c.buffer.length ∨
      c'.buffer.length = c.buffer.length ∧
        (p.automaton.Reduces p.productions (nodesOf c) (nodesOf c') ∨
          nodesOf c' = nodesOf c ∧ c.cursor.depth < c'.cursor.depth) := by
  obtain ⟨-, top, action, htop, -, hmoves⟩ := Machine.step_eq_moved.1 h
  cases hmoves with
  | descend => exact .inr (.inr ⟨rfl, .inr ⟨rfl, Nat.lt_succ_self _⟩⟩)
  | shift hb _ =>
      refine .inr (.inl ?_)
      rw [hb]
      exact Nat.lt_succ_self _
  | accept => exact .inl rfl
  | reduce hproperty _ hlast hlanding _ =>
      refine .inr (.inr ⟨rfl, .inl ?_⟩)
      have hreduces := hp.reduces_of_landing hs htop hproperty hlast hlanding
      rw [nodesOf, ← List.map_drop] at hreduces
      exact hreduces

/-! ## All moves -/

/-- With the same buffer and the same nodes, the machine can only look further ahead. -/
theorem halts_of_looking {length : Nat} {nodes : List Nat}
    (hshorter : ∀ c trees, p.Growth taken c trees → c.buffer.length < length →
      Machine.Halts p.table c)
    (hreduced : ∀ c trees, p.Growth taken c trees → c.buffer.length = length →
      p.automaton.Reduces p.productions nodes (nodesOf c) → Machine.Halts p.table c)
    (hs : p.Growth taken c trees) (hlength : c.buffer.length = length)
    (hnodes : nodesOf c = nodes) : Machine.Halts p.table c := by
  induction hn : length - c.cursor.depth using Nat.strong_induction_on generalizing c trees with
  | _ n ih =>
  obtain ⟨r, hr⟩ := hp.exists_step hs
  refine .of_step hr fun c' hc' => ?_
  subst hc'
  obtain ⟨trees', hs'⟩ := hp.growth_step hs hr
  rcases hp.moved_cases hs hr with haccepted | hlt | ⟨heq, hreduces | ⟨hsame, hdepth⟩⟩
  · exact .of_accepted haccepted
  · exact hshorter c' trees' hs' (hlength ▸ hlt)
  · exact hreduced c' trees' hs' (heq.trans hlength) (hnodes ▸ hreduces)
  · have hle := hs'.depth_le
    exact ih _ (by omega) hs' (heq.trans hlength) (hsame.trans hnodes) rfl

/-- **Every run comes to an end.** -/
theorem halts (hprod : p.productions.Productive) (hs : p.Growth taken c trees) :
    Machine.Halts p.table c := by
  induction hlength : c.buffer.length using Nat.strong_induction_on generalizing c trees with
  | _ length ihLength =>
  have hacc := hp.acc_reduces hprod hs.grown
  generalize hnodes : c.stack.entries.map (·.node) = nodes at hacc
  induction hacc generalizing c trees with
  | intro nodes _ ihNodes =>
      refine hp.halts_of_looking (fun c trees hs hlt => ihLength _ hlt hs rfl)
        (fun c trees hs heq hreduces => ?_) hs hlength hnodes
      exact ihNodes _ hreduces hs heq rfl

end Compiled
end Parser
end BoundedLR
