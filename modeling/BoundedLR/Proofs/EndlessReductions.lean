import BoundedLR.Proofs.SimulatedChains

/-!
# When endless chains are found

`Contest.endless_of_visit` says that the search for continuations never complains of an
endless chain without reason.  This module asks the converse: whether it complains
whenever there is such a chain (`Contest.follow_fails_iff`).

The search is described by a relation, `Contest.Walks`, from the stacks that have been
explored before some frames are worked off to those that have been explored afterwards.
A walk leaves a set behind that is closed under reductions.  A chain that stacks a state
on itself could make the stack grow without bound, and the stacks of a walk are short; so
such a chain is always found.

A chain that comes back to one of its stacks at the same depth is found if on no chain
such a stack sinks (`Contest.NeverSinks`), which is to say that it is come back to lying
deeper than before.  Otherwise it may be overlooked, as `Contest.follow_misses_converging`
shows: the search tells stacks apart by their states only, and what it has explored on
a way that sinks it does not explore again on the way that stays level.  Whether that
happens depends on which way is tried first, and so on the order of the rules.
-/

namespace BoundedLR

open Relation

namespace Contest

variable {k : Contest} {origin c next : PartialStack} {choice : Choice} {start : Nat}

/-! ## Walks -/

/-- A stack to be explored, after the stacks of its chain, the latest first. -/
structure Frame where
  trail : List PartialStack
  stack : PartialStack

/-- The frames that exploring a stack leads to. -/
def Frame.outcomes (k : Contest) (f : Frame) : List Frame :=
  (k.reducible f.stack).flatMap fun p =>
    (f.stack.reduce k.automaton k.productions p).map (Frame.mk (f.stack :: f.trail))

/-- Frames are worked off in depth, without a complaint about any of them: a stack that
has been explored before is passed over. -/
inductive Walks (k : Contest) : List Frame → List (List Nat) → List (List Nat) → Prop where
  | done {seen : List (List Nat)} : Walks k [] seen seen
  | pass {f : Frame} {frames : List Frame} {seen after : List (List Nat)} :
      PartialStack.repeats f.trail f.stack = false → f.stack.states ∈ seen →
      Walks k frames seen after → Walks k (f :: frames) seen after
  | enter {f : Frame} {frames : List Frame} {seen between after : List (List Nat)} :
      PartialStack.repeats f.trail f.stack = false → f.stack.states ∉ seen →
      Walks k (f.outcomes k) (f.stack.states :: seen) between →
      Walks k frames between after → Walks k (f :: frames) seen after

theorem mem_outcomes {f g : Frame} : g ∈ f.outcomes k ↔
    ∃ next, k.Reduces f.stack next ∧ g = ⟨f.stack :: f.trail, next⟩ := by
  simp only [Frame.outcomes, List.mem_flatMap, List.mem_map, Reduces]
  constructor
  · rintro ⟨p, hp, next, hn, rfl⟩
    exact ⟨next, ⟨p, hp, hn⟩, rfl⟩
  · rintro ⟨next, ⟨p, hp, hn⟩, rfl⟩
    exact ⟨p, hp, next, hn, rfl⟩

/-- Reductions look at the states only. -/
theorem Reduces.exists_same {c' : PartialStack} (h : k.Reduces c next)
    (hc : c'.states = c.states) : ∃ same, k.Reduces c' same ∧ same.states = next.states := by
  obtain ⟨p, hp, hn⟩ := h
  obtain ⟨same, hsame, hstates⟩ := PartialStack.exists_mem_reduce hc hn
  exact ⟨same, ⟨p, reducible_eq hc ▸ hp, hsame⟩, hstates⟩

namespace Walks

variable {frames others : List Frame} {seen between after : List (List Nat)} {w : List Nat}

theorem append (h : k.Walks frames seen between) (h' : k.Walks others between after) :
    k.Walks (frames ++ others) seen after := by
  induction h with
  | done => exact h'
  | pass hrepeats hseen _ ih => exact .pass hrepeats hseen (ih h')
  | enter hrepeats hnew hinner _ _ ih => exact .enter hrepeats hnew hinner (ih h')

theorem subset (h : k.Walks frames seen after) : seen ⊆ after := by
  induction h with
  | done => exact List.Subset.refl _
  | pass _ _ _ ih => exact ih
  | enter _ _ _ _ ihinner ih =>
      exact fun w hw => ih (ihinner (List.mem_cons_of_mem _ hw))

/-- Every frame has been found not to come back to a stack of its chain. -/
theorem base_lt (h : k.Walks frames seen after) {f : Frame} (hf : f ∈ frames)
    {earlier : PartialStack} (he : earlier ∈ f.trail) (hsame : earlier.states = f.stack.states) :
    f.stack.base < earlier.base := by
  have hrepeats : PartialStack.repeats f.trail f.stack = false := by
    induction h with
    | done => exact absurd hf List.not_mem_nil
    | pass hrepeats _ _ ih | enter hrepeats _ _ _ _ ih =>
        rcases List.mem_cons.1 hf with rfl | hf
        · exact hrepeats
        · exact ih hf
  have hlower := List.any_eq_false.1 hrepeats earlier he
  rw [Bool.and_eq_true, beq_iff_eq, decide_eq_true_iff] at hlower
  exact Int.not_le.1 fun hle => hlower ⟨hsame, hle⟩

/-- Every frame has been explored. -/
theorem mem_after (h : k.Walks frames seen after) {f : Frame} (hf : f ∈ frames) :
    f.stack.states ∈ after := by
  induction h with
  | done => exact absurd hf List.not_mem_nil
  | pass _ hseen hwalks ih =>
      rcases List.mem_cons.1 hf with rfl | hf
      · exact hwalks.subset hseen
      · exact ih hf
  | enter _ _ hinner hwalks _ ih =>
      rcases List.mem_cons.1 hf with rfl | hf
      · exact hwalks.subset (hinner.subset List.mem_cons_self)
      · exact ih hf

/-- **What a walk explores is closed under reductions.** -/
theorem closed (h : k.Walks frames seen after) (hw : w ∈ after) (hnew : w ∉ seen)
    (hc : c.states = w) (hstep : k.Reduces c next) : next.states ∈ after := by
  induction h with
  | done => exact absurd hw hnew
  | pass _ _ _ ih => exact ih hw hnew
  | @enter f frames seen between after _ _ hinner hwalks ihinner ih =>
      by_cases hbetween : w ∈ between
      · refine hwalks.subset ?_
        by_cases hf : w = f.stack.states
        · obtain ⟨same, hsame, hstates⟩ := hstep.exists_same (hf ▸ hc.symm)
          exact hstates ▸ hinner.mem_after (mem_outcomes.2 ⟨same, hsame, rfl⟩)
        · exact ihinner hbetween (List.not_mem_cons_of_ne_of_not_mem hf hnew)
      · exact ih hw hbetween

/-- Every stack that a walk explores lies at the end of a chain that leads on from one of
the frames.  All outcomes of its reductions have been compared with the stacks of the
frame. -/
theorem exists_frame (h : k.Walks frames seen after) (hw : w ∈ after) (hnew : w ∉ seen) :
    ∃ f ∈ frames, ∃ c, c.states = w ∧ ReflTransGen k.Reduces f.stack c ∧
      ∀ next, k.Reduces c next → ∀ earlier ∈ f.stack :: f.trail,
        earlier.states = next.states → next.base < earlier.base := by
  induction h with
  | done => exact absurd hw hnew
  | pass _ _ _ ih =>
      obtain ⟨f, hf, hchain⟩ := ih hw hnew
      exact ⟨f, List.mem_cons_of_mem _ hf, hchain⟩
  | @enter f frames seen between after _ _ hinner hwalks ihinner ih =>
      by_cases hbetween : w ∈ between
      · refine ⟨f, List.mem_cons_self, ?_⟩
        by_cases hf : w = f.stack.states
        · refine ⟨f.stack, hf.symm, .refl, fun next hstep earlier he hsame => ?_⟩
          exact hinner.base_lt (mem_outcomes.2 ⟨next, hstep, rfl⟩) he hsame
        · obtain ⟨g, hg, c, hc, hleads, hlower⟩ :=
            ihinner hbetween (List.not_mem_cons_of_ne_of_not_mem hf hnew)
          obtain ⟨first, hfirst, rfl⟩ := mem_outcomes.1 hg
          exact ⟨c, hc, hleads.head hfirst, fun next hstep earlier he =>
            hlower next hstep earlier (List.mem_cons_of_mem _ he)⟩
      · obtain ⟨g, hg, hchain⟩ := ih hw hbetween
        exact ⟨g, List.mem_cons_of_mem _ hg, hchain⟩

/-- Whatever reductions lead to from an explored stack has been explored. -/
theorem mem_of_leads (h : k.Walks frames [] after) (hc : c.states ∈ after)
    (hleads : ReflTransGen k.Reduces c next) : next.states ∈ after := by
  induction hleads with
  | refl => exact hc
  | tail _ hstep ih => exact h.closed ih List.not_mem_nil rfl hstep

end Walks

/-! ## The search is a walk -/

/-- Walks that the steps of a fold make follow each other. -/
theorem walks_of_foldlM (choice : Choice) (start : Nat) {α ε : Type}
    {f : Survey → α → Except ε Survey} {frames : α → List Frame} {xs : List α}
    {survey after : Survey}
    (hf : ∀ s x s', x ∈ xs → survey.Extends k choice start s → f s x = .ok s' →
      s.Extends k choice start s' ∧ k.Walks (frames x) s.explored s'.explored)
    (h : xs.foldlM f survey = .ok after) :
    survey.Extends k choice start after ∧
      k.Walks (xs.flatMap frames) survey.explored after.explored := by
  induction xs generalizing survey with
  | nil =>
      cases Except.ok.inj h
      exact ⟨.refl _, .done⟩
  | cons x xs ih =>
      rw [List.foldlM_cons, bind_eq_ok] at h
      obtain ⟨s, hs, h⟩ := h
      obtain ⟨hext, hwalks⟩ := hf survey x s List.mem_cons_self (.refl _) hs
      obtain ⟨hext', hwalks'⟩ := ih (fun t y t' hy ht => hf t y t' (List.mem_cons_of_mem _ hy)
        (hext.trans ht)) h
      exact ⟨hext.trans hext', hwalks.append hwalks'⟩

/-- **A search that does not complain is a walk.**  Its depth is not used up, for the
same reason as in `visit_spec`. -/
theorem walks_of_visit (ha : k.automaton.Realises k.productions) (hpos : 0 < start) {depth : Nat}
    {trail : List PartialStack} {reduced : List Nat} {settled : Nat} {survey after : Survey}
    (hc : c.Met k.automaton.count start settled) (hroom : survey.Room k start depth)
    (h : k.visit choice depth trail reduced settled c survey = .ok after) :
    k.Walks [⟨trail, c⟩] survey.explored after.explored := by
  induction depth generalizing trail reduced settled c survey after with
  | zero => exact absurd rfl (hroom.depth_ne_zero ha)
  | succ depth ih =>
      rw [visit] at h
      split at h
      · cases h
      · rename_i hloop
        rw [Bool.or_eq_true, not_or] at hloop
        have hrepeats : PartialStack.repeats trail c = false := Bool.eq_false_iff.2 hloop.1
        have hstacks : c.stacksItself settled = false := Bool.eq_false_iff.2 hloop.2
        split at h
        · rename_i hseen
          cases Except.ok.inj h
          exact .pass hrepeats (List.contains_iff_mem.1 hseen) .done
        · rename_i hnew
          have hnew' : c.states ∉ survey.explored := fun hmem =>
            hnew (List.contains_iff_mem.2 hmem)
          refine .enter hrepeats hnew' ?_ .done
          refine (walks_of_foldlM choice start (fun t p t' _ hst ht => ?_) h).2
          rw [List.map_eq_flatMap]
          refine walks_of_foldlM choice start (fun u next u' hnext htu hu => ?_) ht
          have hmet := hc.reduce ha hpos hstacks hnext
          have hdeeper := hroom.deeper hc hstacks hnew' (hst.trans htu)
          exact ⟨(visit_spec ha hpos hmet hdeeper hu).1, ih hmet hdeeper hu⟩

/-- What following a choice without a complaint explores: a walk over stacks that are not
high. -/
theorem exists_walk_of_follow (ha : k.automaton.Realises k.productions)
    {lookahead : List Symbol} {via : List Nat} {found : List Continuation} (hne : c.states ≠ [])
    (hc : ∀ n ∈ c.states, n < k.automaton.count) (h : k.follow lookahead choice via c = .ok found) :
    ∃ explored, k.Walks [⟨[], c⟩] [] explored ∧
      ∀ w ∈ explored, w.length ≤ c.states.length + k.automaton.count := by
  rw [follow] at h
  split at h
  · rename_i survey hsurvey
    have hpos := List.length_pos_iff.2 hne
    have hmet := PartialStack.Met.initial hne hc
    have hroom := Survey.Room.initial ha c.states.length
    refine ⟨survey.explored, walks_of_visit ha hpos hmet hroom hsurvey, fun w hw => ?_⟩
    exact ((visit_spec ha hpos hmet hroom hsurvey).1.shelf hroom.shelf w hw).2
  · cases h

/-! ## What is found -/

/-- A stack that is stacked on itself outgrows every walk. -/
theorem Grows.not_walks (ha : k.automaton.Realises k.productions) (h : k.Grows origin)
    {explored : List (List Nat)} {height : Nat}
    (hheight : ∀ w ∈ explored, w.length ≤ height) : ¬ k.Walks [⟨[], origin⟩] [] explored := by
  intro hwalks
  obtain ⟨trail, top, older, c, hchain, hmem⟩ := h
  obtain ⟨below, hleads, hlen⟩ := hchain.exists_longer ha hmem height
  have hexplored := hwalks.mem_of_leads (hwalks.mem_after List.mem_cons_self) hleads
  have hle := hheight _ hexplored
  rw [List.length_cons] at hle
  omega

/-- No chain that comes back to a stack with the states of the given one has sunk. -/
def NeverSinks (k : Contest) (origin x : PartialStack) : Prop :=
  ∀ c d : PartialStack, ReflTransGen k.Reduces origin c → TransGen k.Reduces c d →
    c.states = x.states → d.states = x.states → c.base ≤ d.base

/-- The reductions on a stack lead back to it and nowhere else. -/
def Idles (k : Contest) (c : PartialStack) : Prop :=
  k.Reduces c c ∧
    ∀ p ∈ k.reducible c, ∀ next ∈ c.reduce k.automaton k.productions p, next = c

instance : Decidable (k.Idles c) :=
  inferInstanceAs (Decidable (k.Reduces c c ∧
    ∀ p ∈ k.reducible c, ∀ next ∈ c.reduce k.automaton k.productions p, next = c))

theorem Idles.eq_of_leads (h : k.Idles c) (hleads : ReflTransGen k.Reduces c next) :
    next = c := by
  induction hleads with
  | refl => rfl
  | tail _ hstep ih =>
      obtain ⟨p, hp, hn⟩ := hstep
      subst ih
      exact h.2 p hp _ hn

theorem Idles.neverSinks (h : k.Idles c) (x : PartialStack) : k.NeverSinks c x := by
  intro d e hd hde _ _
  rw [h.eq_of_leads hd, h.eq_of_leads (hd.trans hde.to_reflTransGen)]

/-- The stack is met on a way from the given one back to it. -/
def Around (k : Contest) (x : PartialStack) (w : List Nat) : Prop :=
  ∃ y : PartialStack, y.states = w ∧ ReflTransGen k.Reduces x y ∧ ReflTransGen k.Reduces y x

/-- A set of stacks that is closed under reductions around a cycle contains the cycle if
it contains one of its stacks. -/
theorem mem_of_cycle {explored : List (List Nat)} {x y z : PartialStack}
    (hclosed : ∀ c next : PartialStack, k.Around x c.states → c.states ∈ explored →
      k.Reduces c next → next.states ∈ explored)
    (hxy : ReflTransGen k.Reduces x y) (hmem : y.states ∈ explored)
    (hyz : ReflTransGen k.Reduces y z) (hzx : ReflTransGen k.Reduces z x) :
    z.states ∈ explored := by
  induction hyz with
  | refl => exact hmem
  | tail hyz hstep ih =>
      have hback := ReflTransGen.head hstep hzx
      exact hclosed _ _ ⟨_, rfl, hxy.trans hyz, hback⟩ (ih hback) hstep

/-- **Where a walk enters a cycle it goes on around it**, since none of the stacks on the
cycle has been explored before, and comes back to the stack where it was entered.  That it
does not complain there means that the stack has sunk. -/
theorem Walks.exists_sunk {f : Frame} {seen after : List (List Nat)} (h : k.Walks [f] seen after)
    {x y : PartialStack} (hcycle : TransGen k.Reduces x x)
    (hseen : ∀ w ∈ seen, ¬ k.Around x w) (hstates : y.states = f.stack.states)
    (hxy : ReflTransGen k.Reduces x y) (hyx : ReflTransGen k.Reduces y x) :
    ∃ sunk, TransGen k.Reduces f.stack sunk ∧ sunk.states = f.stack.states ∧
      sunk.base < f.stack.base := by
  have hclosed : ∀ c next : PartialStack, k.Around x c.states → c.states ∈ after →
      k.Reduces c next → next.states ∈ after := fun c next hc hmem hstep =>
    h.closed hmem (fun hold => hseen _ hold hc) rfl hstep
  have hymem : y.states ∈ after := hstates ▸ h.mem_after List.mem_cons_self
  -- the stack before `y` on the cycle has been explored on a chain from the frame
  obtain ⟨z, hyz, hzy⟩ := TransGen.tail'_iff.1 ((hcycle.trans_left hxy).trans_right hyx)
  have hzx := hyx.head hzy
  have hz : k.Around x z.states := ⟨z, rfl, hxy.trans hyz, hzx⟩
  have hzmem := mem_of_cycle hclosed hxy hymem hyz hzx
  obtain ⟨g, hg, c, hc, hleads, hlower⟩ := h.exists_frame hzmem fun hold => hseen _ hold hz
  obtain rfl := List.mem_singleton.1 hg
  obtain ⟨sunk, hstep, hsunk⟩ := hzy.exists_same hc
  have hsame := hsunk.trans hstates
  exact ⟨sunk, .tail' hleads hstep, hsame, hlower sunk hstep _ List.mem_cons_self hsame.symm⟩

/-- **A walk meets no cycle on which no stack sinks.** -/
theorem Walks.not_around {x : PartialStack} (hcycle : TransGen k.Reduces x x)
    (hlevel : ∀ y, ReflTransGen k.Reduces x y → ReflTransGen k.Reduces y x →
      k.NeverSinks origin y) {frames : List Frame} {seen after : List (List Nat)}
    (h : k.Walks frames seen after)
    (hframes : ∀ f ∈ frames, ReflTransGen k.Reduces origin f.stack)
    (hseen : ∀ w ∈ seen, ¬ k.Around x w) : ∀ w ∈ after, ¬ k.Around x w := by
  induction h with
  | done => exact hseen
  | pass _ _ _ ih => exact ih (fun f hf => hframes f (List.mem_cons_of_mem _ hf)) hseen
  | @enter f frames seen between after hrepeats hnew hinner _ ihinner ih =>
      have hf := hframes f List.mem_cons_self
      have hfresh : ¬ k.Around x f.stack.states := by
        rintro ⟨y, hstates, hxy, hyx⟩
        have hentered : k.Walks [f] seen between := .enter hrepeats hnew hinner .done
        obtain ⟨sunk, hback, hsame, hsunk⟩ :=
          hentered.exists_sunk hcycle hseen hstates hxy hyx
        have hle : f.stack.base ≤ sunk.base :=
          hlevel y hxy hyx _ _ hf hback hstates.symm (hsame.trans hstates.symm)
        exact absurd hle (Int.not_le.2 hsunk)
      refine ih (fun g hg => hframes g (List.mem_cons_of_mem _ hg)) (ihinner ?_ ?_)
      · intro g hg
        obtain ⟨next, hstep, rfl⟩ := mem_outcomes.1 hg
        exact hf.tail hstep
      · intro w hw
        rcases List.mem_cons.1 hw with rfl | hw
        · exact hfresh
        · exact hseen w hw

/-- **A cycle is found if no stack on it sinks**, whatever else the search comes across. -/
theorem exists_conflict_of_cycle (ha : k.automaton.Realises k.productions)
    (lookahead : List Symbol) (choice : Choice) (via : List Nat) (hne : c.states ≠ [])
    (hc : ∀ n ∈ c.states, n < k.automaton.count) {x : PartialStack}
    (hx : ReflTransGen k.Reduces c x) (hcycle : TransGen k.Reduces x x)
    (hlevel : ∀ y, ReflTransGen k.Reduces x y → ReflTransGen k.Reduces y x → k.NeverSinks c y) :
    ∃ conflict, k.follow lookahead choice via c = .error conflict := by
  cases hfollow : k.follow lookahead choice via c with
  | error conflict => exact ⟨conflict, rfl⟩
  | ok found =>
      obtain ⟨explored, hwalks, -⟩ := exists_walk_of_follow ha hne hc hfollow
      have hframes : ∀ f ∈ [Frame.mk [] c], ReflTransGen k.Reduces c f.stack :=
        List.forall_mem_singleton.2 .refl
      have hmem := hwalks.mem_of_leads (hwalks.mem_after List.mem_cons_self) hx
      exact absurd ⟨x, rfl, .refl, .refl⟩ (hwalks.not_around hcycle hlevel hframes
        (fun w hw => absurd hw List.not_mem_nil) _ hmem)

/-- A chain that stacks a state on itself is found. -/
theorem exists_conflict_of_grows (ha : k.automaton.Realises k.productions)
    (lookahead : List Symbol) (choice : Choice) (via : List Nat) (hne : c.states ≠ [])
    (hc : ∀ n ∈ c.states, n < k.automaton.count) (h : k.Grows c) :
    ∃ conflict, k.follow lookahead choice via c = .error conflict := by
  cases hfollow : k.follow lookahead choice via c with
  | error conflict => exact ⟨conflict, rfl⟩
  | ok found =>
      obtain ⟨explored, hwalks, hheight⟩ := exists_walk_of_follow ha hne hc hfollow
      exact absurd hwalks (h.not_walks ha hheight)

/-- A complaint is about an endless chain. -/
theorem endless_of_follow (ha : k.automaton.Realises k.productions) {lookahead : List Symbol}
    {via : List Nat} {conflict : Conflict}
    (h : k.follow lookahead choice via c = .error conflict) :
    conflict.kind = .endlessReduction ∧ k.Endless c := by
  rw [follow] at h
  split at h
  · cases h
  · rename_i blamed hblamed
    obtain rfl := Except.error.inj h
    have hpushed : ([] : List Nat) = c.states.take (c.states.length - c.states.length) := by
      rw [Nat.sub_self, List.take_zero]
    exact ⟨rfl, endless_of_visit ha .start hpushed hblamed⟩

/-- **Every complaint is about an endless chain, every chain that stacks a state on itself
is complained about, and so is every endless chain** if no stack sinks to which chains
come back at the same depth. -/
theorem follow_fails_iff (ha : k.automaton.Realises k.productions) (lookahead : List Symbol)
    (choice : Choice) (via : List Nat) (hne : c.states ≠ [])
    (hc : ∀ n ∈ c.states, n < k.automaton.count) :
    (∀ conflict, k.follow lookahead choice via c = .error conflict →
      conflict.kind = .endlessReduction ∧ k.Endless c) ∧
    (k.Grows c → ∃ conflict, k.follow lookahead choice via c = .error conflict) ∧
    ((∀ x, ReflTransGen k.Reduces c x → TransGen k.Reduces x x → k.NeverSinks c x) →
      (k.Endless c ↔ ∃ conflict, k.follow lookahead choice via c = .error conflict)) := by
  have hgrows := exists_conflict_of_grows ha lookahead choice via hne hc
  refine ⟨fun conflict h => endless_of_follow ha h, hgrows, fun hlevel => ⟨?_, ?_⟩⟩
  · rintro (hrepeats | hstacks)
    · obtain ⟨x, hx, hcycle⟩ := (repeats_iff ha).1 hrepeats
      refine exists_conflict_of_cycle ha lookahead choice via hne hc hx hcycle fun y hxy hyx => ?_
      exact hlevel y (hx.trans hxy) ((hcycle.trans_left hxy).trans_right hyx)
    · exact hgrows hstacks
  · rintro ⟨conflict, h⟩
    exact (endless_of_follow ha h).2

end Contest

/-- The contest of a state of a grammar's automaton. -/
def Productions.contest (g : Productions) (state bound : Nat) : Contest :=
  ⟨g, g.automaton, g.automaton.announcing g, state, bound⟩

/-- A rule that derives a non-terminal from itself. -/
def Grammar.circular : Grammar where
  start := .nonTerminal 0
  rules :=
    [⟨.nonTerminal 0, [.symbol (.nonTerminal 1), .symbol (.terminal 0)], 0, false⟩,
      ⟨.nonTerminal 1, [.symbol (.nonTerminal 1)], 0, false⟩,
      ⟨.nonTerminal 1, [.symbol (.terminal 1)], 0, false⟩]
  priorities := []

/-- The reduction of `N1` to itself leads back to the stack, and nothing else does. -/
theorem Contest.follow_fails_circular : ∃ g, Grammar.circular.normalize = .ok g ∧
    ∃ c ∈ (PartialStack.single 3).reduce g.automaton g 2, (g.contest 3 1).Endless c ∧
      ∃ conflict, (g.contest 3 1).follow [] (.reduce 0) [2] c = .error conflict := by
  obtain ⟨g, hg, htest⟩ := map_eq_ok.1 (show Grammar.circular.normalize.map (fun g => decide (
      ⟨-1, [3, 0]⟩ ∈ (PartialStack.single 3).reduce g.automaton g 2 ∧
      (g.contest 3 1).Idles ⟨-1, [3, 0]⟩ ∧ 3 < g.automaton.count)) = .ok true by decide +kernel)
  obtain ⟨hmem, hidles, hlt⟩ := of_decide_eq_true htest
  have ha : g.automaton.Realises g :=
    Productions.automaton_realises (Grammar.wellFormed_of_normalize hg)
  have hstates : ∀ n ∈ [3, 0], n < g.automaton.count :=
    List.forall_mem_cons.2 ⟨hlt, List.forall_mem_singleton.2 (Nat.zero_lt_of_lt hlt)⟩
  have hendless : (g.contest 3 1).Endless ⟨-1, [3, 0]⟩ :=
    .inl ((Contest.repeats_iff ha).2 ⟨_, .refl, .single hidles.1⟩)
  have hexact := (@Contest.follow_fails_iff (g.contest 3 1) _ ha [] (.reduce 0) [2]
    (List.cons_ne_nil _ _) hstates).2.2 fun x _ _ => hidles.neverSinks x
  exact ⟨g, hg, ⟨-1, [3, 0]⟩, hmem, hendless, hexact.1 hendless⟩

/-! ## What is overlooked -/

/-- A grammar is refused with a complaint of the given kind. -/
def Grammar.RefusedFor (grammar : Grammar) (bound : Nat) (kind : ConflictKind) : Prop :=
  ∃ conflict, grammar.compile bound = .error (.conflict conflict) ∧ conflict.kind = kind

instance (grammar : Grammar) (bound : Nat) (kind : ConflictKind) :
    Decidable (grammar.RefusedFor bound kind) :=
  match h : grammar.compile bound with
  | .error (.conflict conflict) =>
    decidable_of_iff (conflict.kind = kind) (by simp [Grammar.RefusedFor, h])
  | .error .startNotNonTerminal | .error (.badRule _ _) | .error (.priorityConflict _ _ _)
  | .ok _ => isFalse (by simp [Grammar.RefusedFor, h])

/-- An empty rule, after which two ways lead back to the same stack: straight through two
rules that derive `N1` and `N2` from each other, or through a rule that pops below. -/
def Grammar.converging : Grammar where
  start := .nonTerminal 0
  rules :=
    [⟨.nonTerminal 0, [.symbol (.terminal 0), .symbol (.nonTerminal 1)], 0, false⟩,
      ⟨.nonTerminal 1, [], 0, false⟩,
      ⟨.nonTerminal 2, [.symbol (.nonTerminal 0), .symbol (.nonTerminal 0)], 0, false⟩,
      ⟨.nonTerminal 2, [.symbol (.nonTerminal 1)], 0, false⟩,
      ⟨.nonTerminal 1, [.symbol (.nonTerminal 2)], 0, false⟩]
  priorities := []

/-- The rules of `converging`, with the first one moved to the end. -/
def Grammar.convergingReordered : Grammar :=
  { converging with rules := converging.rules.tail ++ converging.rules.take 1 }

/-- **An endless chain that is overlooked.**  The rule that pops below is reduced first,
and on its way the stack is come back to lying deeper; so it counts as explored when the
straight way is tried.  With the rules in another order the chain is found. -/
theorem Contest.follow_misses_converging :
    (∃ g, Grammar.converging.normalize = .ok g ∧
      ∃ c ∈ (PartialStack.single 1).reduce g.automaton g 2, (g.contest 1 1).Endless c ∧
        ∃ found, (g.contest 1 1).follow [] (.reduce 0) [2] c = .ok found) ∧
    Grammar.converging.RefusedFor 1 .lookaheadExhausted ∧
    Grammar.convergingReordered.RefusedFor 1 .endlessReduction := by
  refine ⟨?_, by decide +kernel, by decide +kernel⟩
  obtain ⟨g, hg, htest⟩ := map_eq_ok.1 (show Grammar.converging.normalize.map (fun g => decide (
      ⟨0, [4, 1]⟩ ∈ (PartialStack.single 1).reduce g.automaton g 2 ∧
      (g.contest 1 1).Reduces ⟨0, [4, 1]⟩ ⟨0, [5, 1]⟩ ∧
      (g.contest 1 1).Reduces ⟨0, [5, 1]⟩ ⟨0, [4, 1]⟩ ∧
      ((g.contest 1 1).follow [] (.reduce 0) [2] ⟨0, [4, 1]⟩).isOk)) = .ok true by decide +kernel)
  obtain ⟨hmem, hthere, hback, hok⟩ := of_decide_eq_true htest
  have ha : g.automaton.Realises g :=
    Productions.automaton_realises (Grammar.wellFormed_of_normalize hg)
  have hendless : (g.contest 1 1).Endless ⟨0, [4, 1]⟩ :=
    .inl ((Contest.repeats_iff ha).2 ⟨_, .refl, .head hthere (.single hback)⟩)
  refine ⟨g, hg, ⟨0, [4, 1]⟩, hmem, hendless, ?_⟩
  cases hfollow : (g.contest 1 1).follow [] (.reduce 0) [2] ⟨0, [4, 1]⟩ with
  | ok found => exact ⟨found, rfl⟩
  | error conflict =>
      rw [hfollow] at hok
      cases hok

end BoundedLR
