import BoundedLR.Proofs.EndingLoops
import BoundedLR.Proofs.SimulatedChains
import BoundedLR.Proofs.SimulatedLookahead

/-!
# The search as a machine

`Contest.visit` calls itself on every stack that a reduction leads to, and is given a depth
so that this stops.  Whether the depth plays a part is not to be seen from the definition.
Here the same search is run without a depth, as a loop over the stacks that are still to be
visited: `Contest.searchStep` takes the first of them and complains of its chain, passes over
it, or expands it and puts what its reductions lead to in front of the others.

The loop ends, in what `visit` comes to with the depth that `follow` gives it
(`search_ends`).  The reason is that of `visit_spec`: each stack is expanded once, and there
are fewer stacks than the depth.

What makes stacks few is an invariant of the loop (`Search.Orderly`).  Every stack that waits
is at the end of a chain of reductions.  Below its topmost state, the states that the chain
has pushed and not popped differ from one another; for when the stack before was expanded it
was not stacked on itself.  So a stack is no higher than the first one by more than the number
of states, and the one on top.
-/

namespace BoundedLR

open Relation

/-! ## How high a stack is -/

namespace PartialStack

variable {c : PartialStack} {count start settled : Nat}

/-- The states that have been pushed differ from one another, apart from the topmost. -/
theorem Met.nodup_tail_pushed (h : c.Met count start settled) :
    (c.states.take (c.states.length - settled)).tail.Nodup := by
  have hnodup := h.nodup
  rwa [List.length_tail, Nat.sub_right_comm, ← List.drop_one, ← List.drop_take, List.drop_one]
    at hnodup

/-- A stack that is met is not high. -/
theorem Met.length_le (h : c.Met count start settled) : c.states.length ≤ start + count + 1 := by
  have hlen : (c.states.tail.take (c.states.tail.length - settled)).length ≤ count :=
    length_le_of_nodup h.nodup fun n hn =>
      h.lt_count n (List.mem_of_mem_tail (List.mem_of_mem_take hn))
  rw [List.length_take, Nat.min_eq_left (Nat.sub_le _ _), List.length_tail] at hlen
  have := h.settled_le
  omega

end PartialStack

namespace Contest

variable {k : Contest} {origin c next : PartialStack} {choice : Choice} {via : List Nat}

/-! ## Chains with their productions -/

/-- A chain together with the productions that it reduces, the latest first. -/
inductive SpelledChain (k : Contest) (origin : PartialStack) :
    List Nat → List PartialStack → List Nat → PartialStack → Prop where
  | start : SpelledChain k origin [] [] [] origin
  | reduce {productions : List Nat} {trail : List PartialStack} {pushed : List Nat}
      {c next : PartialStack} {p target : Nat} :
      SpelledChain k origin productions trail pushed c → p ∈ k.reducible c →
      next ∈ c.reduce k.automaton k.productions p → next.states.head? = some target →
      SpelledChain k origin (p :: productions) (c :: trail)
        (target :: pushed.drop (k.productions.length p)) next

/-! ## The machine -/

/-- A stack that waits to be visited, after the stacks of its chain and the productions that
the chain has reduced, the latest first; `settled` of its lowest states were there before. -/
structure Visit where
  trail : List PartialStack
  reduced : List Nat
  settled : Nat
  stack : PartialStack

/-- Whether the chain could go on forever. -/
def Visit.endless (v : Visit) : Bool :=
  PartialStack.repeats v.trail v.stack || v.stack.stacksItself v.settled

/-- The visits that the reductions on the stack lead to. -/
def Visit.outcomes (k : Contest) (v : Visit) : List Visit :=
  (k.reducible v.stack).flatMap fun p =>
    (v.stack.reduce k.automaton k.productions p).map fun next =>
      ⟨v.stack :: v.trail, p :: v.reduced,
        v.stack.settledAfter v.settled (k.productions.length p), next⟩

/-- The visits that wait, the next one first, and what the search has brought up so far. -/
structure Search where
  waiting : List Visit
  survey : Survey

/-- Makes the next visit.  The search stops when none waits, or with the productions of a
chain that could go on forever. -/
def searchStep (k : Contest) (choice : Choice) (s : Search) :
    Search ⊕ Except (List Nat) Survey :=
  match s.waiting with
  | [] => .inr (.ok s.survey)
  | v :: rest =>
    if v.endless then .inr (.error v.reduced.reverse)
    else if s.survey.explored.contains v.stack.states then .inl ⟨rest, s.survey⟩
    else .inl ⟨v.outcomes k ++ rest, s.survey.enter k choice v.stack⟩

/-- The search for everything that can come next on a stack. -/
def searchFrom (via : List Nat) (c : PartialStack) : Search :=
  ⟨[⟨[], via, c.states.length, c⟩], ⟨[], []⟩⟩

/-- The search goes on. -/
def Searches (k : Contest) (choice : Choice) (s t : Search) : Prop :=
  k.searchStep choice s = .inl t

/-- What one step of the search does: it passes over a stack that has been expanded, or
expands one that has not. -/
theorem Searches.cases {s t : Search} (h : k.Searches choice s t) :
    ∃ v rest, s.waiting = v :: rest ∧ v.endless = false ∧
      ((v.stack.states ∈ s.survey.explored ∧ t = ⟨rest, s.survey⟩) ∨
        (v.stack.states ∉ s.survey.explored ∧
          t = ⟨v.outcomes k ++ rest, s.survey.enter k choice v.stack⟩)) := by
  rw [Searches, searchStep] at h
  split at h
  · cases h
  · rename_i v rest hwaiting
    split at h
    · cases h
    · rename_i hendless
      refine ⟨v, rest, hwaiting, Bool.eq_false_iff.2 hendless, ?_⟩
      split at h
      · rename_i hseen
        exact .inl ⟨List.contains_iff_mem.1 hseen, (Sum.inl.inj h).symm⟩
      · rename_i hnew
        exact .inr ⟨fun hmem => hnew (List.contains_iff_mem.2 hmem), (Sum.inl.inj h).symm⟩

/-- A loop that goes on to a state from which it ends, ends. -/
theorem exists_endsIn_of_searches {s t : Search} {result : Except (List Nat) Survey}
    (h : ReflTransGen (k.Searches choice) s t)
    (ht : ∃ n, EndsIn (k.searchStep choice) n t result) :
    ∃ n, EndsIn (k.searchStep choice) n s result := by
  induction h using ReflTransGen.head_induction_on with
  | refl => exact ht
  | head hstep _ ih =>
      obtain ⟨n, hends⟩ := ih
      exact ⟨n + 1, .next hstep hends⟩

/-! ## What waits -/

/-- A visit at the end of a chain, as the search comes to it. -/
structure Visit.Orderly (k : Contest) (origin : PartialStack) (via : List Nat) (v : Visit) :
    Prop where
  met : v.stack.Met k.automaton.count origin.states.length v.settled
  chain : ∃ productions, v.reduced = productions ++ via ∧
    k.SpelledChain origin productions v.trail
      (v.stack.states.take (v.stack.states.length - v.settled)) v.stack

/-- No stack has been expanded twice, and all that waits is in order. -/
structure Search.Orderly (k : Contest) (origin : PartialStack) (via : List Nat) (s : Search) :
    Prop where
  nodup : s.survey.explored.Nodup
  waiting : ∀ v ∈ s.waiting, v.Orderly k origin via

theorem Search.Orderly.initial (hne : c.states ≠ [])
    (hc : ∀ n ∈ c.states, n < k.automaton.count) : (searchFrom via c).Orderly k c via := by
  refine ⟨List.nodup_nil, List.forall_mem_singleton.2 ⟨.initial hne hc, [], rfl, ?_⟩⟩
  rw [Nat.sub_self, List.take_zero]
  exact .start

/-- What the reductions on a stack lead to is at the end of a longer chain. -/
theorem Visit.Orderly.outcomes (ha : k.automaton.Realises k.productions)
    (hpos : 0 < origin.states.length) {v : Visit} (h : v.Orderly k origin via)
    (hendless : v.endless = false) : ∀ w ∈ v.outcomes k, w.Orderly k origin via := by
  intro w hw
  obtain ⟨p, hp, hw⟩ := List.mem_flatMap.1 hw
  obtain ⟨next, hn, rfl⟩ := List.mem_map.1 hw
  obtain ⟨productions, hreduced, hchain⟩ := h.chain
  obtain ⟨target, hhead⟩ := PartialStack.exists_head?_of_mem_reduce ha hn
  have hstacks : v.stack.stacksItself v.settled = false := (Bool.or_eq_false_iff.1 hendless).2
  refine ⟨h.met.reduce ha hpos hstacks hn, p :: productions, congrArg (p :: ·) hreduced, ?_⟩
  exact pushed_eq_take ha rfl hn hhead ▸ hchain.reduce hp hn hhead

/-- **One step keeps the search in order.** -/
theorem Search.Orderly.step (ha : k.automaton.Realises k.productions)
    (hpos : 0 < origin.states.length) {s t : Search} (h : s.Orderly k origin via)
    (hstep : k.Searches choice s t) : t.Orderly k origin via := by
  obtain ⟨v, rest, hwaiting, hendless, ⟨-, rfl⟩ | ⟨hnew, rfl⟩⟩ := hstep.cases
  all_goals
    obtain ⟨hv, hrest⟩ := List.forall_mem_cons.1 (hwaiting ▸ h.waiting)
  · exact ⟨h.nodup, hrest⟩
  · refine ⟨List.nodup_cons.2 ⟨hnew, h.nodup⟩, fun w hw => ?_⟩
    rcases List.mem_append.1 hw with hw | hw
    · exact hv.outcomes ha hpos hendless w hw
    · exact hrest w hw

/-- **The search stays in order** all along. -/
theorem orderly_of_searches (ha : k.automaton.Realises k.productions)
    (hc : c.Within k.automaton.count) {s : Search}
    (h : ReflTransGen (k.Searches choice) (searchFrom via c) s) : s.Orderly k c via := by
  induction h with
  | refl => exact .initial hc.ne_nil hc.lt_count
  | tail _ hstep ih => exact ih.step ha (List.length_pos_iff.2 hc.ne_nil) hstep

/-! ## The machine comes to what the recursion comes to -/

/-- The search makes some visits, and all that they lead to, with the given outcome: it goes
on to the visits behind them with a later survey, or stops with a complaint. -/
def WorksOff (k : Contest) (choice : Choice) (visits : List Visit) (survey : Survey) :
    Except (List Nat) Survey → Prop
  | .ok after => ∀ rest,
      ReflTransGen (k.Searches choice) ⟨visits ++ rest, survey⟩ ⟨rest, after⟩
  | .error blamed => ∀ rest,
      ∃ n, EndsIn (k.searchStep choice) n ⟨visits ++ rest, survey⟩ (.error blamed)

namespace WorksOff

variable {visits others : List Visit} {v : Visit} {survey between : Survey}
  {outcome : Except (List Nat) Survey}

theorem append (h : k.WorksOff choice visits survey (.ok between))
    (h' : k.WorksOff choice others between outcome) :
    k.WorksOff choice (visits ++ others) survey outcome := by
  cases outcome with
  | ok after =>
      intro rest
      rw [List.append_assoc]
      exact (h (others ++ rest)).trans (h' rest)
  | error blamed =>
      intro rest
      rw [List.append_assoc]
      exact exists_endsIn_of_searches (h (others ++ rest)) (h' rest)

/-- After a complaint nothing else is visited. -/
theorem append_error {blamed : List Nat} (h : k.WorksOff choice visits survey (.error blamed)) :
    k.WorksOff choice (visits ++ others) survey (.error blamed) := by
  intro rest
  rw [List.append_assoc]
  exact h (others ++ rest)

/-- A chain that could go on forever is complained of. -/
theorem complain (hendless : v.endless = true) :
    k.WorksOff choice [v] survey (.error v.reduced.reverse) :=
  fun _ => ⟨0, .stop (if_pos hendless)⟩

/-- A stack that has been expanded before is passed over. -/
theorem pass (hendless : v.endless = false) (hseen : v.stack.states ∈ survey.explored) :
    k.WorksOff choice [v] survey (.ok survey) := by
  refine fun rest => .single ?_
  rw [Searches, searchStep, List.singleton_append]
  dsimp only
  rw [if_neg (Bool.eq_false_iff.1 hendless), if_pos (List.contains_iff_mem.2 hseen)]

/-- Any other stack is expanded, and what its reductions lead to is visited. -/
theorem enter (hendless : v.endless = false) (hnew : v.stack.states ∉ survey.explored)
    (h : k.WorksOff choice (v.outcomes k) (survey.enter k choice v.stack) outcome) :
    k.WorksOff choice [v] survey outcome := by
  have hstep : ∀ rest, k.Searches choice ⟨[v] ++ rest, survey⟩
      ⟨v.outcomes k ++ rest, survey.enter k choice v.stack⟩ := by
    intro rest
    rw [Searches, searchStep, List.singleton_append]
    dsimp only
    rw [if_neg (Bool.eq_false_iff.1 hendless),
      if_neg fun hseen => hnew (List.contains_iff_mem.1 hseen)]
  cases outcome with
  | ok after => exact fun rest => (h rest).head (hstep rest)
  | error blamed => exact fun rest => exists_endsIn_of_searches (.single (hstep rest)) (h rest)

/-- Visits that the steps of a fold make follow each other. -/
theorem foldlM {α : Type} {f : Survey → α → Except (List Nat) Survey} {visits : α → List Visit}
    {P : Survey → Prop} {xs : List α}
    (hf : ∀ s x, x ∈ xs → P s → k.WorksOff choice (visits x) s (f s x) ∧
      ∀ s', f s x = .ok s' → P s') (hs : P survey) :
    k.WorksOff choice (xs.flatMap visits) survey (xs.foldlM f survey) := by
  induction xs generalizing survey with
  | nil => exact fun rest => .refl
  | cons x xs ih =>
      rw [List.foldlM_cons, List.flatMap_cons]
      obtain ⟨hworks, hkeeps⟩ := hf survey x List.mem_cons_self hs
      cases hx : f survey x with
      | ok s =>
          rw [hx] at hworks
          exact hworks.append (ih (fun t y hy => hf t y (List.mem_cons_of_mem _ hy)) (hkeeps s hx))
      | error blamed =>
          rw [hx] at hworks
          exact hworks.append_error

end WorksOff

/-- **The machine does what the recursion does.** -/
theorem worksOff_visit (ha : k.automaton.Realises k.productions) {start : Nat}
    (hpos : 0 < start) {depth : Nat} {trail : List PartialStack} {reduced : List Nat}
    {settled : Nat} {survey : Survey} (hc : c.Met k.automaton.count start settled)
    (hroom : survey.Room k start depth) :
    k.WorksOff choice [⟨trail, reduced, settled, c⟩] survey
      (k.visit choice depth trail reduced settled c survey) := by
  induction depth generalizing trail reduced settled c survey with
  | zero => exact absurd rfl (hroom.depth_ne_zero ha)
  | succ depth ih =>
      rw [visit]
      split
      · rename_i hendless
        exact .complain hendless
      · rename_i hendless
        have hendless : Visit.endless ⟨trail, reduced, settled, c⟩ = false :=
          Bool.eq_false_iff.2 hendless
        have hstacks : c.stacksItself settled = false := (Bool.or_eq_false_iff.1 hendless).2
        split
        · rename_i hseen
          exact .pass hendless (List.contains_iff_mem.1 hseen)
        · rename_i hnew
          have hnew : c.states ∉ survey.explored := fun hmem =>
            hnew (List.contains_iff_mem.2 hmem)
          -- every survey behind the entry extends the one with the stack entered
          have hkeeps : ∀ p s next s', next ∈ c.reduce k.automaton k.productions p →
              (survey.enter k choice c).Extends k choice start s →
              k.visit choice depth (c :: trail) (p :: reduced)
                (c.settledAfter settled (k.productions.length p)) next s = .ok s' →
              (survey.enter k choice c).Extends k choice start s' := by
            intro p s next s' hn hext hs'
            exact hext.trans (visit_spec ha hpos (hc.reduce ha hpos hstacks hn)
              (hroom.deeper hc hstacks hnew hext) hs').1
          have hentered : (survey.enter k choice c).Extends k choice start
              (survey.enter k choice c) := .refl _
          refine .enter hendless hnew (.foldlM (fun t p _ ht => ⟨?_, fun t' ht' => ?_⟩) hentered)
          · rw [List.map_eq_flatMap]
            refine .foldlM (fun u next hn hu => ⟨?_, fun u' hu' => hkeeps p u next u' hn hu hu'⟩) ht
            exact ih (hc.reduce ha hpos hstacks hn) (hroom.deeper hc hstacks hnew hu)
          · exact foldlM_keeps (fun u next u' hn hu hu' => hkeeps p u next u' hn hu hu') ht ht'

/-- **The search ends**, in what the recursion comes to. -/
theorem search_ends (ha : k.automaton.Realises k.productions) (hc : c.Within k.automaton.count) :
    ∃ n, EndsIn (k.searchStep choice) n (searchFrom via c)
      (k.visit choice (k.depthBound c.states.length) [] via c.states.length c ⟨[], []⟩) := by
  have hworks : k.WorksOff choice (searchFrom via c).waiting ⟨[], []⟩
      (k.visit choice (k.depthBound c.states.length) [] via c.states.length c ⟨[], []⟩) :=
    worksOff_visit ha (List.length_pos_iff.2 hc.ne_nil) (.initial hc.ne_nil hc.lt_count)
      (.initial ha c.states.length)
  cases hvisit : k.visit choice (k.depthBound c.states.length) [] via c.states.length c
      ⟨[], []⟩ with
  | ok survey =>
      rw [hvisit] at hworks
      exact exists_endsIn_of_searches (hworks []) ⟨0, .stop rfl⟩
  | error blamed =>
      rw [hvisit] at hworks
      exact hworks []

end Contest
end BoundedLR
