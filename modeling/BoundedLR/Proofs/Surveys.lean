import Mathlib.Data.Nat.Digits.Defs
import BoundedLR.Proofs.DecisionTries
import BoundedLR.Proofs.PartialStacks
import BoundedLR.Proofs.StackRuns

/-!
# Following a choice finds every continuation

`Contest.visit` goes through the stacks that chains of reductions lead to, in
depth.  When it succeeds, every stack that it has explored has been *expanded*:
the terminals that can be shifted on it have been found, and the outcomes of its
reductions have been explored in their turn.  Together with
`PartialStack.covers_reduce` this says that no continuation of a real stack is
missed (`Contest.foretells_of_follow`).

The search is given a depth, and would silently stop if it were used up.  It is
not: each stack on the way is explored for the first time, and there are fewer
stacks than the depth.  For the search refuses to stack a state on itself, so a
stack consists of states that it began with and of pushed states, which differ
from one another.
-/

namespace BoundedLR

/-- What each step of a fold leads to, and what it establishes for its member. -/
theorem foldlM_reaches {ε α γ : Type} {f : γ → α → Except ε γ} {R : γ → γ → Prop}
    {Q : α → γ → Prop} (hrefl : ∀ s, R s s)
    (htrans : ∀ {s t u}, R s t → R t u → R s u)
    (hQ : ∀ {x s t}, R s t → Q x s → Q x t) {xs : List α} {s s' : γ}
    (hf : ∀ t x t', x ∈ xs → R s t → f t x = .ok t' → R t t' ∧ Q x t')
    (h : xs.foldlM f s = .ok s') : R s s' ∧ ∀ x ∈ xs, Q x s' := by
  induction xs generalizing s with
  | nil =>
      cases h
      exact ⟨hrefl _, fun x hx => absurd hx List.not_mem_nil⟩
  | cons x xs ih =>
      rw [List.foldlM_cons, bind_eq_ok] at h
      obtain ⟨t, ht, h⟩ := h
      obtain ⟨hst, hx⟩ := hf s x t List.mem_cons_self (hrefl s) ht
      obtain ⟨hts', hxs⟩ := ih (fun u y u' hy htu => hf u y u' (List.mem_cons_of_mem _ hy)
        (htrans hst htu)) h
      refine ⟨htrans hst hts', fun y hy => ?_⟩
      rcases List.mem_cons.1 hy with rfl | hy
      · exact hQ hts' hx
      · exact hxs y hy

/-! ## Counting stacks -/

/-- The stacks of limited height over finitely many states. -/
def Shelf (count height : Nat) (states : List Nat) : Prop :=
  (∀ n ∈ states, n < count) ∧ states.length ≤ height

/-- There are only so many stacks. -/
theorem length_le_of_shelf {count height : Nat} (hpos : 0 < count) {family : List (List Nat)}
    (hn : family.Nodup) (hs : ∀ w ∈ family, Shelf count height w) :
    family.length ≤ (count + 1) ^ height := by
  have hdigits : ∀ w ∈ family, ∀ d ∈ w.map Nat.succ, d < count + 1 := by
    intro w hw d hd
    obtain ⟨n, hn, rfl⟩ := List.mem_map.1 hd
    exact Nat.succ_lt_succ ((hs w hw).1 n hn)
  have hread : ∀ w ∈ family,
      Nat.digits (count + 1) (Nat.ofDigits (count + 1) (w.map Nat.succ)) = w.map Nat.succ := by
    intro w hw
    refine Nat.digits_ofDigits _ (by omega) _ (hdigits w hw) fun hne => ?_
    obtain ⟨n, -, hn⟩ := List.mem_map.1 (List.getLast_mem hne)
    rw [← hn]
    exact Nat.succ_ne_zero n
  have hinj : ∀ w ∈ family, ∀ v ∈ family, Nat.ofDigits (count + 1) (w.map Nat.succ) =
      Nat.ofDigits (count + 1) (v.map Nat.succ) → w = v := by
    intro w hw v hv heq
    have hmap : w.map Nat.succ = v.map Nat.succ := by rw [← hread w hw, heq, hread v hv]
    exact List.map_injective_iff.2 Nat.succ_injective hmap
  have hlt : ∀ c ∈ family.map fun w => Nat.ofDigits (count + 1) (w.map Nat.succ),
      c < (count + 1) ^ height := by
    intro c hc
    obtain ⟨w, hw, rfl⟩ := List.mem_map.1 hc
    calc Nat.ofDigits (count + 1) (w.map Nat.succ)
        < (count + 1) ^ (w.map Nat.succ).length :=
          Nat.ofDigits_lt_base_pow_length (by omega) (hdigits w hw)
      _ ≤ (count + 1) ^ height := by
          rw [List.length_map]
          exact Nat.pow_le_pow_right (Nat.succ_pos count) (hs w hw).2
  have hnodup : (family.map fun w => Nat.ofDigits (count + 1) (w.map Nat.succ)).Nodup :=
    hn.map_on fun w hw v hv => hinj w hw v hv
  calc family.length
      = (family.map fun w => Nat.ofDigits (count + 1) (w.map Nat.succ)).toFinset.card := by
        rw [List.toFinset_card_of_nodup hnodup, List.length_map]
    _ ≤ (Finset.range ((count + 1) ^ height)).card := by
        refine Finset.card_le_card fun c hc => ?_
        exact Finset.mem_range.2 (hlt c (List.mem_toFinset.1 hc))
    _ = (count + 1) ^ height := Finset.card_range _

/-- There are only so many states that differ from one another. -/
theorem length_le_of_nodup {count : Nat} {states : List Nat} (hn : states.Nodup)
    (hlt : ∀ n ∈ states, n < count) : states.length ≤ count :=
  calc states.length
      ≤ (List.range count).length :=
        (List.subperm_of_subset hn fun n hmem => List.mem_range.2 (hlt n hmem)).length_le
    _ = count := List.length_range

namespace PartialStack

variable {a : Automaton} {g : Productions} {c next : PartialStack} {count start settled p : Nat}

/-- A stack as the search meets it: the states between the topmost and those that
were there before the chain began differ from one another. -/
structure Met (count start settled : Nat) (c : PartialStack) : Prop where
  lt_count : ∀ n ∈ c.states, n < count
  settled_le : settled ≤ start
  nodup : (c.states.tail.take (c.states.tail.length - settled)).Nodup

/-- Before a chain begins, nothing has been pushed. -/
theorem Met.initial (hne : c.states ≠ []) (hc : ∀ n ∈ c.states, n < count) :
    c.Met count c.states.length c.states.length := by
  have hpos := List.length_pos_iff.2 hne
  refine ⟨hc, Nat.le_refl _, ?_⟩
  rw [List.length_tail, Nat.sub_eq_zero_of_le (by omega)]
  exact List.nodup_nil

/-- If the topmost state is not among them either, the stack is not high. -/
theorem Met.nodup_pushed (h : c.Met count start settled) (hs : c.stacksItself settled = false) :
    (c.states.take (c.states.length - settled)).Nodup := by
  have hnodup := h.nodup
  rw [stacksItself] at hs
  split at hs
  · rename_i hnil
    rw [hnil, List.take_nil]
    exact List.nodup_nil
  · rename_i top below hstates
    rw [hstates, List.tail_cons] at hnodup
    rw [hstates, List.length_cons]
    by_cases hle : settled ≤ below.length
    · rw [Nat.succ_sub hle, List.take_succ_cons]
      refine List.nodup_cons.2 ⟨fun hmem => ?_, hnodup⟩
      rw [List.contains_iff_mem.2 hmem] at hs
      cases hs
    · rw [Nat.sub_eq_zero_of_le (by omega)]
      exact List.nodup_nil

theorem Met.shelf (h : c.Met count start settled) (hs : c.stacksItself settled = false) :
    Shelf count (start + count) c.states := by
  refine ⟨h.lt_count, ?_⟩
  have hlen : (c.states.take (c.states.length - settled)).length ≤ count :=
    length_le_of_nodup (h.nodup_pushed hs) fun n hn => h.lt_count n (List.mem_of_mem_take hn)
  rw [List.length_take, Nat.min_eq_left (Nat.sub_le _ _)] at hlen
  have := h.settled_le
  omega

/-- The outcomes of a reduction are met in the same way. -/
theorem Met.reduce (ha : a.Realises g) (h : c.Met a.count start settled) (hpos : 0 < start)
    (hs : c.stacksItself settled = false) (hn : next ∈ c.reduce a g p) :
    next.Met a.count start (c.settledAfter settled (g.length p)) := by
  obtain ⟨target, htarget, ⟨hlen, hstates⟩ | ⟨hlen, last, hlast, hstates⟩⟩ :=
    mem_reduce_cases ha hn
  · have hmin : min settled (c.states.length - g.length p) ≤ settled := Nat.min_le_left _ _
    rw [settledAfter, if_pos hlen]
    refine ⟨?_, Nat.le_trans hmin h.settled_le, ?_⟩
    · intro n hn
      rw [hstates] at hn
      rcases List.mem_cons.1 hn with rfl | hn
      · exact htarget
      · exact h.lt_count n (List.mem_of_mem_drop hn)
    · rw [hstates, List.tail_cons, List.length_drop]
      by_cases hle : settled ≤ c.states.length - g.length p
      · rw [Nat.min_eq_left hle]
        have hsub : (c.states.drop (g.length p)).take (c.states.length - g.length p - settled) =
            (c.states.take (c.states.length - settled)).drop (g.length p) := by
          rw [List.drop_take]
          congr 1
          omega
        rw [hsub]
        exact (h.nodup_pushed hs).sublist (List.drop_sublist _ _)
      · rw [Nat.min_eq_right (Nat.le_of_not_le hle), Nat.sub_self]
        exact List.nodup_nil
  · rw [settledAfter, if_neg (Nat.not_lt_of_le hlen)]
    refine ⟨?_, hpos, ?_⟩
    · intro n hn
      rw [hstates] at hn
      rcases List.mem_cons.1 hn with rfl | hn
      · exact htarget
      · rw [List.mem_singleton.1 hn]
        exact hlast
    · rw [hstates]
      exact List.nodup_nil

end PartialStack

namespace Contest

variable {k : Contest} {choice : Choice} {survey after : Survey} {w : List Nat} {start : Nat}

/-! ## Surveys -/

/-- A stack has been expanded: what can be shifted on it has been found, and the
outcomes of its reductions have been explored. -/
structure Survey.Expands (k : Contest) (choice : Choice) (survey : Survey) (w : List Nat) :
    Prop where
  shifts : ∀ c : PartialStack, c.states = w → k.shifts choice c ⊆ survey.found
  reductions : ∀ c next : PartialStack, ∀ p, c.states = w → p ∈ k.reducible c →
    next ∈ c.reduce k.automaton k.productions p → next.states ∈ survey.explored

/-- A later survey of the same search. -/
structure Survey.Extends (k : Contest) (choice : Choice) (start : Nat) (survey after : Survey) :
    Prop where
  explored : survey.explored ⊆ after.explored
  found : survey.found ⊆ after.found
  nodup : survey.explored.Nodup → after.explored.Nodup
  shelf : (∀ w ∈ survey.explored, Shelf k.automaton.count (start + k.automaton.count) w) →
    ∀ w ∈ after.explored, Shelf k.automaton.count (start + k.automaton.count) w
  expands : ∀ w ∈ after.explored, w ∈ survey.explored ∨ after.Expands k choice w

namespace Survey

theorem Expands.mono (h : survey.Expands k choice w) (he : survey.explored ⊆ after.explored)
    (hf : survey.found ⊆ after.found) : after.Expands k choice w :=
  ⟨fun c hc => List.Subset.trans (h.shifts c hc) hf,
    fun c next p hc hp hn => he (h.reductions c next p hc hp hn)⟩

theorem Extends.refl (s : Survey) : s.Extends k choice start s :=
  ⟨fun _ h => h, fun _ h => h, id, id, fun _ h => .inl h⟩

theorem Extends.trans {s t u : Survey} (h : s.Extends k choice start t)
    (h' : t.Extends k choice start u) : s.Extends k choice start u := by
  refine ⟨List.Subset.trans h.explored h'.explored, List.Subset.trans h.found h'.found,
    fun hn => h'.nodup (h.nodup hn), fun hs => h'.shelf (h.shelf hs), fun w hw => ?_⟩
  rcases h'.expands w hw with hw | hw
  · rcases h.expands w hw with hw | hw
    · exact .inl hw
    · exact .inr (hw.mono h'.explored h'.found)
  · exact .inr hw

end Survey

/-- The survey after a stack has been expanded. -/
def Survey.enter (k : Contest) (choice : Choice) (c : PartialStack) (survey : Survey) : Survey :=
  ⟨c.states :: survey.explored, k.shifts choice c ++ survey.found⟩

/-- The survey of a search in which the given depth is not going to be used up: with what has
been explored it exceeds the number of stacks. -/
structure Survey.Room (k : Contest) (start depth : Nat) (survey : Survey) : Prop where
  nodup : survey.explored.Nodup
  shelf : ∀ w ∈ survey.explored, Shelf k.automaton.count (start + k.automaton.count) w
  depth : (k.automaton.count + 1) ^ (start + k.automaton.count) < depth + survey.explored.length

namespace Survey.Room

variable {c : PartialStack} {depth settled : Nat}

/-- Some depth is left. -/
theorem depth_ne_zero (ha : k.automaton.Realises k.productions) (h : survey.Room k start depth) :
    depth ≠ 0 := by
  have hle := length_le_of_shelf ha.count_pos h.nodup h.shelf
  have hlt := h.depth
  omega

/-- What has been explored once a stack is entered. -/
theorem entered (h : survey.Room k start (depth + 1)) (hc : c.Met k.automaton.count start settled)
    (hstacks : c.stacksItself settled = false) (hnew : c.states ∉ survey.explored) :
    (c.states :: survey.explored).Nodup ∧
      ∀ w ∈ c.states :: survey.explored,
        Shelf k.automaton.count (start + k.automaton.count) w :=
  ⟨List.nodup_cons.2 ⟨hnew, h.nodup⟩,
    List.forall_mem_cons.2 ⟨hc.shelf hstacks, h.shelf⟩⟩

/-- Expanding a stack takes one off the depth, and adds one to what has been explored. -/
theorem deeper {later : Survey} (h : survey.Room k start (depth + 1))
    (hc : c.Met k.automaton.count start settled) (hstacks : c.stacksItself settled = false)
    (hnew : c.states ∉ survey.explored)
    (hext : (survey.enter k choice c).Extends k choice start later) : later.Room k start depth := by
  obtain ⟨hnodup, hshelf⟩ := h.entered hc hstacks hnew
  have hlen : (c.states :: survey.explored).length ≤ later.explored.length :=
    (List.subperm_of_subset hnodup hext.explored).length_le
  have hdepth := h.depth
  rw [List.length_cons] at hlen
  exact ⟨hext.nodup hnodup, hext.shelf hshelf, by omega⟩

end Survey.Room

/-- The stack under expansion, before anything has been found from there on. -/
theorem mem_shifts_of_states_eq {c c' : PartialStack} (h : c.states = c'.states) :
    k.shifts choice c = k.shifts choice c' := by
  rw [shifts, shifts, h]
  split
  · rfl
  · simp only [PartialStack.push, h]

theorem reducible_eq {c c' : PartialStack} (h : c.states = c'.states) :
    k.reducible c = k.reducible c' := by
  rw [reducible, reducible, h]

/-- A survey extends the earlier one if it extends what that has become when a stack
was entered, and has explored the outcomes of all reductions on the stack. -/
theorem Survey.Extends.of_entered {c : PartialStack}
    (hnodup : (c.states :: survey.explored).Nodup)
    (hshelf : ∀ w ∈ c.states :: survey.explored,
      Shelf k.automaton.count (start + k.automaton.count) w)
    (hext : Survey.Extends k choice start
      ⟨c.states :: survey.explored, k.shifts choice c ++ survey.found⟩ after)
    (hall : ∀ p ∈ k.reducible c, ∀ next ∈ c.reduce k.automaton k.productions p,
      next.states ∈ after.explored) :
    survey.Extends k choice start after ∧ c.states ∈ after.explored := by
  have hexpands : after.Expands k choice c.states := by
    refine ⟨fun d hd e he => hext.found (List.mem_append_left _ ?_),
      fun d next p hd hp hn => ?_⟩
    · rw [← mem_shifts_of_states_eq hd]
      exact he
    · rw [reducible_eq hd] at hp
      obtain ⟨same, hsame, hstates⟩ := PartialStack.exists_mem_reduce hd.symm hn
      rw [← hstates]
      exact hall p hp same hsame
  refine ⟨⟨fun w hw => hext.explored (List.mem_cons_of_mem _ hw),
    fun d hd => hext.found (List.mem_append_right _ hd), fun _ => hext.nodup hnodup,
    fun _ => hext.shelf hshelf, fun w hw => ?_⟩, hext.explored List.mem_cons_self⟩
  rcases hext.expands w hw with hw | hw
  · rcases List.mem_cons.1 hw with rfl | hw
    · exact .inr hexpands
    · exact .inl hw
  · exact .inr hw

/-- **The search expands what it explores.**  The depth is never used up, since it
exceeds the number of stacks that can still be explored. -/
theorem visit_spec (ha : k.automaton.Realises k.productions) (hpos : 0 < start) {depth : Nat}
    {trail : List PartialStack} {reduced : List Nat} {settled : Nat} {c : PartialStack}
    (hc : c.Met k.automaton.count start settled) (hroom : survey.Room k start depth)
    (h : k.visit choice depth trail reduced settled c survey = .ok after) :
    survey.Extends k choice start after ∧ c.states ∈ after.explored := by
  induction depth generalizing trail reduced settled c survey after with
  | zero => exact absurd rfl (hroom.depth_ne_zero ha)
  | succ depth ih =>
      rw [visit] at h
      split at h
      · cases h
      · rename_i hloop
        rw [Bool.or_eq_true, not_or] at hloop
        have hstacks : c.stacksItself settled = false := Bool.eq_false_iff.2 hloop.2
        split at h
        · rename_i hseen
          cases Except.ok.inj h
          exact ⟨.refl _, List.contains_iff_mem.1 hseen⟩
        · rename_i hnew
          have hnew' : c.states ∉ survey.explored := fun hmem =>
            hnew (List.contains_iff_mem.2 hmem)
          -- every survey of the two folds extends the one with the new stack entered
          have hfold := foldlM_reaches (R := Survey.Extends k choice start)
            (Q := fun p s => ∀ next ∈ c.reduce k.automaton k.productions p,
              next.states ∈ s.explored)
            Survey.Extends.refl Survey.Extends.trans
            (fun hst hq next hn => hst.explored (hq next hn)) (fun t p t' _ hst ht => ?_) h
          · obtain ⟨hnodup, hshelf⟩ := hroom.entered hc hstacks hnew'
            exact Survey.Extends.of_entered hnodup hshelf hfold.1 hfold.2
          · refine foldlM_reaches (R := Survey.Extends k choice start)
              (Q := fun next s => next.states ∈ s.explored)
              Survey.Extends.refl Survey.Extends.trans
              (fun htu hq => htu.explored hq) (fun u next u' hnext htu hu => ?_) ht
            exact ih (hc.reduce ha hpos hstacks hnext)
              (hroom.deeper hc hstacks hnew' (hst.trans htu)) hu

/-- The depth of the search exceeds the number of stacks. -/
theorem lt_depthBound (ha : k.automaton.Realises k.productions) (length : Nat) :
    (k.automaton.count + 1) ^ (length + k.automaton.count) < k.depthBound length := by
  have hbase : 1 < k.automaton.count + 1 := Nat.succ_lt_succ ha.count_pos
  exact Nat.pow_lt_pow_right hbase (by omega)

/-- So there is room for a search from the beginning. -/
theorem Survey.Room.initial (ha : k.automaton.Realises k.productions) (length : Nat) :
    Survey.Room k length (k.depthBound length) ⟨[], []⟩ :=
  ⟨List.nodup_nil, fun _ hw => absurd hw List.not_mem_nil, lt_depthBound ha length⟩

/-- A survey of everything that can come next on a stack. -/
theorem follow_spec (ha : k.automaton.Realises k.productions) {lookahead : List Symbol}
    {via : List Nat} {c : PartialStack} {found : List Continuation} (hne : c.states ≠ [])
    (hc : ∀ n ∈ c.states, n < k.automaton.count)
    (h : k.follow lookahead choice via c = .ok found) :
    ∃ survey : Survey, survey.found = found ∧ c.states ∈ survey.explored ∧
      ∀ w ∈ survey.explored, survey.Expands k choice w := by
  rw [follow] at h
  split at h
  · rename_i survey hsurvey
    cases Except.ok.inj h
    obtain ⟨hext, hmem⟩ := visit_spec ha (List.length_pos_iff.2 hne) (.initial hne hc)
      (.initial ha c.states.length) hsurvey
    refine ⟨survey, rfl, hmem, fun w hw => ?_⟩
    rcases hext.expands w hw with hw | hw
    · exact absurd hw List.not_mem_nil
    · exact hw
  · cases h

end Contest
end BoundedLR
