import BoundedLR.Proofs.ReachableSessions
import BoundedLR.Proofs.RecordedTrees
import BoundedLR.Proofs.Soundness

/-!
# Offsets delimit subtrees

The steps of a parse are one flat list, into whose past announcements are inserted while
the parse goes on, and an entry of the stack knows of its element no more than the place
in the list where its steps begin.  This module shows that nothing gets mixed up: the
list is always made of the traces of trees, one for each entry above the lowest, and each
entry knows where the trace of its tree begins (`Record.Delimits`).

That takes very little of the table.  A reduction that pops elements has found a node
under them, so there is a tree for each of its elements.  So the statement is about every
table, whether it makes sense or not, and whatever its reductions claim to be; the trees
are therefore labelled by what is reduced, instead of by productions.

What it means for announcements is read off the trees.  `Tree.OccursAt` says that a tree
is part of neighbouring trees, and where its steps begin among theirs.  An announcement
stands where the steps of the node begin that it announces, and there is no other
(`announces_iff`).  So it never stands among the steps of a tree that it is not part of,
and of two nodes that begin at the same place the enclosing one is announced first.
-/

namespace BoundedLR
namespace Tree

variable {β : Type} {property : β → ReductionProperty} {ts us children : List (Tree β)}
  {t u : Tree β} {label : β} {k n : Nat} {s : Symbol} {mask : UInt64} {rule : Nat}

/-! ## Parts of trees -/

/-- Part of neighbouring trees is a tree whose steps begin at a given place of theirs. -/
inductive OccursAt (property : β → ReductionProperty) : List (Tree β) → Nat → Tree β → Prop where
  | here (ts us : List (Tree β)) (t : Tree β) :
      OccursAt property (ts ++ t :: us) (traceOfAll property ts).length t
  | inside (ts us : List (Tree β)) {label : β} {children : List (Tree β)} {k : Nat} {t : Tree β} :
      OccursAt property children k t →
      OccursAt property (ts ++ .node label children :: us)
        ((traceOfAll property ts).length + ((announcement (property label)).length + k)) t

namespace OccursAt

/-- More trees behind. -/
theorem append (h : OccursAt property ts k t) (us : List (Tree β)) :
    OccursAt property (ts ++ us) k t := by
  cases h with
  | here ts vs t =>
      rw [List.append_assoc, List.cons_append]
      exact .here ts (vs ++ us) t
  | inside ts vs h =>
      rw [List.append_assoc, List.cons_append]
      exact .inside ts (vs ++ us) h

/-- More trees in front. -/
theorem prepend (h : OccursAt property us k t) (ts : List (Tree β)) :
    OccursAt property (ts ++ us) ((traceOfAll property ts).length + k) t := by
  cases h with
  | here us vs t =>
      rw [← List.append_assoc, ← List.length_append, ← traceOfAll_append]
      exact .here (ts ++ us) vs t
  | inside us vs h =>
      rw [← List.append_assoc, ← Nat.add_assoc, ← List.length_append, ← traceOfAll_append]
      exact .inside (ts ++ us) vs h

/-- Part of a child is part of the node. -/
theorem of_child (h : OccursAt property ts k (.node label children))
    (hu : OccursAt property children n u) :
    OccursAt property ts (k + ((announcement (property label)).length + n)) u := by
  generalize hnode : Tree.node label children = t at h
  induction h with
  | here ts us t =>
      subst hnode
      exact .inside ts us hu
  | inside ts us _ ih =>
      rw [Nat.add_assoc, Nat.add_assoc]
      exact .inside ts us (ih hnode)

/-- **A part has its trace** where it occurs. -/
theorem exists_traceOfAll (h : OccursAt property ts k t) : ∃ before after,
    traceOfAll property ts = before ++ (t.trace property ++ after) ∧ before.length = k := by
  induction h with
  | here ts us t =>
      exact ⟨_, traceOfAll property us, by rw [traceOfAll_append, traceOfAll], rfl⟩
  | @inside ts us label children k t _ ih =>
      obtain ⟨before, after, htrace, rfl⟩ := ih
      refine ⟨traceOfAll property ts ++ (announcement (property label) ++ before),
        after ++ ([.reduce (property label).head (property label).mask (property label).rule
          children.length (property label).predict] ++ traceOfAll property us), ?_, ?_⟩
      · rw [traceOfAll_append, traceOfAll, trace, htrace]
        simp only [List.append_assoc]
      · rw [List.length_append, List.length_append]

end OccursAt

/-! ## Announcements -/

/-- At a place among the steps of neighbouring trees the steps of a node begin that is
announced by the given step. -/
def AnnouncedAt (property : β → ReductionProperty) (ts : List (Tree β)) (k : Nat) (step : Step) :
    Prop :=
  ∃ label children, OccursAt property ts k (.node label children) ∧
    (property label).predict = true ∧
    step = .predict (property label).head (property label).mask (property label).rule

namespace AnnouncedAt

variable {step : Step}

theorem append (h : AnnouncedAt property ts k step) (us : List (Tree β)) :
    AnnouncedAt property (ts ++ us) k step := by
  obtain ⟨label, children, hoccurs, hstep⟩ := h
  exact ⟨label, children, hoccurs.append us, hstep⟩

theorem prepend (h : AnnouncedAt property us k step) (ts : List (Tree β)) :
    AnnouncedAt property (ts ++ us) ((traceOfAll property ts).length + k) step := by
  obtain ⟨label, children, hoccurs, hstep⟩ := h
  exact ⟨label, children, hoccurs.prepend ts, hstep⟩

theorem of_children (h : AnnouncedAt property children k step) :
    AnnouncedAt property [.node label children]
      ((announcement (property label)).length + k) step := by
  obtain ⟨inner, grandchildren, hoccurs, hstep⟩ := h
  refine ⟨inner, grandchildren, ?_, hstep⟩
  have hinside : OccursAt property [.node label children] _ _ := hoccurs.inside [] []
  rw [traceOfAll, List.length_nil, Nat.zero_add] at hinside
  exact hinside

/-- An announced node begins with its announcement. -/
theorem getElem?_traceOfAll (h : AnnouncedAt property ts k step) :
    (traceOfAll property ts)[k]? = some step := by
  obtain ⟨label, children, hoccurs, hpredict, rfl⟩ := h
  obtain ⟨before, after, htrace, rfl⟩ := hoccurs.exists_traceOfAll
  rw [htrace, List.getElem?_append_right (Nat.le_refl _), Nat.sub_self, trace, announcement,
    if_pos hpredict]
  rfl

end AnnouncedAt

mutual

/-- An announcement among the steps of a tree belongs to a node of the tree, and stands
where the steps of the node begin. -/
theorem announcedAt_of_trace : ∀ (t : Tree β) {k : Nat},
    (t.trace property)[k]? = some (.predict s mask rule) →
      AnnouncedAt property [t] k (.predict s mask rule)
  | leaf token, k, h => by
    rw [trace, shiftStep] at h
    split at h
    · cases h
    · cases k with
      | zero => cases h
      | succ k => cases h
  | node label children, k, h => by
    rw [trace] at h
    by_cases hfirst : k < (announcement (property label)).length
    · rw [List.append_assoc, List.getElem?_append_left hfirst] at h
      rw [announcement] at h hfirst
      split at h
      · rename_i hpredict
        rw [if_pos hpredict] at hfirst
        obtain rfl := Nat.lt_one_iff.1 hfirst
        exact ⟨label, children, .here [] [] _, hpredict, (Option.some.inj h).symm⟩
      · cases h
    · obtain ⟨n, rfl⟩ := Nat.exists_eq_add_of_le (Nat.le_of_not_lt hfirst)
      rw [List.append_assoc, List.getElem?_append_right (Nat.le_add_right _ _),
        Nat.add_sub_cancel_left] at h
      by_cases hchild : n < (traceOfAll property children).length
      · rw [List.getElem?_append_left hchild] at h
        exact (announcedAt_of_traceOfAll children h).of_children
      · obtain ⟨m, rfl⟩ := Nat.exists_eq_add_of_le (Nat.le_of_not_lt hchild)
        rw [List.getElem?_append_right (Nat.le_add_right _ _), Nat.add_sub_cancel_left] at h
        cases m with
        | zero => cases h
        | succ m => cases h

theorem announcedAt_of_traceOfAll : ∀ (ts : List (Tree β)) {k : Nat},
    (traceOfAll property ts)[k]? = some (.predict s mask rule) →
      AnnouncedAt property ts k (.predict s mask rule)
  | [], k, h => by cases h
  | t :: rest, k, h => by
    rw [traceOfAll] at h
    by_cases hfirst : k < (t.trace property).length
    · rw [List.getElem?_append_left hfirst] at h
      exact (announcedAt_of_trace t h).append rest
    · obtain ⟨n, rfl⟩ := Nat.exists_eq_add_of_le (Nat.le_of_not_lt hfirst)
      rw [List.getElem?_append_right (Nat.le_add_right _ _), Nat.add_sub_cancel_left] at h
      have hrest := (announcedAt_of_traceOfAll rest h).prepend [t]
      rw [traceOfAll, traceOfAll, List.append_nil] at hrest
      exact hrest

end

end Tree

/-! ## Records -/

namespace Record

open BoundedLR.Tree

variable {Node : Type} {r : Record Node} {trees : List (Tree ReductionProperty)}

/-- The offsets of a record delimit trees. -/
structure Delimits (r : Record Node) (trees : List (Tree ReductionProperty)) : Prop where
  /-- The steps are the traces of the trees, one for each entry above the lowest, and the
  offset of each entry is where the trace of its tree begins. -/
  traces : r.Traces id trees
  /-- The steps of each part of the trees stand together. -/
  segment : ∀ {k : Nat} {t : Tree ReductionProperty}, OccursAt id trees.reverse k t →
    ((r.steps.drop k).take (t.trace id).length).map Step.unflagged = t.trace id
  /-- The announcements stand where the announced nodes begin, and nowhere else. -/
  announced : ∀ {k : Nat} {s : Symbol} {mask : UInt64} {rule : Nat},
    r.steps[k]? = some (.predict s mask rule) ↔
      AnnouncedAt id trees.reverse k (.predict s mask rule)
  /-- A node inside another one is announced behind it, even if both begin at the same
  place, which is the case if `n` is zero. -/
  outer_first : ∀ {k n : Nat} {outer inner : ReductionProperty}
    {children grandchildren : List (Tree ReductionProperty)},
    OccursAt id trees.reverse k (.node outer children) →
    OccursAt id children n (.node inner grandchildren) →
    outer.predict = true → inner.predict = true →
    r.steps[k]? = some (.predict outer.head outer.mask outer.rule) ∧
      r.steps[k + (1 + n)]? = some (.predict inner.head inner.mask inner.rule)
  /-- An announcement among the steps of a tree is that of a node of this very tree. -/
  own : ∀ {k n : Nat} {t : Tree ReductionProperty} {s : Symbol} {mask : UInt64} {rule : Nat},
    OccursAt id trees.reverse k t → n < (t.trace id).length →
    r.steps[k + n]? = some (.predict s mask rule) → AnnouncedAt id [t] n (.predict s mask rule)

theorem Delimits.of_traces (h : r.Traces id trees) : r.Delimits trees := by
  have hsteps : r.steps.map Step.unflagged = traceOfAll id trees.reverse := h.steps_eq
  have hpredict : ∀ {k : Nat} {s : Symbol} {mask : UInt64} {rule : Nat},
      r.steps[k]? = some (.predict s mask rule) ↔
        (traceOfAll id trees.reverse)[k]? = some (.predict s mask rule) := by
    intro k s mask rule
    rw [← hsteps, List.getElem?_map, Option.map_eq_some_iff]
    constructor
    · exact fun h => ⟨_, h, rfl⟩
    · rintro ⟨step, hstep, heq⟩
      cases step with
      | shift => cases heq
      | reduce => cases heq
      | predict =>
          rw [hstep]
          exact congrArg some heq
  refine ⟨h, fun hoccurs => ?_, ?_, fun houter hinner hout hin => ?_, fun hoccurs hn hstep => ?_⟩
  · obtain ⟨before, after, htrace, rfl⟩ := hoccurs.exists_traceOfAll
    rw [List.map_take, List.map_drop, hsteps, htrace, List.drop_left, List.take_left]
  · exact hpredict.trans ⟨announcedAt_of_traceOfAll _, AnnouncedAt.getElem?_traceOfAll⟩
  · refine ⟨hpredict.2 (AnnouncedAt.getElem?_traceOfAll ⟨_, _, houter, hout, rfl⟩), ?_⟩
    have hpart := houter.of_child hinner
    rw [announcement, id_eq, if_pos hout, List.length_singleton] at hpart
    exact hpredict.2 (AnnouncedAt.getElem?_traceOfAll ⟨_, _, hpart, hin, rfl⟩)
  · obtain ⟨before, after, htrace, rfl⟩ := hoccurs.exists_traceOfAll
    rw [hpredict, htrace, List.getElem?_append_right (Nat.le_add_right _ _),
      Nat.add_sub_cancel_left, List.getElem?_append_left hn] at hstep
    exact announcedAt_of_trace _ hstep

end Record

/-! ## Sessions -/

open Machine

variable {Node Level : Type} {t : ParseTable Node Level} {moves : Nat}

namespace Machine

variable {c c' : Configuration (Record Node) Level}

/-- The record of the configuration stands for trees. -/
def Traced (c : Configuration (Record Node) Level) : Prop :=
  ∃ trees : List (Tree ReductionProperty), c.stack.Traces id trees

/-- Every move leaves a record of trees. -/
theorem Traced.moved (hc : Traced c) (h : step t c = .ok (.moved c')) : Traced c' := by
  obtain ⟨trees, hc⟩ := hc
  obtain ⟨-, top, action, -, -, hmoves⟩ := step_eq_moved.1 h
  cases hmoves with
  | descend => exact ⟨trees, hc⟩
  | @shift target predict token => exact ⟨_, hc.shift token ⟨target, predict⟩⟩
  | accept => exact ⟨trees, hc.length_entries, hc.steps_eq, hc.offset_eq⟩
  | @reduce index q last landing root hq _ hlast =>
      -- the node under the elements has been found, so there are enough of them
      have hcount : q.count < c.stack.entries.length := by
        obtain ⟨entry, hentry, -⟩ := Option.map_eq_some_iff.1 hlast
        exact (List.getElem?_eq_some_iff.1 hentry).1
      rw [hc.length_entries] at hcount
      exact ⟨_, hc.reduce (rfl : id q = q) (Nat.le_of_lt_succ hcount) landing⟩

theorem Traced.run (hc : Traced c) {stall : Option Stall} (h : run t moves c = .ok (c', stall)) :
    Traced c' :=
  (run_keeps (fun _ _ hc hstep => hc.moved hstep) hc h).1

end Machine

namespace Session

variable {s after : Session Node Level}

/-- The sessions that operations lead to which hand out no steps. -/
inductive Undrained (t : ParseTable Node Level) (moves : Nat) : Session Node Level → Prop where
  | start {s : Session Node Level} : start t moves = .ok s → Undrained t moves s
  | perform {s after : Session Node Level} {operation : Operation} {answer : Answer} :
      Undrained t moves s → operation ≠ .clearSteps →
      s.perform t moves operation = .ok (after, answer) → Undrained t moves after

theorem Undrained.feed (h : Undrained t moves s) {tokens : List Token}
    {answer : Except Rejection Unit} (hfeed : s.feed t moves tokens = .ok (after, answer)) :
    Undrained t moves after := by
  induction tokens generalizing s with
  | nil =>
      cases Except.ok.inj hfeed
      exact h
  | cons token rest ih =>
      obtain ⟨⟨next, taken⟩, hconsume, hfeed⟩ := bind_eq_ok.1 hfeed
      have hperform : s.perform t moves (.consume token.symbol token.index) =
          .ok (next, .taken taken) := bind_eq_ok.2 ⟨_, hconsume, rfl⟩
      have hne : Operation.consume token.symbol token.index ≠ .clearSteps := nofun
      have hnext : Undrained t moves next := h.perform hne hperform
      cases taken with
      | ok u => exact ih hnext hfeed
      | error rejection =>
          cases Except.ok.inj hfeed
          exact hnext

theorem traced_of_undrained (h : Undrained t moves s) : Traced s.configuration := by
  have hstart : ∀ {moves : Nat} {root : Level} {c : Configuration (Record Node) Level}
      {stall : Option Stall}, t.root t.startup = .ok root →
      run t moves ⟨Record.start t.startup, [], ⟨root, 0⟩⟩ = .ok (c, stall) → Traced c :=
    fun _ hrun => Traced.run ⟨[], .start _ _⟩ hrun
  induction h with
  | start hs => exact start_keeps hstart hs
  | perform _ hne hperform ih =>
      exact perform_keeps_of_ne hstart
        (fun {_ c token _} hc hrun => Traced.run (c := withToken c token) hc hrun) hne ih hperform

/-- **Step offsets delimit subtrees**, in every session that hands out no steps, on
whichever table it runs. -/
theorem delimits_of_undrained (h : Undrained t moves s) :
    ∃ trees, s.configuration.stack.Delimits trees := by
  obtain ⟨trees, htraces⟩ := traced_of_undrained h
  exact ⟨trees, .of_traces htraces⟩

end Session

/-- Two rules that ask for an announcement, the second of which begins where the first
does. -/
def Grammar.overlapping : Grammar where
  start := .nonTerminal 0
  rules :=
    [⟨.nonTerminal 0, [.symbol (.terminal 2), .symbol (.nonTerminal 1)], 0, false⟩,
      ⟨.nonTerminal 1, [.symbol (.nonTerminal 2), .symbol (.terminal 1)], 5, true⟩,
      ⟨.nonTerminal 2, [.symbol (.terminal 0)], 0, true⟩]
  priorities := []

/-- The steps of a parse with it. -/
def Grammar.overlappingSteps : List Step :=
  [.shift (.terminal 2) 0 true, .predict (.nonTerminal 1) 5 1, .predict (.nonTerminal 2) 0 2,
    .shift (.terminal 0) 1 true, .reduce (.nonTerminal 2) 0 2 1 true,
    .shift (.terminal 1) 2 true, .reduce (.nonTerminal 1) 5 1 2 true,
    .reduce (.nonTerminal 0) 0 0 2 false]

/-- The enclosing rule is announced in front of the other, behind the steps of the element
before them. -/
theorem Session.delimits_of_undrained_overlapping : ∃ p s, Grammar.overlapping.compile 0 = .ok p ∧
    Undrained p.table 9 s ∧ s.steps = Grammar.overlappingSteps ∧
    ∃ trees, s.configuration.stack.Delimits trees := by
  obtain ⟨p, s, hp, hs, htest⟩ := Grammar.exists_of_passes (show Grammar.overlapping.passes 0 9
    (fun p => takes p 9 [⟨.terminal 2, 0⟩, ⟨.terminal 0, 1⟩, ⟨.terminal 1, 2⟩] fun s =>
      s.steps == Grammar.overlappingSteps) = true by decide +kernel)
  obtain ⟨after, hfeed, hsteps⟩ := exists_of_takes htest
  have hafter := (Undrained.start hs).feed hfeed
  exact ⟨p, after, hp, hafter, beq_iff_eq.1 hsteps, delimits_of_undrained hafter⟩

end BoundedLR
