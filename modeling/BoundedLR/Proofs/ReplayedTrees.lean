import BoundedLR.Derivation
import BoundedLR.Replay

/-!
# Replaying a derivation tree

The steps of a derivation tree name its leaves and nodes in the order in which they are
completed, and say of a node only how many elements it has.  A replay keeps a stack of
elements and takes as many from it as a reduction asks for.  That this rebuilds the tree
is not a matter of the whole trace alone.  While a subtree is replayed the stack holds
the elements to its left, and batches may end anywhere.

`Tree.fold` says what a replay has to come to: it goes through the tree from the bottom
and calls the reducer for each leaf, each announcement and each node, with the elements
of the children in order.  `reaches_script` is the comparison with the replay of one
subtree, on top of whatever the stack holds.

Which callbacks are made is seen by a reducer that keeps a log.  `Calls` says that the
log has one call for each step, in the order of the steps, and ends with the first that
fails.
-/

namespace BoundedLR

/-- A step without its flags, which mean nothing to a replay. -/
def Step.plain : Step → Step
  | .shift symbol token _ => .shift symbol token false
  | .reduce symbol mask rule count _ => .reduce symbol mask rule count false
  | .predict symbol mask rule => .predict symbol mask rule

namespace Tree

variable {β : Type}

mutual

/-- The steps of a tree without their flags.  Unlike in the trace of a parse every leaf
is shifted, the end of input as well. -/
def script (property : β → ReductionProperty) : Tree β → List Step
  | leaf token => [.shift token.symbol token.index false]
  | node label children =>
    let p := property label
    announcement p ++ (scriptOfAll property children ++
      [.reduce p.head p.mask p.rule children.length false])

/-- The steps of neighbouring trees, one after the other. -/
def scriptOfAll (property : β → ReductionProperty) : List (Tree β) → List Step
  | [] => []
  | t :: rest => t.script property ++ scriptOfAll property rest

end

end Tree

section Flags

variable {β : Type} {property : β → ReductionProperty}

theorem Tree.map_plain_announcement (p : ReductionProperty) :
    (Tree.announcement p).map Step.plain = Tree.announcement p := by
  unfold Tree.announcement
  split <;> rfl

mutual

/-- Where the end of input is not among the leaves, the script of a tree is its trace
without the flags. -/
theorem Tree.map_plain_trace (t : Tree β) (h : ∀ token ∈ t.leaves, token.symbol ≠ .endOfInput) :
    (t.trace property).map Step.plain = t.script property := by
  cases t with
  | leaf token =>
      have hsymbol : token.symbol ≠ .endOfInput := h token (by simp [Tree.leaves])
      rw [Tree.trace, Tree.shiftStep, if_neg hsymbol, Tree.script]
      rfl
  | node label children =>
      rw [Tree.trace, Tree.script]
      simp only [List.map_append, List.append_assoc, Tree.map_plain_announcement]
      rw [Tree.map_plain_traceOfAll children h]
      rfl

theorem Tree.map_plain_traceOfAll (ts : List (Tree β))
    (h : ∀ token ∈ Tree.leavesOfAll ts, token.symbol ≠ .endOfInput) :
    (Tree.traceOfAll property ts).map Step.plain = Tree.scriptOfAll property ts := by
  cases ts with
  | nil => rfl
  | cons t rest =>
      rw [Tree.traceOfAll, Tree.scriptOfAll, List.map_append,
        Tree.map_plain_trace t fun token ht => h token (List.mem_append_left _ ht),
        Tree.map_plain_traceOfAll rest fun token ht => h token (List.mem_append_right _ ht)]

end

end Flags

/-! ## Folding a tree -/

/-- What a fold has come to: the state of the reducer, and either a result with the index
behind the last token or the error of the reducer. -/
abbrev Folded (σ ε γ : Type) : Type := σ × Except ε (γ × Nat)

/-- Goes on with a fold, unless it has failed. -/
def Folded.andThen {σ ε γ δ : Type} (folded : Folded σ ε γ) (f : σ → γ → Nat → Folded σ ε δ) :
    Folded σ ε δ :=
  match folded with
  | (s, .ok (result, next)) => f s result next
  | (s, .error e) => (s, .error e)

namespace Reducer

variable {σ ε α : Type}

/-- The element of a token. -/
def foldToken (r : Reducer σ ε α) (s : σ) (token : Token) : Folded σ ε (Element α) :=
  match r.terminal s token.symbol token.index with
  | (s, .error e) => (s, .error e)
  | (s, .ok value) =>
    let stop := nextTokenIndex token.index
    (s, .ok (⟨token.symbol, ⟨token.index, stop⟩, value⟩, stop))

/-- The announcement of a rule, if it asks for one. -/
def foldAnnouncement (r : Reducer σ ε α) (p : ReductionProperty) (s : σ) (next : Nat) :
    Folded σ ε Unit :=
  if p.predict then
    match r.predict s ⟨p.head, p.mask, p.rule, next⟩ with
    | (s, .error e) => (s, .error e)
    | (s, .ok ()) => (s, .ok ((), next))
  else (s, .ok ((), next))

/-- The element of a rule with the given children. -/
def foldRule (r : Reducer σ ε α) (p : ReductionProperty) (s : σ) (children : List (Element α))
    (next : Nat) : Folded σ ε (Element α) :=
  let tokens := Replay.cover next children
  match r.nonTerminal s ⟨p.head, p.mask, p.rule, tokens, children⟩ with
  | (s, .error e) => (s, .error e)
  | (s, .ok value) => (s, .ok (⟨p.head, tokens, value⟩, next))

end Reducer

namespace Tree

variable {β σ ε α : Type}

mutual

/-- Folds a tree from the bottom with a reducer. -/
def fold (property : β → ReductionProperty) (r : Reducer σ ε α) :
    Tree β → σ → Nat → Folded σ ε (Element α)
  | leaf token, s, _ => r.foldToken s token
  | node label children, s, next =>
    (r.foldAnnouncement (property label) s next).andThen fun s () next =>
      (foldAll property r children s next).andThen (r.foldRule (property label))

/-- Folds neighbouring trees from the left to the right. -/
def foldAll (property : β → ReductionProperty) (r : Reducer σ ε α) :
    List (Tree β) → σ → Nat → Folded σ ε (List (Element α))
  | [], s, next => (s, .ok ([], next))
  | t :: rest, s, next =>
    (fold property r t s next).andThen fun s first next =>
      (foldAll property r rest s next).andThen fun s others next =>
        (s, .ok (first :: others, next))

end

end Tree

/-! ## Replays of steps -/

namespace Replay

variable {σ ε α : Type} {r : Reducer σ ε α}

/-- Carries out batches of steps one after the other, up to the first that fails. -/
def consumeAll (r : Reducer σ ε α) (s : σ) (p : Replay α) :
    List (List Step) → σ × Replay α × Except (ReplayError ε) Unit
  | [] => (s, p, .ok ())
  | batch :: rest =>
    match consume r s p batch with
    | (s, p, .ok ()) => consumeAll r s p rest
    | (s, p, .error e) => (s, p, .error e)

/-- Replays a parse whose steps are handed over in batches. -/
def processAll (r : Reducer σ ε α) (s : σ) (batches : List (List Step)) :
    σ × Except (ReplayError ε) α :=
  match consumeAll r s start batches with
  | (s, p, .ok ()) => (s, p.finish)
  | (s, _, .error e) => (s, .error e)

/-- Steps can be carried out in two goes. -/
theorem consume_append (s : σ) (p : Replay α) (xs ys : List Step) :
    consume r s p (xs ++ ys) = match consume r s p xs with
      | (s, p, .ok ()) => consume r s p ys
      | (s, p, .error e) => (s, p, .error e) := by
  induction xs generalizing s p with
  | nil => rfl
  | cons x xs ih =>
      rw [List.cons_append, consume, consume]
      obtain ⟨s', p', answer⟩ := step r s p x
      cases answer with
      | error e => rfl
      | ok u => exact ih s' p'

/-- It does not matter how steps are cut into batches. -/
theorem consumeAll_eq (s : σ) (p : Replay α) (batches : List (List Step)) :
    consumeAll r s p batches = consume r s p batches.flatten := by
  induction batches generalizing s p with
  | nil => rfl
  | cons batch rest ih =>
      rw [consumeAll, List.flatten_cons, consume_append]
      obtain ⟨s', p', answer⟩ := consume r s p batch
      cases answer with
      | error e => rfl
      | ok u => exact ih s' p'

theorem processAll_eq (s : σ) (batches : List (List Step)) :
    processAll r s batches = process r s batches.flatten := by
  rw [processAll, consumeAll_eq]
  rfl

/-- A replay does not look at the flags of the steps. -/
theorem consume_map_plain (s : σ) (p : Replay α) (steps : List Step) :
    consume r s p (steps.map Step.plain) = consume r s p steps := by
  induction steps generalizing s p with
  | nil => rfl
  | cons x rest ih =>
      have hstep : step r s p x.plain = step r s p x := by cases x <;> rfl
      rw [List.map_cons, consume, consume, hstep]
      obtain ⟨s', p', answer⟩ := step r s p x
      cases answer with
      | error e => rfl
      | ok u => exact ih s' p'

/-! ## A replay comes to what a fold comes to -/

/-- A replay has come to what a fold has come to.  If the fold has a result, the replay
has left it on the stack; otherwise both have the error of the reducer. -/
inductive Reaches {γ : Type} (stack : γ → List (Element α)) :
    σ × Replay α × Except (ReplayError ε) Unit → Folded σ ε γ → Prop where
  | ok (s : σ) (result : γ) (next : Nat) :
      Reaches stack (s, ⟨stack result, next⟩, .ok ()) (s, .ok (result, next))
  | error (s : σ) (p : Replay α) (e : ε) : Reaches stack (s, p, .error (.reducer e)) (s, .error e)

section Reaching

variable {γ δ β : Type} {stack : γ → List (Element α)} {stack' : δ → List (Element α)} {s : σ}
  {p : Replay α} {xs ys : List Step} {folded : Folded σ ε γ}
  {f : σ → γ → Nat → Folded σ ε δ} {below : List (Element α)} {next : Nat}

/-- One replay and one fold are followed by others. -/
theorem Reaches.append (h : Reaches stack (consume r s p xs) folded)
    (hrest : ∀ s result next, folded = (s, .ok (result, next)) →
      Reaches stack' (consume r s ⟨stack result, next⟩ ys) (f s result next)) :
    Reaches stack' (consume r s p (xs ++ ys)) (folded.andThen f) := by
  rw [consume_append]
  generalize consume r s p xs = replayed at h
  cases h with
  | ok s result next => exact hrest s result next rfl
  | error s p e => exact .error s p e

theorem reaches_foldToken (token : Token) (flag : Bool) :
    Reaches (· :: below) (consume r s ⟨below, next⟩ [.shift token.symbol token.index flag])
      (r.foldToken s token) := by
  rw [consume, step, Reducer.foldToken]
  obtain ⟨s', answer⟩ := r.terminal s token.symbol token.index
  cases answer with
  | error e => exact .error _ _ _
  | ok value => exact .ok _ _ _

theorem reaches_foldAnnouncement (q : ReductionProperty) :
    Reaches (fun _ => below) (consume r s ⟨below, next⟩ (Tree.announcement q))
      (r.foldAnnouncement q s next) := by
  rw [Tree.announcement, Reducer.foldAnnouncement]
  split
  · rw [consume, step]
    obtain ⟨s', answer⟩ := r.predict s ⟨q.head, q.mask, q.rule, next⟩
    cases answer with
    | error e => exact .error _ _ _
    | ok u => exact .ok _ _ _
  · exact .ok _ _ _

/-- A reduction takes the elements of its rule from the stack, whatever lies below. -/
theorem reaches_foldRule (q : ReductionProperty) (children : List (Element α)) (flag : Bool) :
    Reaches (· :: below) (consume r s ⟨children.reverse ++ below, next⟩
      [.reduce q.head q.mask q.rule children.length flag]) (r.foldRule q s children next) := by
  have hlength : ¬(children.reverse ++ below).length < children.length := by
    rw [List.length_append, List.length_reverse]
    exact Nat.not_lt.2 (Nat.le_add_right _ _)
  have htake : ((children.reverse ++ below).take children.length).reverse = children := by
    rw [List.take_left' List.length_reverse, List.reverse_reverse]
  have hdrop : (children.reverse ++ below).drop children.length = below :=
    List.drop_left' List.length_reverse
  rw [consume, step, if_neg hlength, Reducer.foldRule]
  dsimp only
  rw [htake, hdrop]
  obtain ⟨s', answer⟩ := r.nonTerminal s ⟨q.head, q.mask, q.rule, cover next children, children⟩
  cases answer with
  | error e => exact .error _ _ _
  | ok value => exact .ok _ _ _

/-- A fold gives each of neighbouring trees an element. -/
theorem length_of_foldAll {property : β → ReductionProperty} {trees : List (Tree β)} {s' : σ}
    {elements : List (Element α)} {stop : Nat}
    (h : Tree.foldAll property r trees s next = (s', .ok (elements, stop))) :
    elements.length = trees.length := by
  induction trees generalizing s next elements with
  | nil =>
      cases h
      rfl
  | cons t rest ih =>
      rw [Tree.foldAll] at h
      generalize Tree.fold property r t s next = folded at h
      obtain ⟨s₁, failed | ⟨first, next₁⟩⟩ := folded
      · cases h
      · dsimp only [Folded.andThen] at h
        generalize hothers : Tree.foldAll property r rest s₁ next₁ = folded at h
        obtain ⟨s₂, failed | ⟨others, next₂⟩⟩ := folded
        · cases h
        · cases h
          rw [List.length_cons, List.length_cons, ih hothers]

mutual

/-- **The replay of a tree** comes to what its fold comes to, on top of whatever the
stack holds. -/
theorem reaches_script (property : β → ReductionProperty) (t : Tree β) (s : σ)
    (below : List (Element α)) (next : Nat) :
    Reaches (· :: below) (consume r s ⟨below, next⟩ (t.script property))
      (t.fold property r s next) := by
  cases t with
  | leaf token =>
      rw [Tree.script, Tree.fold]
      exact reaches_foldToken token false
  | node label children =>
      rw [Tree.script, Tree.fold]
      refine (reaches_foldAnnouncement (property label)).append fun s u next _ => ?_
      refine (reaches_scriptOfAll property children s below next).append
        fun s elements stop helements => ?_
      rw [← length_of_foldAll helements]
      exact reaches_foldRule (property label) elements false

theorem reaches_scriptOfAll (property : β → ReductionProperty) (trees : List (Tree β)) (s : σ)
    (below : List (Element α)) (next : Nat) :
    Reaches (fun elements => elements.reverse ++ below)
      (consume r s ⟨below, next⟩ (Tree.scriptOfAll property trees))
      (Tree.foldAll property r trees s next) := by
  cases trees with
  | nil =>
      rw [Tree.scriptOfAll, Tree.foldAll]
      exact .ok s [] next
  | cons t rest =>
      rw [Tree.scriptOfAll, Tree.foldAll]
      refine (reaches_script property t s below next).append fun s first next _ => ?_
      have hrest := reaches_scriptOfAll property rest s (first :: below) next
      generalize consume r s ⟨first :: below, next⟩ (Tree.scriptOfAll property rest) = replayed
        at hrest ⊢
      generalize Tree.foldAll property r rest s next = folded at hrest ⊢
      cases hrest with
      | error s p e => exact .error s p e
      | ok s others stop =>
          have hstack : others.reverse ++ first :: below = (first :: others).reverse ++ below := by
            rw [List.reverse_cons, List.append_assoc, List.singleton_append]
          rw [hstack]
          exact .ok s (first :: others) stop

end

end Reaching

end Replay

/-! ## The callbacks of a replay -/

/-- A callback that has been made, with the answer of the reducer. -/
inductive Call (ε α : Type) where
  | terminal (symbol : Symbol) (token : Nat) (answer : Except ε α)
  | nonTerminal (rule : ReducedRule α) (answer : Except ε α)
  | predict (announcement : Announcement) (answer : Except ε Unit)

namespace Call

variable {ε α : Type}

/-- Whether a callback has succeeded. -/
def outcome : Call ε α → Except ε Unit
  | terminal _ _ answer => answer.map fun _ => ()
  | nonTerminal _ answer => answer.map fun _ => ()
  | predict _ answer => answer

/-- The callback is the one that a step asks for. -/
inductive Serves : Call ε α → Step → Prop where
  | terminal (symbol : Symbol) (token : Nat) (answer : Except ε α) (flag : Bool) :
      Serves (.terminal symbol token answer) (.shift symbol token flag)
  | nonTerminal (rule : ReducedRule α) (answer : Except ε α) (flag : Bool) :
      Serves (.nonTerminal rule answer)
        (.reduce rule.symbol rule.mask rule.rule rule.children.length flag)
  | predict (announcement : Announcement) (answer : Except ε Unit) :
      Serves (.predict announcement answer)
        (.predict announcement.symbol announcement.mask announcement.rule)

end Call

/-- The callbacks for steps: one for each step, in the order of the steps, up to the first
that fails. -/
inductive Calls {ε α : Type} : List Step → List (Call ε α) → Except ε Unit → Prop where
  | done : Calls [] [] (.ok ())
  | next {x : Step} {rest : List Step} {call : Call ε α} {calls : List (Call ε α)}
      {outcome : Except ε Unit} : call.Serves x → call.outcome = .ok () →
      Calls rest calls outcome → Calls (x :: rest) (call :: calls) outcome
  | failed {x : Step} {rest : List Step} {call : Call ε α} {e : ε} :
      call.Serves x → call.outcome = .error e → Calls (x :: rest) [call] (.error e)

/-- A reducer that does the same and keeps a log of its callbacks. -/
def Reducer.logged {σ ε α : Type} (r : Reducer σ ε α) : Reducer (σ × List (Call ε α)) ε α where
  terminal s symbol token :=
    let (next, answer) := r.terminal s.1 symbol token
    ((next, s.2 ++ [.terminal symbol token answer]), answer)
  nonTerminal s rule :=
    let (next, answer) := r.nonTerminal s.1 rule
    ((next, s.2 ++ [.nonTerminal rule answer]), answer)
  predict s announcement :=
    let (next, answer) := r.predict s.1 announcement
    ((next, s.2 ++ [.predict announcement answer]), answer)

namespace Reducer

variable {σ ε α : Type} (r : Reducer σ ε α) (s : σ) (log : List (Call ε α))

theorem logged_terminal (symbol : Symbol) (token : Nat) :
    r.logged.terminal (s, log) symbol token = (((r.terminal s symbol token).1,
      log ++ [.terminal symbol token (r.terminal s symbol token).2]),
        (r.terminal s symbol token).2) := rfl

theorem logged_nonTerminal (rule : ReducedRule α) :
    r.logged.nonTerminal (s, log) rule = (((r.nonTerminal s rule).1,
      log ++ [.nonTerminal rule (r.nonTerminal s rule).2]), (r.nonTerminal s rule).2) := rfl

theorem logged_predict (announcement : Announcement) :
    r.logged.predict (s, log) announcement = (((r.predict s announcement).1,
      log ++ [.predict announcement (r.predict s announcement).2]),
        (r.predict s announcement).2) := rfl

end Reducer

namespace Replay

variable {σ ε α : Type} {r : Reducer σ ε α} {s s' : σ} {p p' : Replay α} {x : Step}
  {steps : List Step} {outcome : Except ε Unit}

/-- What the reducer is handed when a rule of so many elements is reduced. -/
def reduced (p : Replay α) (symbol : Symbol) (mask : UInt64) (rule count : Nat) : ReducedRule α :=
  let children := (p.stack.take count).reverse
  ⟨symbol, mask, rule, cover p.next children, children⟩

theorem step_reduce {symbol : Symbol} {mask : UInt64} {rule count : Nat} (flag : Bool)
    (h : ¬p.stack.length < count) : step r s p (.reduce symbol mask rule count flag) =
      match r.nonTerminal s (p.reduced symbol mask rule count) with
      | (s, .error e) => (s, { p with stack := p.stack.drop count }, .error (.reducer e))
      | (s, .ok value) =>
        (s, { p with stack := ⟨symbol, (p.reduced symbol mask rule count).tokens, value⟩ ::
          p.stack.drop count }, .ok ()) := by
  rw [step, if_neg h]
  rfl

/-- The callback that a replay makes for a step, with some answer. -/
inductive Asks (p : Replay α) : Step → Call ε α → Prop where
  | terminal (symbol : Symbol) (token : Nat) (flag : Bool) (answer : Except ε α) :
      Asks p (.shift symbol token flag) (.terminal symbol token answer)
  | nonTerminal (symbol : Symbol) (mask : UInt64) (rule : Nat) {count : Nat} (flag : Bool)
      (answer : Except ε α) : count ≤ p.stack.length →
      Asks p (.reduce symbol mask rule count flag)
        (.nonTerminal (p.reduced symbol mask rule count) answer)
  | predict (symbol : Symbol) (mask : UInt64) (rule : Nat) (answer : Except ε Unit) :
      Asks p (.predict symbol mask rule) (.predict ⟨symbol, mask, rule, p.next⟩ answer)

theorem Asks.serves {call : Call ε α} (h : p.Asks x call) : call.Serves x := by
  cases h with
  | terminal symbol token flag answer => exact .terminal symbol token answer flag
  | predict symbol mask rule answer => exact .predict ⟨symbol, mask, rule, p.next⟩ answer
  | @nonTerminal symbol mask rule count flag answer henough =>
      have hlength : (p.reduced symbol mask rule count).children.length = count := by
        rw [reduced, List.length_reverse, List.length_take, Nat.min_eq_left henough]
      have hserves := Call.Serves.nonTerminal (p.reduced symbol mask rule count) answer flag
      rwa [hlength] at hserves

/-- With a log a step comes to the same.  It has made its callback, unless there were not
enough elements for it. -/
theorem step_asks (r : Reducer σ ε α) (s : σ) (p : Replay α) (x : Step)
    (log : List (Call ε α)) :
    (∃ call : Call ε α, p.Asks x call ∧
      (step r s p x).2.2 = call.outcome.mapError .reducer ∧
      step r.logged (s, log) p x = (((step r s p x).1, log ++ [call]), (step r s p x).2)) ∨
    ∃ rule needed available, (step r s p x).2.2 = .error (.underflow rule needed available) ∧
      step r.logged (s, log) p x = (((step r s p x).1, log), (step r s p x).2) := by
  cases x with
  | shift symbol token flag =>
      refine .inl ⟨_, .terminal symbol token flag (r.terminal s symbol token).2, ?_⟩
      rw [step, step, Reducer.logged_terminal]
      obtain ⟨next, e | value⟩ := r.terminal s symbol token <;> exact ⟨rfl, rfl⟩
  | predict symbol mask rule =>
      refine .inl ⟨_, .predict symbol mask rule (r.predict s ⟨symbol, mask, rule, p.next⟩).2, ?_⟩
      rw [step, step, Reducer.logged_predict]
      obtain ⟨next, e | value⟩ := r.predict s ⟨symbol, mask, rule, p.next⟩ <;> exact ⟨rfl, rfl⟩
  | reduce symbol mask rule count flag =>
      by_cases hfew : p.stack.length < count
      · rw [step, step, if_pos hfew, if_pos hfew]
        exact .inr ⟨rule, count, p.stack.length, rfl, rfl⟩
      · refine .inl ⟨_, .nonTerminal symbol mask rule flag
          (r.nonTerminal s (p.reduced symbol mask rule count)).2 (Nat.not_lt.1 hfew), ?_⟩
        rw [step_reduce flag hfew, step_reduce flag hfew, Reducer.logged_nonTerminal]
        obtain ⟨next, e | value⟩ := r.nonTerminal s (p.reduced symbol mask rule count) <;>
          exact ⟨rfl, rfl⟩

/-- A step that has enough elements makes its callback, and comes to what that comes
to. -/
theorem step_logged (outcome : Except ε Unit)
    (h : step r s p x = (s', p', outcome.mapError .reducer))
    (log : List (Call ε α)) : ∃ call : Call ε α, call.Serves x ∧ call.outcome = outcome ∧
      step r.logged (s, log) p x = ((s', log ++ [call]), p', outcome.mapError .reducer) := by
  rcases step_asks r s p x log with
    ⟨call, hasks, hresult, hlogged⟩ | ⟨rule, needed, available, hfew, -⟩
  · rw [h] at hresult hlogged
    refine ⟨call, hasks.serves, ?_, hlogged⟩
    dsimp only at hresult
    generalize call.outcome = answer at hresult
    cases answer <;> cases outcome <;> cases hresult <;> rfl
  · rw [h] at hfew
    cases outcome <;> cases hfew

/-- **The log of a replay** that does not run out of elements. -/
theorem consume_logged (h : consume r s p steps = (s', p', outcome.mapError .reducer))
    (log : List (Call ε α)) : ∃ calls, Calls steps calls outcome ∧
      consume r.logged (s, log) p steps =
        ((s', log ++ calls), p', outcome.mapError .reducer) := by
  induction steps generalizing s p log with
  | nil =>
      cases outcome <;> cases h
      exact ⟨[], .done, by rw [consume, List.append_nil]; rfl⟩
  | cons x rest ih =>
      rw [consume] at h
      generalize hstep : step r s p x = stepped at h
      obtain ⟨s₁, p₁, e | u⟩ := stepped
      · cases outcome with
        | ok u => cases h
        | error failure =>
            cases h
            obtain ⟨call, hserves, hfailed, hlogged⟩ :=
              step_logged (.error failure) hstep log
            refine ⟨[call], .failed hserves hfailed, ?_⟩
            rw [consume, hlogged]
            rfl
      · obtain ⟨call, hserves, hok, hlogged⟩ := step_logged (.ok ()) hstep log
        obtain ⟨calls, hcalls, hrest⟩ := ih h (log ++ [call])
        refine ⟨call :: calls, .next hserves hok hcalls, ?_⟩
        rw [consume, hlogged, List.append_cons log call calls]
        exact hrest

/-- A whole replay with a log comes to the same. -/
theorem process_logged (h : consume r s start steps = (s', p', outcome.mapError .reducer)) :
    ∃ calls, Calls steps calls outcome ∧
      process r.logged (s, []) steps = ((s', calls), (process r s steps).2) := by
  obtain ⟨calls, hcalls, hlogged⟩ := consume_logged h []
  refine ⟨calls, hcalls, ?_⟩
  rw [process, process, hlogged, h]
  cases outcome <;> rfl

/-! ## The tree is rebuilt -/

/-- The result of a replay that has come to what a fold has come to. -/
def resultOf (folded : Folded σ ε (Element α)) : Except (ReplayError ε) α :=
  (folded.2.map fun result => result.1.value).mapError .reducer

variable {β : Type} {property : β → ReductionProperty} {t : Tree β}

theorem consume_of_script (h : steps.map Step.plain = t.script property) :
    ∃ p, consume r s start steps = ((t.fold property r s 0).1, p,
        ((t.fold property r s 0).2.map fun _ => ()).mapError .reducer) ∧
      process r s steps = ((t.fold property r s 0).1, resultOf (t.fold property r s 0)) := by
  have hreaches : Reaches (· :: []) (consume r s start steps) (t.fold property r s 0) := by
    rw [← consume_map_plain, h]
    exact reaches_script property t s [] 0
  rw [process]
  generalize consume r s start steps = replayed at hreaches ⊢
  generalize t.fold property r s 0 = folded at hreaches ⊢
  cases hreaches with
  | ok s element next => exact ⟨⟨[element], next⟩, rfl, rfl⟩
  | error s p e => exact ⟨p, rfl, rfl⟩

/-- **Replaying the steps of a tree rebuilds it.**  Let the steps of a derivation tree be
handed over in any batches.  The replay comes to what the fold of the tree comes to: its
value, or the error of the reducer.  A reducer that keeps a log does the same, and has
been called for the steps in their order, once each, up to the first call that fails. -/
theorem rebuilds_of_script (property : β → ReductionProperty) (r : Reducer σ ε α) (s : σ)
    (t : Tree β) {batches : List (List Step)}
    (h : batches.flatten.map Step.plain = t.script property) :
    processAll r s batches = ((t.fold property r s 0).1, resultOf (t.fold property r s 0)) ∧
      process r s batches.flatten = processAll r s batches ∧
      ∃ calls : List (Call ε α),
        processAll r.logged (s, []) batches =
          (((t.fold property r s 0).1, calls), resultOf (t.fold property r s 0)) ∧
        Calls batches.flatten calls ((t.fold property r s 0).2.map fun _ => ()) := by
  obtain ⟨p, hconsume, hprocess⟩ := consume_of_script (r := r) (s := s) h
  obtain ⟨calls, hcalls, hlogged⟩ := process_logged hconsume
  rw [processAll_eq, processAll_eq, hlogged, hprocess]
  exact ⟨rfl, rfl, calls, rfl, hcalls⟩

/-- A reducer that lists the tokens of a tree, and takes no more than a given number of
them. -/
def sparing (limit : Nat) : Reducer Nat String (List Nat) where
  terminal seen _ token :=
    if seen < limit then (seen + 1, .ok [token]) else (seen, .error "too many tokens")
  nonTerminal seen rule := (seen, .ok (rule.children.flatMap (·.value)))
  predict seen _ := (seen, .ok ())

/-- A tree with two tokens and, between them, an announced rule without elements. -/
def gapTree : Tree ReductionProperty :=
  .node ⟨.nonTerminal 0, 0, 3, 0, false⟩
    [.leaf ⟨.terminal 0, 0⟩, .node ⟨.nonTerminal 1, 1, 0, 0, true⟩ [], .leaf ⟨.terminal 1, 5⟩]

/-- The steps of the tree in batches that do not respect its nodes. -/
def gapBatches : List (List Step) :=
  [[.shift (.terminal 0) 0 true, .predict (.nonTerminal 1) 0 1], [],
    [.reduce (.nonTerminal 1) 0 1 0 true, .shift (.terminal 1) 5 false],
    [.reduce (.nonTerminal 0) 0 0 3 false]]

theorem rebuilds_of_script_gap : gapBatches.flatten.map Step.plain = gapTree.script id ∧
    processAll (sparing 2) 0 gapBatches = (2, .ok [0, 5]) ∧
    processAll (sparing 1) 0 gapBatches = (1, .error (.reducer "too many tokens")) :=
  have hscript : gapBatches.flatten.map Step.plain = gapTree.script id := by rfl
  ⟨hscript, (rebuilds_of_script id (sparing 2) 0 gapTree hscript).1.trans (by rfl),
    (rebuilds_of_script id (sparing 1) 0 gapTree hscript).1.trans (by rfl)⟩

end Replay
end BoundedLR
