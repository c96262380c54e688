import Mathlib.Data.List.Induction
import BoundedLR.Proofs.ReplayedTrees
import BoundedLR.Proofs.Sequencing

/-!
# Elements cover the tokens without gaps

The range of a reduced element is read off its first and its last child, and an element
without children is put where the count of the tokens stands.  This module shows that the
ranges nevertheless never drift apart.  Let the tokens of the steps be numbered from zero
on.  Then at every point of a replay the elements on the stack, from the bottom, lie side
by side and cover exactly the tokens shifted so far (`Tiled`), whatever the reductions and
announcements between the shifts are.

Both kinds of callback that know of ranges are read off this invariant.  The elements of a
rule are the uppermost of the stack, so their ranges lie side by side as well and end where
the count stands; the range of the rule covers just them.  An announcement is given the
count itself.

For the steps of a tree one thing more is known: between the announcement of a node and
its reduction nothing happens to the stack below (`reaches_scriptOfAll`).  So the elements
of the node begin where the count stood at the announcement (`next_eq_start`).
-/

namespace BoundedLR

/-! ## Ranges side by side -/

namespace TokenRange

/-- Ranges that lie side by side from one index to another: each begins where the one
before it ends. -/
def Tile : Nat → List TokenRange → Nat → Prop
  | start, [], stop => start = stop
  | start, range :: rest, stop =>
    range.start = start ∧ range.start ≤ range.stop ∧ Tile range.stop rest stop

variable {start start' middle stop stop' : Nat} {range : TokenRange} {xs ys : List TokenRange}

theorem tile_append : Tile start (xs ++ ys) stop ↔
    ∃ middle, Tile start xs middle ∧ Tile middle ys stop := by
  induction xs generalizing start with
  | nil => simp [Tile]
  | cons x xs ih =>
      simp only [List.cons_append, Tile, ih]
      constructor
      · rintro ⟨hstart, hle, middle, hxs, hys⟩
        exact ⟨middle, ⟨hstart, hle, hxs⟩, hys⟩
      · rintro ⟨middle, ⟨hstart, hle, hxs⟩, hys⟩
        exact ⟨hstart, hle, middle, hxs, hys⟩

/-- One more range at the end. -/
theorem Tile.concat (h : Tile start xs middle) (hle : middle ≤ stop) :
    Tile start (xs ++ [⟨middle, stop⟩]) stop :=
  tile_append.2 ⟨middle, h, rfl, hle, rfl⟩

theorem Tile.le (h : Tile start xs stop) : start ≤ stop := by
  induction xs generalizing start with
  | nil => exact Nat.le_of_eq h
  | cons x xs ih =>
      obtain ⟨rfl, hle, hxs⟩ := h
      exact Nat.le_trans hle (ih hxs)

/-- Where ranges end is known from where they begin. -/
theorem Tile.stop_unique (h : Tile start xs stop) (h' : Tile start xs stop') : stop = stop' := by
  induction xs generalizing start with
  | nil => exact h.symm.trans h'
  | cons x xs ih => exact ih h.2.2 h'.2.2

/-- Where ranges begin is known from where they end. -/
theorem Tile.start_unique (h : Tile start xs stop) (h' : Tile start' xs stop) : start = start' := by
  cases xs with
  | nil => exact Eq.trans h (Eq.symm h')
  | cons x xs => exact h.1.symm.trans h'.1

theorem Tile.stop_of_getLast? (h : Tile start xs stop) (hlast : xs.getLast? = some range) :
    range.stop = stop := by
  obtain ⟨front, rfl⟩ := List.getLast?_eq_some_iff.1 hlast
  obtain ⟨middle, -, -, -, hstop⟩ := tile_append.1 h
  exact hstop

end TokenRange

open TokenRange (Tile)

/-- The range of a rule covers its elements, if these lie side by side and end where the
count of the tokens stands. -/
theorem Replay.cover_of_tile {α : Type} {children : List (Element α)} {start stop : Nat}
    (h : Tile start (children.map (·.tokens)) stop) : cover stop children = ⟨start, stop⟩ := by
  cases children with
  | nil =>
      obtain rfl : start = stop := h
      rfl
  | cons first rest =>
      obtain ⟨last, hlast⟩ : ∃ last, (first :: rest).getLast? = some last :=
        ⟨_, List.getLast?_eq_some_getLast (List.cons_ne_nil first rest)⟩
      have hstop : last.tokens.stop = stop := by
        refine h.stop_of_getLast? ?_
        rw [List.getLast?_map, hlast]
        rfl
      rw [cover, hlast, ← hstop, ← h.1]
      rfl

/-! ## Numbered tokens -/

namespace Step

/-- The index of the token that a step shifts. -/
def token? : Step → Option Nat
  | shift _ token _ => some token
  | _ => none

/-- The indices of the tokens that steps shift. -/
def tokens (steps : List Step) : List Nat := steps.filterMap token?

/-- The tokens of steps are numbered from zero on, and they can be counted. -/
structure Consecutive (steps : List Step) : Prop where
  tokens_eq : tokens steps = List.range (tokens steps).length
  le_max : (tokens steps).length ≤ maxTokenIndex

variable {xs ys : List Step} {x : Step} {token : Nat}

theorem tokens_append (xs ys : List Step) : tokens (xs ++ ys) = tokens xs ++ tokens ys :=
  List.filterMap_append

/-- The next token is the one that the count of the tokens before it names. -/
theorem Consecutive.token_eq (h : Consecutive (xs ++ x :: ys)) (hx : x.token? = some token) :
    token = (tokens xs).length ∧ token < maxTokenIndex := by
  have htokens : tokens (xs ++ x :: ys) = tokens xs ++ token :: tokens ys := by
    rw [tokens_append]
    exact congrArg _ (List.filterMap_cons_some hx)
  have hget : (tokens (xs ++ x :: ys))[(tokens xs).length]? = some token := by
    rw [htokens, List.getElem?_append_right (Nat.le_refl _), Nat.sub_self]
    rfl
  have hlt := (List.getElem?_eq_some_iff.1 hget).1
  rw [h.tokens_eq, List.getElem?_range hlt, Option.some.injEq] at hget
  exact ⟨hget.symm, hget ▸ Nat.lt_of_lt_of_le hlt h.le_max⟩

end Step

/-! ## The invariant of a replay -/

namespace Replay

variable {σ ε α : Type} {r : Reducer σ ε α} {s s' : σ} {p p' : Replay α} {x : Step}
  {steps taken : List Step} {n count : Nat}

/-- The elements of a replay cover the tokens shifted so far, of which there are `n`. -/
structure Tiled (p : Replay α) (n : Nat) : Prop where
  next_eq : p.next = n
  tile : Tile 0 (p.stack.reverse.map (·.tokens)) n

theorem tiled_start : (start : Replay α).Tiled 0 := ⟨rfl, rfl⟩

/-- The uppermost elements cover the last tokens, and those below the tokens before
them. -/
theorem Tiled.exists_cut (h : p.Tiled n) (count : Nat) : ∃ middle,
    Tile 0 ((p.stack.drop count).reverse.map (·.tokens)) middle ∧
      Tile middle ((p.stack.take count).reverse.map (·.tokens)) n := by
  have htile := h.tile
  rw [← List.take_append_drop count p.stack, List.reverse_append, List.map_append] at htile
  exact TokenRange.tile_append.1 htile

/-- The range of a reduced rule covers its elements, and they lie side by side. -/
theorem Tiled.reduced (h : p.Tiled n) (symbol : Symbol) (mask : UInt64) (rule count : Nat) :
    Tile 0 ((p.stack.drop count).reverse.map (·.tokens))
        (p.reduced symbol mask rule count).tokens.start ∧
      Tile (p.reduced symbol mask rule count).tokens.start
        ((p.reduced symbol mask rule count).children.map (·.tokens)) n ∧
      (p.reduced symbol mask rule count).tokens.stop = n := by
  obtain ⟨middle, hbelow, habove⟩ := h.exists_cut count
  have htokens : (p.reduced symbol mask rule count).tokens = ⟨middle, n⟩ := by
    rw [← cover_of_tile habove, ← h.next_eq]
    rfl
  rw [htokens]
  exact ⟨hbelow, habove, rfl⟩

/-- **A step keeps the elements side by side**, if the token that it shifts is the next
one. -/
theorem Tiled.step (h : p.Tiled n) (hstep : step r s p x = (s', p', .ok ()))
    (hnext : ∀ token, x.token? = some token → token = n ∧ token < maxTokenIndex) :
    p'.Tiled (n + (Step.tokens [x]).length) := by
  cases x with
  | shift symbol token flag =>
      obtain ⟨rfl, hlt⟩ := hnext token rfl
      have hstop : nextTokenIndex token = token + 1 := Nat.min_eq_left hlt
      rw [Replay.step] at hstep
      generalize r.terminal s symbol token = called at hstep
      obtain ⟨next, e | value⟩ := called
      · cases hstep
      · cases hstep
        refine ⟨hstop, ?_⟩
        rw [List.reverse_cons, List.map_append, hstop]
        exact h.tile.concat (Nat.le_succ token)
  | predict symbol mask rule =>
      rw [Replay.step] at hstep
      generalize r.predict s ⟨symbol, mask, rule, p.next⟩ = called at hstep
      obtain ⟨next, e | u⟩ := called
      · cases hstep
      · cases hstep
        exact h
  | reduce symbol mask rule count flag =>
      by_cases hfew : p.stack.length < count
      · rw [Replay.step, if_pos hfew] at hstep
        cases hstep
      · obtain ⟨hbelow, habove, hstop⟩ := h.reduced symbol mask rule count
        rw [step_reduce flag hfew] at hstep
        generalize p.reduced symbol mask rule count = reduced at hstep hbelow habove hstop
        generalize r.nonTerminal s reduced = called at hstep
        obtain ⟨next, e | value⟩ := called
        · cases hstep
        · cases hstep
          refine ⟨h.next_eq, ?_⟩
          rw [List.reverse_cons, List.map_append]
          refine TokenRange.tile_append.2 ⟨reduced.tokens.start, hbelow, rfl, ?_, hstop⟩
          rw [hstop]
          exact habove.le

/-- **At every point of a replay the elements cover the tokens shifted so far.** -/
theorem tiled_of_consume (h : Step.Consecutive (taken ++ steps))
    (hrun : consume r s start taken = (s', p, .ok ())) : p.Tiled (Step.tokens taken).length := by
  induction taken using List.reverseRecOn generalizing steps s' p with
  | nil =>
      cases hrun
      exact tiled_start
  | append_singleton taken x ih =>
      rw [List.append_assoc, List.singleton_append] at h
      rw [consume_append] at hrun
      generalize hfirst : consume r s start taken = first at hrun
      obtain ⟨s₁, p₁, e | u⟩ := first
      · cases hrun
      · have htiled := ih h hfirst
        rw [Step.tokens_append, List.length_append]
        dsimp only [consume] at hrun
        generalize hstep : Replay.step r s₁ p₁ x = stepped at hrun
        obtain ⟨s₂, p₂, e | u⟩ := stepped
        · cases hrun
        · cases hrun
          exact htiled.step hstep fun token hx => h.token_eq hx

/-! ## The callbacks -/

/-- A callback that is made when `n` tokens have been shifted names the right tokens: a
token its index, a rule a range that ends here and is covered by the ranges of its elements
side by side, and an announcement the count of the tokens. -/
def Names (n : Nat) : Call ε α → Prop
  | .terminal _ token _ => token = n
  | .nonTerminal rule _ =>
    Tile rule.tokens.start (rule.children.map (·.tokens)) n ∧ rule.tokens.stop = n
  | .predict announcement _ => announcement.token = n

theorem Asks.names {call : Call ε α} (hasks : p.Asks x call) (h : p.Tiled n)
    (hnext : ∀ token, x.token? = some token → token = n ∧ token < maxTokenIndex) :
    Names n call := by
  cases hasks with
  | terminal symbol token flag answer => exact (hnext token rfl).1
  | nonTerminal symbol mask rule flag answer => exact (h.reduced symbol mask rule _).2
  | predict symbol mask rule answer => exact h.next_eq

/-- **The log of a replay**, whatever it comes to.  The call at a place of the log has been
made for the step at that place, by the replay that the steps before it have led to. -/
theorem exists_calls (r : Reducer σ ε α) (s : σ) (p : Replay α) (steps : List Step)
    (log : List (Call ε α)) : ∃ calls : List (Call ε α),
      consume r.logged (s, log) p steps =
        (((consume r s p steps).1, log ++ calls), (consume r s p steps).2) ∧
      ∀ i call, calls[i]? = some call → ∃ s' p' x,
        consume r s p (steps.take i) = (s', p', .ok ()) ∧ steps[i]? = some x ∧ p'.Asks x call := by
  induction steps generalizing s p log with
  | nil => exact ⟨[], by rw [List.append_nil]; rfl, fun i call hcall => nomatch hcall⟩
  | cons x rest ih =>
      have hsteps := step_asks r s p x log
      rw [consume, consume]
      generalize hstep : Replay.step r s p x = stepped at hsteps
      obtain ⟨s₁, p₁, e | u⟩ := stepped
      · rcases hsteps with ⟨call, hasks, -, hlogged⟩ | ⟨rule, needed, available, -, hlogged⟩
        · rw [hlogged]
          refine ⟨[call], rfl, fun i call' hcall => ?_⟩
          cases i with
          | zero =>
              cases hcall
              exact ⟨s, p, x, rfl, rfl, hasks⟩
          | succ i => cases hcall
        · rw [hlogged]
          exact ⟨[], by rw [List.append_nil], fun i call hcall => nomatch hcall⟩
      · rcases hsteps with ⟨call, hasks, -, hlogged⟩ | ⟨rule, needed, available, hfew, -⟩
        · obtain ⟨calls, hcalls, hmade⟩ := ih s₁ p₁ (log ++ [call])
          rw [hlogged]
          refine ⟨call :: calls, ?_, fun i call' hcall => ?_⟩
          · rw [List.append_cons log call calls]
            exact hcalls
          · cases i with
            | zero =>
                cases hcall
                exact ⟨s, p, x, rfl, rfl, hasks⟩
            | succ i =>
                obtain ⟨s', p', y, htaken, hy, hasks'⟩ := hmade i call' hcall
                refine ⟨s', p', y, ?_, hy, hasks'⟩
                rw [List.take_succ_cons, consume, hstep]
                exact htaken
        · cases hfew

end Replay

/-! ## Announced nodes -/

namespace Tree

variable {β : Type} {property : β → ReductionProperty} {label : β} {children ts : List (Tree β)}
  {t : Tree β} {k : Nat} {s : Symbol} {mask : UInt64} {rule : Nat}

/-- A node of a tree, and where its steps begin among those of the tree. -/
inductive NodeAt (property : β → ReductionProperty) (label : β) (children : List (Tree β)) :
    Tree β → Nat → Prop where
  | root : NodeAt property label children (.node label children) 0
  | inside (outer : β) (front back : List (Tree β)) {t : Tree β} {k : Nat} :
      NodeAt property label children t k →
      NodeAt property label children (.node outer (front ++ t :: back))
        ((announcement (property outer)).length + ((scriptOfAll property front).length + k))

theorem scriptOfAll_append (ts us : List (Tree β)) :
    scriptOfAll property (ts ++ us) = scriptOfAll property ts ++ scriptOfAll property us := by
  induction ts with
  | nil => rfl
  | cons t rest ih => rw [List.cons_append, scriptOfAll, scriptOfAll, ih, List.append_assoc]

/-- A node has its steps where it stands. -/
theorem NodeAt.exists_script (h : NodeAt property label children t k) : ∃ front back,
    t.script property = front ++ ((node label children).script property ++ back) ∧
      front.length = k := by
  induction h with
  | root => exact ⟨[], [], (List.append_nil _).symm, rfl⟩
  | @inside outer before behind u k _ ih =>
      obtain ⟨front, back, hscript, rfl⟩ := ih
      refine ⟨announcement (property outer) ++ (scriptOfAll property before ++ front),
        back ++ (scriptOfAll property behind ++ [.reduce (property outer).head
          (property outer).mask (property outer).rule (before ++ u :: behind).length false]),
        ?_, ?_⟩
      · rw [script, scriptOfAll_append, scriptOfAll, hscript]
        simp only [List.append_assoc]
      · rw [List.length_append, List.length_append]

mutual

/-- An announcement among the steps of a tree stands where the steps of a node begin that
asks for it. -/
theorem nodeAt_of_script : ∀ (t : Tree β) {k : Nat},
    (t.script property)[k]? = some (.predict s mask rule) → ∃ label children,
      NodeAt property label children t k ∧
        announcement (property label) = [.predict s mask rule]
  | leaf token, k, h => by
    cases k with
    | zero => cases h
    | succ k => cases h
  | node label children, k, h => by
    rw [script] at h
    by_cases hfirst : k < (announcement (property label)).length
    · rw [List.getElem?_append_left hfirst] at h
      rw [announcement] at h hfirst
      split at h
      · rename_i hpredict
        rw [if_pos hpredict] at hfirst
        obtain rfl := Nat.lt_one_iff.1 hfirst
        refine ⟨label, children, .root, ?_⟩
        rw [announcement, if_pos hpredict, Option.some.inj h]
      · cases h
    · obtain ⟨n, rfl⟩ := Nat.exists_eq_add_of_le (Nat.le_of_not_lt hfirst)
      rw [List.getElem?_append_right (Nat.le_add_right _ _), Nat.add_sub_cancel_left] at h
      by_cases hchild : n < (scriptOfAll property children).length
      · rw [List.getElem?_append_left hchild] at h
        obtain ⟨front, t, back, m, rfl, rfl, inner, grandchildren, hnode, hinner⟩ :=
          nodeAt_of_scriptOfAll children h
        exact ⟨inner, grandchildren, .inside label front back hnode, hinner⟩
      · obtain ⟨m, rfl⟩ := Nat.exists_eq_add_of_le (Nat.le_of_not_lt hchild)
        rw [List.getElem?_append_right (Nat.le_add_right _ _), Nat.add_sub_cancel_left] at h
        cases m with
        | zero => cases h
        | succ m => cases h

theorem nodeAt_of_scriptOfAll : ∀ (ts : List (Tree β)) {k : Nat},
    (scriptOfAll property ts)[k]? = some (.predict s mask rule) → ∃ front t back m,
      ts = front ++ t :: back ∧ k = (scriptOfAll property front).length + m ∧
      ∃ label children, NodeAt property label children t m ∧
        announcement (property label) = [.predict s mask rule]
  | [], k, h => by cases h
  | t :: rest, k, h => by
    rw [scriptOfAll] at h
    by_cases hfirst : k < (t.script property).length
    · rw [List.getElem?_append_left hfirst] at h
      exact ⟨[], t, rest, k, rfl, (Nat.zero_add k).symm, nodeAt_of_script t h⟩
    · obtain ⟨n, rfl⟩ := Nat.exists_eq_add_of_le (Nat.le_of_not_lt hfirst)
      rw [List.getElem?_append_right (Nat.le_add_right _ _), Nat.add_sub_cancel_left] at h
      obtain ⟨front, u, back, m, rfl, rfl, hnode⟩ := nodeAt_of_scriptOfAll rest h
      refine ⟨t :: front, u, back, m, rfl, ?_, hnode⟩
      rw [scriptOfAll, List.length_append, Nat.add_assoc]

end

end Tree

namespace Replay

variable {σ ε α β : Type} {r : Reducer σ ε α} {s s' : σ} {p p' : Replay α} {steps : List Step}
  {property : β → ReductionProperty} {label : β} {children : List (Tree β)} {t : Tree β}

/-- From the announcement of a node to its reduction the stack gets an element for each of
its children, and nothing happens below. -/
theorem exists_elements (hrun : consume r s p (Tree.announcement (property label) ++
      Tree.scriptOfAll property children) = (s', p', .ok ())) :
    ∃ elements : List (Element α), p'.stack = elements.reverse ++ p.stack ∧
      elements.length = children.length := by
  have hreaches : Reaches (fun elements => elements.reverse ++ p.stack)
      (consume r s p (Tree.announcement (property label) ++ Tree.scriptOfAll property children))
      ((r.foldAnnouncement (property label) s p.next).andThen fun s () next =>
        Tree.foldAll property r children s next) :=
    (reaches_foldAnnouncement (property label)).append fun s u next _ =>
      reaches_scriptOfAll property children s p.stack next
  rw [hrun] at hreaches
  generalize hannounced : r.foldAnnouncement (property label) s p.next = announced at hreaches
  obtain ⟨s₁, e | ⟨u, next⟩⟩ := announced
  · cases hreaches
  · dsimp only [Folded.andThen] at hreaches
    generalize hfolded : Tree.foldAll property r children s₁ next = folded at hreaches
    cases hreaches with
    | ok s' elements stop => exact ⟨elements, rfl, length_of_foldAll hfolded⟩

/-- The elements of an announced node begin where the count of the tokens stood at the
announcement. -/
theorem next_eq_start {q q' : Replay α} {s₁ s₂ : σ} {k : Nat} {x : Step} {rule : ReducedRule α}
    {answer : Except ε α} (h : Step.Consecutive steps)
    (hscript : steps.map Step.plain = t.script property)
    (hnode : Tree.NodeAt property label children t k) (hpredict : (property label).predict = true)
    (hq : consume r s start (steps.take k) = (s₁, q, .ok ()))
    (hq' : consume r s start (steps.take (k + 1 + (Tree.scriptOfAll property children).length)) =
      (s₂, q', .ok ()))
    (hx : steps[k + 1 + (Tree.scriptOfAll property children).length]? = some x)
    (hasks : q'.Asks x (.nonTerminal rule answer)) : q.next = rule.tokens.start := by
  obtain ⟨front, back, hfront, rfl⟩ := hnode.exists_script
  generalize hbody : Tree.announcement (property label) ++ Tree.scriptOfAll property children = body
  have hlength : front.length + 1 + (Tree.scriptOfAll property children).length =
      (front ++ body).length := by
    rw [← hbody, List.length_append, List.length_append, Tree.announcement, if_pos hpredict,
      List.length_singleton, Nat.add_assoc]
  have hsteps : steps.map Step.plain = (front ++ body) ++ (.reduce (property label).head
      (property label).mask (property label).rule children.length false :: back) := by
    rw [hscript, hfront, Tree.script, ← hbody]
    simp only [List.append_assoc, List.singleton_append]
  have htiled : q.Tiled _ := tiled_of_consume (by rwa [List.take_append_drop]) hq
  have htiled' : q'.Tiled _ := tiled_of_consume (by rwa [List.take_append_drop]) hq'
  -- the replay up to the announcement, and from there up to the reduction
  rw [← consume_map_plain, List.map_take, hsteps, List.append_assoc, List.take_left] at hq
  rw [← consume_map_plain, List.map_take, hsteps, hlength, List.take_left, consume_append,
    hq] at hq'
  subst hbody
  obtain ⟨elements, hstack, helements⟩ := exists_elements hq'
  cases hasks with
  | @nonTerminal symbol mask rule count flag answer henough =>
      have hcount : count = elements.length := by
        have hplain := congrArg (Option.map Step.plain) hx
        rw [← List.getElem?_map, hsteps, hlength, List.getElem?_append_right (Nat.le_refl _),
          Nat.sub_self] at hplain
        rw [helements]
        injection hplain with hplain
        injection hplain with _ _ _ hcount
        exact hcount.symm
      have hchildren : (q'.reduced symbol mask rule count).children = elements := by
        rw [reduced, hstack, hcount, ← List.length_reverse, List.take_left, List.reverse_reverse]
      obtain ⟨-, habove, -⟩ := htiled'.reduced symbol mask rule count
      have hwhole := htiled'.tile
      rw [hstack, List.reverse_append, List.reverse_reverse, List.map_append] at hwhole
      obtain ⟨middle, hbelow, hrest⟩ := TokenRange.tile_append.1 hwhole
      rw [hchildren] at habove
      rw [htiled.next_eq, ← hbelow.stop_unique htiled.tile]
      exact hrest.start_unique habove

/-- **The elements of a replay tile the tokens.**  Let steps whose tokens are numbered from
zero on be handed over in any batches.  As long as no step has failed the elements on the
stack lie side by side and cover exactly the tokens shifted so far.  A reducer that keeps a
log is called with the right tokens: the range of a rule is covered by those of its
elements, side by side, and ends where the count of the tokens stands, and an announcement
is given that count.  If the steps are those of a tree, each announcement is that of a node
of the tree, and it names the token at which the range of that node begins. -/
theorem tiles_of_consecutive (r : Reducer σ ε α) (s : σ) {batches : List (List Step)}
    (h : Step.Consecutive batches.flatten) :
    (∀ taken, taken <+: batches.flatten → ∀ s' p, consume r s start taken = (s', p, .ok ()) →
      Tile 0 (p.stack.reverse.map (·.tokens)) (Step.tokens taken).length) ∧
    ∃ calls : List (Call ε α),
      consumeAll r.logged (s, []) start batches =
        (((consumeAll r s start batches).1, calls), (consumeAll r s start batches).2) ∧
      (∀ i call, calls[i]? = some call → ∃ x, batches.flatten[i]? = some x ∧ call.Serves x ∧
        Names (Step.tokens (batches.flatten.take i)).length call) ∧
      ∀ (β : Type) (property : β → ReductionProperty) (t : Tree β),
        batches.flatten.map Step.plain = t.script property →
        ∀ k announcement answer, calls[k]? = some (.predict announcement answer) →
          ∃ label children, Tree.NodeAt property label children t k ∧
            Tree.announcement (property label) =
              [.predict announcement.symbol announcement.mask announcement.rule] ∧
            ∀ rule answer, calls[k + 1 + (Tree.scriptOfAll property children).length]? =
                some (.nonTerminal rule answer) → announcement.token = rule.tokens.start := by
  rw [consumeAll_eq, consumeAll_eq]
  generalize batches.flatten = steps at h
  refine ⟨?_, ?_⟩
  · rintro taken ⟨rest, rfl⟩ s' p hrun
    exact (tiled_of_consume h hrun).tile
  obtain ⟨calls, hlogged, hmade⟩ := exists_calls r s start steps []
  refine ⟨calls, hlogged, fun i call hcall => ?_, ?_⟩
  · obtain ⟨s', p, x, hrun, hx, hasks⟩ := hmade i call hcall
    obtain ⟨rest, hrest⟩ := exists_drop_eq_cons hx
    have hsteps : Step.Consecutive (steps.take i ++ x :: rest) := by
      rwa [← hrest, List.take_append_drop]
    refine ⟨x, hx, hasks.serves, hasks.names (tiled_of_consume hsteps hrun) fun token htoken => ?_⟩
    exact hsteps.token_eq htoken
  · intro β property t hscript k announcement answer hcall
    obtain ⟨s₁, q, x, hq, hx, hasks⟩ := hmade k _ hcall
    cases hasks with
    | predict symbol mask rule =>
        have hplain : (t.script property)[k]? = some (.predict symbol mask rule) := by
          rw [← hscript, List.getElem?_map, hx]
          rfl
        obtain ⟨label, children, hnode, hannounced⟩ := Tree.nodeAt_of_script t hplain
        have hpredict : (property label).predict = true := by
          by_contra hsilent
          rw [Tree.announcement, if_neg hsilent] at hannounced
          cases hannounced
        refine ⟨label, children, hnode, hannounced, fun rule answer hreduced => ?_⟩
        obtain ⟨s₂, q', y, hq', hy, hasks'⟩ := hmade _ _ hreduced
        exact next_eq_start h hscript hnode hpredict hq hq' hy hasks'

/-- A tree of three tokens with an announced rule around an announced rule without
elements and an announced rule with two. -/
def spanTree : Tree ReductionProperty :=
  .node ⟨.nonTerminal 0, 0, 3, 0, true⟩
    [.leaf ⟨.terminal 0, 0⟩, .node ⟨.nonTerminal 1, 1, 0, 0, true⟩ [],
      .node ⟨.nonTerminal 2, 2, 2, 0, true⟩ [.leaf ⟨.terminal 1, 1⟩, .leaf ⟨.terminal 0, 2⟩]]

/-- The steps of the tree, in two batches. -/
def spanBatches : List (List Step) :=
  [(spanTree.script id).take 5, (spanTree.script id).drop 5]

/-- Before the last step there are three elements.  The second announcement of the two at
the second token is that of the rule with elements, and both callbacks for the rule name
that token. -/
theorem tiles_of_consecutive_span : Step.Consecutive spanBatches.flatten ∧
    Tile 0 [⟨0, 1⟩, ⟨1, 1⟩, ⟨1, 3⟩] 3 ∧
    ∃ (calls : List (Call String (List Nat))) (label : ReductionProperty)
      (children : List (Tree ReductionProperty)),
      consumeAll (sparing 3).logged (0, []) start spanBatches =
        ((3, calls), ⟨[⟨.nonTerminal 0, ⟨0, 3⟩, [0, 1, 2]⟩], 3⟩, .ok ()) ∧
      calls[4]? = some (.predict ⟨.nonTerminal 2, 0, 2, 1⟩ (.ok ())) ∧
      Tree.NodeAt id label children spanTree 4 ∧ label.rule = 2 ∧
      ∃ rule answer, calls[7]? = some (.nonTerminal rule answer) ∧ rule.tokens.stop = 3 ∧
        Tile rule.tokens.start (rule.children.map (·.tokens)) 3 := by
  have hconsecutive : Step.Consecutive spanBatches.flatten := ⟨by rfl, by decide⟩
  obtain ⟨htiles, calls, hlogged, hnames, htree⟩ :=
    tiles_of_consecutive (sparing 3) 0 hconsecutive
  have hcalls : (consumeAll (sparing 3).logged (0, []) start spanBatches).1.2 = calls := by
    rw [hlogged]
  have h4 : calls[4]? = some (.predict ⟨.nonTerminal 2, 0, 2, 1⟩ (.ok ())) := by
    rw [← hcalls]
    rfl
  have h7 : ∃ rule answer, calls[7]? = some (.nonTerminal rule answer) := by
    rw [← hcalls]
    exact ⟨_, _, rfl⟩
  obtain ⟨rule, answer, h7⟩ := h7
  obtain ⟨label, children, hnode, hannounced, -⟩ :=
    htree ReductionProperty id spanTree rfl 4 _ _ h4
  obtain ⟨x, -, -, hcovers, hstop⟩ := hnames 7 _ h7
  have hrule : label.rule = 2 := by
    rw [Tree.announcement] at hannounced
    split at hannounced
    · injection hannounced with hannounced
      injection hannounced
    · cases hannounced
  exact ⟨hconsecutive, htiles _ (List.take_prefix 8 _) _ _ rfl, calls, label, children, hlogged,
    h4, hnode, hrule, rule, answer, h7, hstop, hcovers⟩

end Replay
end BoundedLR
