import BoundedLR.Proofs.SimulatedLookahead

/-!
# Where a choice arrives

`Choice.Allows` says which words can be shifted once a choice has been made.  Two choices
that allow a word can still be told apart by what comes behind it, unless they have come to
the same stack: then whatever one of them allows from there on the other allows too.  So one
has to know where a choice gets to on a word.

`Choice.Arrives` says so: a choice arrives at a stack on a word if that is the stack, as far
as it is known, right after the last terminal of the word has been shifted.  The depth at
which a stack lies is left out; it means nothing beyond a chain of reductions.  A choice
allows the words on which it arrives somewhere (`Choice.Arrives.allows`).

The search follows: the stack in a continuation is one at which its choice has arrived, on
the way down to its level and its own terminal (`Contest.Arriving`).
-/

namespace BoundedLR

/-- The known states, the topmost first, after a word has been shifted on a partial stack,
when any number of reductions may come before each of its terminals. -/
inductive PartialStack.Arrives (a : Automaton) (g : Productions) :
    PartialStack → List Symbol → List Nat → Prop where
  | done {c : PartialStack} : Arrives a g c [] c.states
  | shift {c : PartialStack} {top : Nat} {e : Edge} {word : List Symbol} {states : List Nat} :
      c.states.head? = some top → e ∈ a.edges top → e.symbol.isTerminal = true →
      Arrives a g (c.push e.target) word states → Arrives a g c (e.symbol :: word) states
  | reduce {c next : PartialStack} {top : Nat} {r : Reduction} {s : Symbol} {word : List Symbol}
      {states : List Nat} :
      c.states.head? = some top → r ∈ a.reductions top → r.production ≠ 0 →
      next ∈ c.reduce a g r.production → Arrives a g next (s :: word) states →
      Arrives a g c (s :: word) states

/-- The known states after a word has been shifted from a state on, when the first thing to
be done is a given choice of the state. -/
inductive Choice.Arrives (a : Automaton) (g : Productions) (state : Nat) :
    Choice → List Symbol → List Nat → Prop where
  | shift {e : Edge} {word : List Symbol} {states : List Nat} :
      e ∈ a.edges state → e.symbol.isTerminal = true →
      ((PartialStack.single state).push e.target).Arrives a g word states →
      Arrives a g state .shift (e.symbol :: word) states
  | reduce {index : Nat} {r : Reduction} {next : PartialStack} {s : Symbol} {word : List Symbol}
      {states : List Nat} :
      (a.reductions state)[index]? = some r → r.production ≠ 0 →
      next ∈ (PartialStack.single state).reduce a g r.production →
      next.Arrives a g (s :: word) states → Arrives a g state (.reduce index) (s :: word) states

variable {a : Automaton} {g : Productions} {state : Nat} {choice : Choice}
  {word rest : List Symbol} {s : Symbol} {states between : List Nat}

namespace PartialStack

variable {c c' : PartialStack}

/-- Where a stack arrives depends on the known states only. -/
theorem Arrives.of_states_eq (h : c.Arrives a g word states) (hs : c'.states = c.states) :
    c'.Arrives a g word states := by
  induction h generalizing c' with
  | done => exact hs ▸ .done
  | shift htop he hterm _ ih =>
      exact .shift (hs ▸ htop) he hterm (ih (congrArg (_ :: ·) hs))
  | reduce htop hr hne hn _ ih =>
      obtain ⟨same, hsame, hstates⟩ := exists_mem_reduce hs hn
      exact .reduce (hs ▸ htop) hr hne hsame (ih hstates)

/-- From where a stack arrives it goes on. -/
theorem Arrives.trans (h : c.Arrives a g word between) (hc : c'.states = between)
    (h' : c'.Arrives a g rest states) : c.Arrives a g (word ++ rest) states := by
  induction h with
  | done => exact h'.of_states_eq hc.symm
  | shift htop he hterm _ ih => exact .shift htop he hterm (ih hc)
  | reduce htop hr hne hn _ ih => exact .reduce htop hr hne hn (ih hc)

theorem Arrives.reads (h : c.Arrives a g word states) : c.Reads a g word := by
  induction h with
  | done => exact .done
  | shift htop he hterm _ ih => exact .shift htop he hterm ih
  | reduce htop hr hne hn _ ih => exact .reduce htop hr hne hn ih

end PartialStack

namespace Choice

/-- From where a choice arrives it goes on. -/
theorem Arrives.trans {c : PartialStack} (h : choice.Arrives a g state word between)
    (hc : c.states = between) (h' : c.Arrives a g rest states) :
    choice.Arrives a g state (word ++ rest) states := by
  cases h with
  | shift he hterm harrives => exact .shift he hterm (harrives.trans hc h')
  | reduce hr hne hn harrives => exact .reduce hr hne hn (harrives.trans hc h')

theorem Arrives.allows (h : choice.Arrives a g state word states) :
    choice.Allows a g state word := by
  cases h with
  | shift he hterm harrives => exact .shift he hterm harrives.reads
  | reduce hr hne hn harrives => exact .reduce hr hne hn harrives.reads

end Choice

/-! ## Continuations -/

namespace Contest

variable {k : Contest} {path : List Symbol} {continuations : List Continuation}
  {c : PartialStack} {d : Continuation} {found : List Continuation}

/-- Each continuation holds a stack at which its choice has arrived, on the path and its own
terminal. -/
def Arriving (k : Contest) (path : List Symbol) (continuations : List Continuation) : Prop :=
  ∀ d ∈ continuations, d.choice.Arrives k.automaton k.productions k.state (path ++ [d.symbol])
    d.behind.states

/-- A continuation holds a stack at which the stack that was followed arrives. -/
theorem arrives_of_follow {lookahead : List Symbol} {via : List Nat}
    (h : k.follow lookahead choice via c = .ok found) (hd : d ∈ found) :
    c.Arrives k.automaton k.productions [d.symbol] d.behind.states := by
  rw [follow] at h
  split at h
  · rename_i survey hsurvey
    cases Except.ok.inj h
    -- where a stack on the way arrives, the first one does, since reductions lead there
    refine found_of_visit
      (Q := fun d => c.Arrives k.automaton k.productions [d.symbol] d.behind.states)
      (R := fun stack => ∀ s states, stack.Arrives k.automaton k.productions [s] states →
        c.Arrives k.automaton k.productions [s] states)
      (fun stack hs q hq next hn s states hnext => ?_) (fun stack hs d hd => ?_)
      (fun _ _ h => h) (fun d hd => absurd hd List.not_mem_nil) hsurvey d hd
    · obtain ⟨hne, top, r, htop, hr, rfl⟩ := mem_reducible.1 hq
      exact hs s states (.reduce htop hr hne hn hnext)
    · obtain ⟨top, e, htop, he, hterm, hsymbol, hstates⟩ := behind_of_mem_shifts hd
      rw [hsymbol, hstates]
      exact hs _ _ (.shift htop he hterm .done)
  · cases h

/-- The continuations of a reduction hold stacks at which it arrives. -/
theorem arriving_of_followReduction {index : Nat} {r : Reduction}
    (hr : (k.automaton.reductions k.state)[index]? = some r)
    (h : k.followReduction index r.production = .ok found) : k.Arriving [] found := by
  intro d hd
  have hchoice := found_of_followReduction (fun _ _ => choice_of_mem_shifts) h d hd
  rw [followReduction] at h
  split at h
  · cases Except.ok.inj h
    exact absurd hd List.not_mem_nil
  · rename_i hne
    obtain ⟨lists, hlists, h⟩ := bind_eq_ok.1 h
    cases Except.ok.inj h
    obtain ⟨list, hlist, hd⟩ := List.mem_flatten.1 hd
    obtain ⟨next, hnext, hfollow⟩ := forall₂_mem_right (mapM_eq_ok.1 hlists) hlist
    rw [hchoice]
    exact .reduce hr hne hnext (arrives_of_follow hfollow hd)

/-- **The root level** is filled from stacks at which the choices arrive. -/
theorem arriving_of_settle {found : List (List Continuation)}
    (hfound : List.Forall₂ (fun x found => k.followReduction x.2 x.1.production = .ok found)
      (k.automaton.reductions k.state).zipIdx found) :
    k.Arriving [] (k.shifts .shift (.single k.state) ++ found.flatten) := by
  intro d hd
  rcases List.mem_append.1 hd with hd | hd
  · rw [choice_of_mem_shifts hd]
    obtain ⟨_, e, htop, he, hterm, hsymbol, hstates⟩ := behind_of_mem_shifts hd
    cases Option.some.inj htop
    rw [hsymbol, hstates]
    exact .shift he hterm .done
  · obtain ⟨list, hlist, hd⟩ := List.mem_flatten.1 hd
    obtain ⟨⟨r, index⟩, hmem, hfollow⟩ := forall₂_mem_right hfound hlist
    exact arriving_of_followReduction (List.mem_zipIdx_iff_getElem?.1 hmem) hfollow d hd

/-- **The level below** is filled from stacks at which the choices arrive. -/
theorem Arriving.below (h : k.Arriving path continuations) {next : List (List Continuation)}
    (hnext : (group continuations s).mapM (fun c =>
      k.follow (path ++ [s]) c.choice [] ⟨0, c.stack.reverse⟩) = .ok next) :
    k.Arriving (path ++ [s]) next.flatten := by
  intro d hd
  obtain ⟨list, hlist, hd⟩ := List.mem_flatten.1 hd
  obtain ⟨c, hc, hfollow⟩ := forall₂_mem_right (mapM_eq_ok.1 hnext) hlist
  obtain ⟨hmem, rfl⟩ := mem_group.1 hc
  rw [found_of_follow (fun _ _ => choice_of_mem_shifts) hfollow d hd]
  exact (h c hmem).trans rfl (arrives_of_follow hfollow hd)

end Contest
end BoundedLR
