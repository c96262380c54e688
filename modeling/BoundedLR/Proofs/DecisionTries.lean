import BoundedLR.Lookahead.Contest
import BoundedLR.Parser
import BoundedLR.Proofs.Sequencing

/-!
# What a level of a decision trie says

`Contest.level` fills a level one terminal after the other.  What the finished
level says about a terminal depends on the continuations that begin with it, and
on nothing else: if they all belong to one choice, the choice is made; if several
choices are left, the level below is built from what follows them.
`Contest.find?_split` says this for a whole trie, one level at a time.

A parser reads a trie from the root, and the levels that it passes spell out the
symbols that it has looked at.  `Trie.walk` is the way down.
-/

namespace BoundedLR

namespace Trie

variable {α : Type}

/-- The level that is reached when some symbols have been looked at one after the
other, each of them leading one level down. -/
def walk : List Symbol → Trie α → Option (Trie α)
  | [], t => some t
  | s :: word, t =>
    match t.find? s with
    | some (.deeper below) => walk word below
    | _ => none

/-- Looking at one more symbol leads one level further down. -/
theorem walk_append {word : List Symbol} {s : Symbol} {t level below : Trie α}
    (h : t.walk word = some level) (hs : level.find? s = some (.deeper below)) :
    t.walk (word ++ [s]) = some below := by
  induction word generalizing t with
  | nil =>
      cases h
      rw [List.nil_append, walk, hs]
      rfl
  | cons r word ih =>
      rw [walk] at h
      split at h
      · rename_i next hnext
        rw [List.cons_append, walk, hnext]
        exact ih h
      · cases h

end Trie

/-! ## A state that can only shift -/

theorem find?_shiftTrie {announcing : Array Bool} {edges : List Edge} {s : Symbol} :
    (shiftTrie announcing edges).find? s = (edges.find? (·.symbol == s)).map fun e =>
      .settled (.shift e.target (announcing.getD e.target false)) := by
  induction edges with
  | nil => rfl
  | cons e rest ih =>
      rw [shiftTrie, Trie.find?, List.find?_cons]
      by_cases hs : s = e.symbol
      · rw [if_pos hs, hs, beq_self_eq_true]
        rfl
      · rw [if_neg hs, ih, beq_eq_false_iff_ne.2 (Ne.symm hs)]

/-- Such a trie has one level only. -/
theorem eq_nil_of_walk_shiftTrie {announcing : Array Bool} {edges : List Edge} {word : List Symbol}
    {level : Trie Decision} (h : (shiftTrie announcing edges).walk word = some level) :
    word = [] := by
  cases word with
  | nil => rfl
  | cons s word =>
      rw [Trie.walk, find?_shiftTrie] at h
      split at h
      · rename_i hbelow
        obtain ⟨e, -, hentry⟩ := Option.map_eq_some_iff.1 hbelow
        cases hentry
      · cases h

namespace Contest

variable {k : Contest} {path : List Symbol} {continuations : List Continuation} {s : Symbol}
  {trie : Trie Decision}

/-! ## One level -/

/-- The continuations that begin with a terminal. -/
def group (continuations : List Continuation) (s : Symbol) : List Continuation :=
  ascending (continuations.filter fun c => c.symbol == s)

/-- The choices that a terminal leaves open. -/
def remaining (continuations : List Continuation) (s : Symbol) : List Choice :=
  ascending ((group continuations s).map (·.choice))

theorem mem_group {c : Continuation} :
    c ∈ group continuations s ↔ c ∈ continuations ∧ c.symbol = s := by
  rw [group, mem_ascending, List.mem_filter, beq_iff_eq]

theorem mem_remaining {choice : Choice} :
    choice ∈ remaining continuations s ↔
      ∃ c ∈ continuations, c.symbol = s ∧ c.choice = choice := by
  rw [remaining, mem_ascending, List.mem_map]
  constructor
  · rintro ⟨c, hc, rfl⟩
    exact ⟨c, (mem_group.1 hc).1, (mem_group.1 hc).2, rfl⟩
  · rintro ⟨c, hc, hs, rfl⟩
    exact ⟨c, mem_group.2 ⟨hc, hs⟩, rfl⟩

/-- What a level does about its first terminal depends on the choices that are left there. -/
theorem level_cons {below : List Symbol → List Choice → List Continuation →
      Except Conflict (Trie Decision)} {symbols : List Symbol} {r : Symbol} :
    k.level below path continuations (r :: symbols) =
      match remaining continuations r with
      | [choice] =>
        match k.decision? (path ++ [r]) choice with
        | some decision =>
          k.level below path continuations symbols >>= fun rest => .ok (.leaf r decision rest)
        | none => k.level below path continuations symbols
      | choices =>
        if r = .endOfInput || collides (group continuations r) then
          .error (k.complaint .ambiguity (path ++ [r]) choices [])
        else below (path ++ [r]) choices (group continuations r) >>= fun deeper =>
          k.level below path continuations symbols >>= fun rest => .ok (.branch r deeper rest) := by
  rw [level]
  change (match remaining continuations r with
    | [choice] => _
    | _ => _) = _
  split <;> rfl

/-- What a level says about a terminal, and why. -/
inductive LevelSays (k : Contest) (below : List Symbol → List Choice → List Continuation →
      Except Conflict (Trie Decision))
    (path : List Symbol) (continuations : List Continuation) (s : Symbol) (symbols : List Symbol) :
    Option (TrieEntry Decision) → Prop where
  | absent : s ∉ symbols → LevelSays k below path continuations s symbols none
  | impossible {choice : Choice} : remaining continuations s = [choice] →
      k.decision? (path ++ [s]) choice = none →
      LevelSays k below path continuations s symbols none
  | settled {choice : Choice} {decision : Decision} : s ∈ symbols →
      remaining continuations s = [choice] →
      k.decision? (path ++ [s]) choice = some decision →
      LevelSays k below path continuations s symbols (some (.settled decision))
  | deeper {deeper : Trie Decision} : s ∈ symbols → s ≠ .endOfInput →
      collides (group continuations s) = false →
      (∀ choice, remaining continuations s ≠ [choice]) →
      below (path ++ [s]) (remaining continuations s) (group continuations s) = .ok deeper →
      LevelSays k below path continuations s symbols (some (.deeper deeper))

/-- What the later terminals of a level say does not depend on the first. -/
theorem LevelSays.cons {below : List Symbol → List Choice → List Continuation →
      Except Conflict (Trie Decision)} {symbols : List Symbol} {r : Symbol} (hr : s ≠ r)
    {entry : Option (TrieEntry Decision)}
    (h : LevelSays k below path continuations s symbols entry) :
    LevelSays k below path continuations s (r :: symbols) entry := by
  cases h with
  | absent hs => exact .absent fun hmem => (List.mem_cons.1 hmem).elim hr hs
  | impossible hc hd => exact .impossible hc hd
  | settled hs hc hd => exact .settled (List.mem_cons_of_mem _ hs) hc hd
  | deeper hs he hcol hc hb => exact .deeper (List.mem_cons_of_mem _ hs) he hcol hc hb

/-- What a level does about its first terminal: it settles it, leaves it out or
builds another level for it. -/
theorem level_cons_cases {below : List Symbol → List Choice → List Continuation →
      Except Conflict (Trie Decision)} {symbols : List Symbol} {r : Symbol}
    (h : k.level below path continuations (r :: symbols) = .ok trie) :
    (∃ choice decision rest, remaining continuations r = [choice] ∧
      k.decision? (path ++ [r]) choice = some decision ∧
      k.level below path continuations symbols = .ok rest ∧ trie = .leaf r decision rest) ∨
    (∃ choice, remaining continuations r = [choice] ∧
      k.decision? (path ++ [r]) choice = none ∧
      k.level below path continuations symbols = .ok trie) ∨
    ∃ deeper rest, (∀ choice, remaining continuations r ≠ [choice]) ∧ r ≠ .endOfInput ∧
      collides (group continuations r) = false ∧
      below (path ++ [r]) (remaining continuations r) (group continuations r) = .ok deeper ∧
      k.level below path continuations symbols = .ok rest ∧ trie = .branch r deeper rest := by
  rw [level_cons] at h
  split at h
  · rename_i choice hchoice
    split at h
    · rename_i decision hdecision
      obtain ⟨rest, hrest, h⟩ := bind_eq_ok.1 h
      exact .inl ⟨choice, decision, rest, hchoice, hdecision, hrest, (Except.ok.inj h).symm⟩
    · rename_i hnone
      exact .inr (.inl ⟨choice, hchoice, hnone, h⟩)
  · rename_i hchoice
    split at h
    · cases h
    · rename_i hopen
      rw [Bool.or_eq_true, decide_eq_true_eq, not_or] at hopen
      obtain ⟨deeper, hdeeper, h⟩ := bind_eq_ok.1 h
      obtain ⟨rest, hrest, h⟩ := bind_eq_ok.1 h
      exact .inr (.inr ⟨deeper, rest, fun choice hc => hchoice choice hc, hopen.1,
        Bool.eq_false_iff.2 hopen.2, hdeeper, hrest, (Except.ok.inj h).symm⟩)

/-- **Each terminal of a level is treated on its own.** -/
theorem find?_level {below : List Symbol → List Choice → List Continuation →
      Except Conflict (Trie Decision)} {symbols : List Symbol}
    (h : k.level below path continuations symbols = .ok trie) (s : Symbol) :
    LevelSays k below path continuations s symbols (trie.find? s) := by
  induction symbols generalizing trie with
  | nil =>
      cases Except.ok.inj h
      exact .absent List.not_mem_nil
  | cons r symbols ih =>
      rcases level_cons_cases h with ⟨choice, decision, rest, hchoice, hdecision, hrest, rfl⟩ |
        ⟨choice, hchoice, hnone, hrest⟩ |
        ⟨deeper, rest, hchoice, hend, hcollides, hdeeper, hrest, rfl⟩
      · rw [Trie.find?]
        by_cases hs : s = r
        · rw [if_pos hs, hs]
          exact .settled List.mem_cons_self hchoice hdecision
        · rw [if_neg hs]
          exact (ih hrest).cons hs
      · by_cases hs : s = r
        · subst hs
          -- a later entry for the same terminal would be decided in the same way
          have hrest := ih hrest
          cases hentry : trie.find? s with
          | none => exact .impossible hchoice hnone
          | some entry =>
              rw [hentry] at hrest
              cases hrest with
              | settled _ hc hd =>
                  rw [hchoice, List.cons.injEq] at hc
                  rw [← hc.1, hnone] at hd
                  cases hd
              | deeper _ _ _ hc => exact absurd hchoice (hc choice)
        · exact (ih hrest).cons hs
      · rw [Trie.find?]
        by_cases hs : s = r
        · rw [if_pos hs, hs]
          exact .deeper List.mem_cons_self hend hcollides hchoice hdeeper
        · rw [if_neg hs]
          exact (ih hrest).cons hs

/-! ## All levels -/

theorem mem_terminals :
    s ∈ terminals continuations ↔ ∃ c ∈ continuations, c.symbol = s := by
  rw [terminals, mem_ascending, List.mem_map]

/-- What the trie that is built from some continuations says about a terminal, and
why. -/
inductive SplitSays (k : Contest) (levels : Nat) (path : List Symbol)
    (continuations : List Continuation) (s : Symbol) : Option (TrieEntry Decision) → Prop where
  | absent : (∀ c ∈ continuations, c.symbol ≠ s) →
      SplitSays k levels path continuations s none
  | impossible {choice : Choice} : remaining continuations s = [choice] →
      k.decision? (path ++ [s]) choice = none → SplitSays k levels path continuations s none
  | settled {choice : Choice} {decision : Decision} : remaining continuations s = [choice] →
      k.decision? (path ++ [s]) choice = some decision →
      SplitSays k levels path continuations s (some (.settled decision))
  | deeper {fewer : Nat} {next : List (List Continuation)} {below : Trie Decision} :
      levels = fewer + 1 → s ≠ .endOfInput → (∃ c ∈ continuations, c.symbol = s) →
      (∀ choice, remaining continuations s ≠ [choice]) →
      (group continuations s).mapM (fun c =>
        k.follow (path ++ [s]) c.choice [] ⟨0, c.stack.reverse⟩) = .ok next →
      k.split fewer (path ++ [s]) next.flatten = .ok below →
      SplitSays k levels path continuations s (some (.deeper below))

theorem LevelSays.splitSays {below : List Symbol → List Choice → List Continuation →
      Except Conflict (Trie Decision)} {levels : Nat} {entry : Option (TrieEntry Decision)}
    (h : LevelSays k below path continuations s (terminals continuations) entry)
    (hbelow : ∀ deeper, s ≠ .endOfInput → (∃ c ∈ continuations, c.symbol = s) →
      (∀ choice, remaining continuations s ≠ [choice]) →
      below (path ++ [s]) (remaining continuations s) (group continuations s) = .ok deeper →
      SplitSays k levels path continuations s (some (.deeper deeper))) :
    SplitSays k levels path continuations s entry := by
  cases h with
  | absent hs => exact .absent fun c hc hcs => hs (mem_terminals.2 ⟨c, hc, hcs⟩)
  | impossible hc hd => exact .impossible hc hd
  | settled _ hc hd => exact .settled hc hd
  | deeper hs he _ hc hb => exact hbelow _ he (mem_terminals.1 hs) hc hb

/-- **What a trie says about a terminal** depends on the continuations that begin
with it. -/
theorem find?_split {levels : Nat} (h : k.split levels path continuations = .ok trie)
    (s : Symbol) : SplitSays k levels path continuations s (trie.find? s) := by
  cases levels with
  | zero =>
      refine (find?_level h s).splitSays fun deeper _ _ _ hb => ?_
      cases hb
  | succ levels =>
      refine (find?_level h s).splitSays fun deeper he hs hc hb => ?_
      obtain ⟨next, hnext, hsplit⟩ := bind_eq_ok.1 hb
      exact .deeper rfl he hs hc hnext hsplit

/-- **No way down is longer than the number of levels** that may be built. -/
theorem length_le_of_walk {levels : Nat} {word : List Symbol} {level : Trie Decision}
    (h : k.split levels path continuations = .ok trie) (hw : trie.walk word = some level) :
    word.length ≤ levels := by
  induction word generalizing levels path continuations trie with
  | nil => exact Nat.zero_le levels
  | cons s word ih =>
      have hsays := find?_split h s
      rw [Trie.walk] at hw
      split at hw
      · rename_i below hbelow
        rw [hbelow] at hsays
        cases hsays with
        | deeper hlevels _ _ _ _ hsplit =>
            rw [hlevels]
            exact Nat.succ_le_succ (ih hsplit hw)
      · cases hw

/-- **No way down passes the end of input**: behind it nothing can be looked at. -/
theorem endOfInput_notMem_of_walk {levels : Nat} {word : List Symbol} {level : Trie Decision}
    (h : k.split levels path continuations = .ok trie) (hw : trie.walk word = some level) :
    .endOfInput ∉ word := by
  induction word generalizing levels path continuations trie with
  | nil => exact List.not_mem_nil
  | cons s word ih =>
      have hsays := find?_split h s
      rw [Trie.walk] at hw
      split at hw
      · rename_i below hbelow
        rw [hbelow] at hsays
        cases hsays with
        | deeper _ hend _ _ _ hsplit =>
            exact fun hmem => (List.mem_cons.1 hmem).elim (hend ·.symm) (ih hsplit hw)
      · cases hw

end Contest
end BoundedLR
