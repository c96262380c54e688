import BoundedLR.Proofs.StackPaths

/-!
# What a derivation tree makes a parser do

A derivation tree read from the left to the right, each node after its children,
is a sequence of shifts and reductions.  `Tree.turns` lists them, and
`Automaton.Follows` says that a stack can carry out such a sequence, ending in
another stack.

The stack can carry out the turns of every tree that fits the slot behind a dot
of its topmost state, and puts one state on top of itself by that
(`Productions.Fits.follows`).  In particular it can carry out the turns of a
whole sentence from the start, and then shift the end of input.  So the
automaton refuses no sentence; what is left to show about a parser is that it
chooses the right turns.
-/

namespace BoundedLR

/-- What a parser does to its stack. -/
inductive Turn where
  | shift (symbol : Symbol)
  | reduce (production : Nat)
  deriving DecidableEq, Repr

namespace Turn

/-- The symbol that is shifted. -/
def shifted? : Turn → Option Symbol
  | shift s => some s
  | reduce _ => none

/-- The symbols that are shifted, in order. -/
def word (turns : List Turn) : List Symbol := turns.filterMap shifted?

@[simp] theorem word_nil : word [] = [] := rfl

@[simp] theorem word_shift (s : Symbol) (turns : List Turn) :
    word (.shift s :: turns) = s :: word turns := rfl

@[simp] theorem word_reduce (q : Nat) (turns : List Turn) :
    word (.reduce q :: turns) = word turns := rfl

theorem word_append (turns more : List Turn) : word (turns ++ more) = word turns ++ word more :=
  List.filterMap_append

end Turn

namespace Tree

mutual

/-- The turns that build a tree. -/
def turns : Tree Nat → List Turn
  | leaf token => [.shift token.symbol]
  | node q children => turnsOfAll children ++ [.reduce q]

/-- The turns that build neighbouring trees. -/
def turnsOfAll : List (Tree Nat) → List Turn
  | [] => []
  | t :: rest => t.turns ++ turnsOfAll rest

end

theorem turnsOfAll_append (ts us : List (Tree Nat)) :
    turnsOfAll (ts ++ us) = turnsOfAll ts ++ turnsOfAll us := by
  induction ts with
  | nil => rfl
  | cons t ts ih => rw [List.cons_append, turnsOfAll, turnsOfAll, ih, List.append_assoc]

mutual

/-- The turns of a tree shift its leaves. -/
theorem word_turns : ∀ t : Tree Nat, Turn.word t.turns = t.leaves.map (·.symbol)
  | leaf token => rfl
  | node q children => by
    rw [turns, Turn.word_append, word_turnsOfAll children, leaves]
    exact List.append_nil _

theorem word_turnsOfAll : ∀ ts : List (Tree Nat),
    Turn.word (turnsOfAll ts) = (leavesOfAll ts).map (·.symbol)
  | [] => rfl
  | t :: rest => by
    rw [turnsOfAll, Turn.word_append, word_turns t, word_turnsOfAll rest, leavesOfAll,
      List.map_append]

end

end Tree

namespace Automaton

variable {a : Automaton} {g : Productions} {start : Symbol} {top : Nat}
  {stack final : List Nat} {turns more : List Turn}

/-- A stack carries out turns one after the other, and becomes another stack. -/
inductive Follows (a : Automaton) (g : Productions) : List Nat → List Turn → List Nat → Prop where
  | done {stack : List Nat} : Follows a g stack [] stack
  | shift {top : Nat} {stack final : List Nat} {turns : List Turn} {e : Edge} :
      e ∈ a.edges top → e.symbol.isTerminal = true →
      Follows a g (e.target :: top :: stack) turns final →
      Follows a g (top :: stack) (.shift e.symbol :: turns) final
  | reduce {top p first target : Nat} {stack final : List Nat} {turns : List Turn} :
      p ≠ 0 → (⟨p, g.length p⟩ : Item) ∈ a.items top →
      (top :: stack)[g.length p]? = some first → (first, target) ∈ a.reductionTuples g top p →
      Follows a g (target :: (top :: stack).drop (g.length p)) turns final →
      Follows a g (top :: stack) (.reduce p :: turns) final

namespace Follows

theorem trans {between : List Nat} (h : a.Follows g stack turns between)
    (h' : a.Follows g between more final) : a.Follows g stack (turns ++ more) final := by
  induction h with
  | done => exact h'
  | shift he ht _ ih => exact .shift he ht (ih h')
  | reduce hp hi hf htuple _ ih => exact .reduce hp hi hf htuple (ih h')

/-- The stack after a reduction is a path. -/
theorem path_reduce (ha : a.Realises g) (hg : g.WellFormed start) {p first target last : Nat}
    (hp : a.Path stack) (hf : stack[g.length p]? = some first)
    (ht : (first, target) ∈ a.reductionTuples g last p) :
    a.Path (target :: stack.drop (g.length p)) := by
  obtain ⟨hlt, -⟩ := List.getElem?_eq_some_iff.1 hf
  have hdrop := hp.drop hlt
  obtain ⟨under, hunder⟩ := exists_drop_eq_cons hf
  obtain ⟨head, hhead, hne, -, -, -⟩ := mem_reductionTuples.1 ht
  obtain ⟨e, he, rfl, -, -⟩ := ha.edge_of_tuple hhead (hg.isTerminal_of_head? hhead hne) ht
  rw [hunder] at hdrop ⊢
  exact hdrop.push he

end Follows

/-! ## The turns of a tree -/

/-- The item behind a slot, once the slot has been filled. -/
theorem Realises.mem_items_of_kernel (ha : a.Realises g) {i : Item} {n : Nat}
    (h : a.Path (n :: stack)) (hi : i ∈ a.kernel n) : i ∈ a.items n :=
  ha.kernel_subset (h.lt_count ha) hi

end Automaton

namespace Productions

variable {a : Automaton} {g : Productions} {start : Symbol}

/-- A tree that fits a slot can be built on every stack that expects it there. -/
def Buildable (a : Automaton) (g : Productions) (p e : Nat) (t : Tree Nat) : Prop :=
  ∀ top stack, a.Path (top :: stack) → (⟨p, e⟩ : Item) ∈ a.items top →
    ∃ n, a.Follows g (top :: stack) t.turns (n :: top :: stack) ∧ a.Path (n :: top :: stack) ∧
      (⟨p, e + 1⟩ : Item) ∈ a.items n

/-- The first few children of a node are built one after the other. -/
theorem follows_children (c : Nat) {children : List (Tree Nat)}
    (hb : ∀ i (t : Tree Nat), children[i]? = some t → Buildable a g c i t)
    {first : Nat} {stack : List Nat} (hp : a.Path (first :: stack))
    (hi : Item.initial c ∈ a.items first) {k : Nat} (hk : k ≤ children.length) :
    ∃ top above, above.length = k ∧ (above ++ first :: stack).head? = some top ∧
      a.Follows g (first :: stack) (Tree.turnsOfAll (children.take k)) (above ++ first :: stack) ∧
      a.Path (above ++ first :: stack) ∧ (⟨c, k⟩ : Item) ∈ a.items top := by
  induction k with
  | zero => exact ⟨first, [], rfl, rfl, .done, hp, hi⟩
  | succ k ih =>
      obtain ⟨top, above, hlen, hhead, hrun, hpath, hitem⟩ := ih (Nat.le_of_succ_le hk)
      obtain ⟨rest, hrest⟩ := List.head?_eq_some_iff.1 hhead
      have hget : children[k]? = some children[k] := List.getElem?_eq_getElem hk
      rw [hrest] at hrun hpath
      obtain ⟨n, hturns, hpath', hitem'⟩ := hb k _ hget top rest hpath hitem
      refine ⟨n, n :: above, congrArg Nat.succ hlen, rfl, ?_, ?_, hitem'⟩
      · rw [List.take_add_one, hget, Tree.turnsOfAll_append, List.cons_append, hrest]
        refine hrun.trans ?_
        rw [Option.toList_some, Tree.turnsOfAll, Tree.turnsOfAll, List.append_nil]
        exact hturns
      · rw [List.cons_append, hrest]
        exact hpath'

/-- **A tree that fits can be built.** -/
theorem Fits.follows (ha : a.Realises g) (hg : g.WellFormed start) {p e : Nat} {t : Tree Nat}
    (h : g.Fits p e t) : Buildable a g p e t := by
  induction h with
  | @token p e slot token hslot hsym hterm =>
      intro top stack hpath hitem
      have hnext : g.nextSymbol ⟨p, e⟩ = some slot.symbol := by
        rw [nextSymbol, hslot]
        rfl
      obtain ⟨edge, he, hes, hk⟩ := ha.shift_spec hitem hnext hterm
      have hpath' := hpath.push he
      refine ⟨edge.target, ?_, hpath', ha.mem_items_of_kernel hpath' hk⟩
      rw [Tree.turns, hsym, ← hes]
      exact .shift he (hes ▸ hterm) .done
  | @production p e c slot children hslot hhead hacc hlen _ ih =>
      intro top stack hpath hitem
      have hnext : g.nextSymbol ⟨p, e⟩ = some slot.symbol := by
        rw [nextSymbol, hslot]
        rfl
      have hadmits : g.admits ⟨p, e⟩ c = true := by
        rw [admits, accepts, hslot]
        exact hacc
      have hopen := ha.initial_mem_items hitem hnext hhead hadmits
      have hne := hg.ne_zero_of_head?_slot hslot hhead
      have hterm : slot.symbol.isTerminal = false := hg.isTerminal_of_head? hhead hne
      obtain ⟨last, above, hl, hlast, hrun, hpath', hend⟩ :=
        follows_children c ih hpath hopen (Nat.le_refl children.length)
      rw [List.take_length] at hrun
      rw [hlen] at hl hend
      obtain ⟨rest, hrest⟩ := List.head?_eq_some_iff.1 hlast
      have hunder : (above ++ top :: stack)[g.length c]? = some top := by
        rw [← hl, List.getElem?_append_right (Nat.le_refl _), Nat.sub_self]
        rfl
      rw [hrest] at hpath' hunder hrun
      obtain ⟨first, target, hfirst, htuple⟩ := hpath'.exists_tuple ha hg hne hend
      rw [hunder, Option.some.injEq] at hfirst
      subst hfirst
      have hdrop : (last :: rest).drop (g.length c) = top :: stack := by
        rw [← hrest, ← hl, List.drop_left]
      obtain ⟨edge, -, htarget, -, hk⟩ := ha.edge_of_tuple hhead hterm htuple
      have hpath'' := Automaton.Follows.path_reduce ha hg hpath' hunder htuple
      rw [hdrop] at hpath''
      refine ⟨target, ?_, hpath'', ?_⟩
      · rw [Tree.turns]
        refine hrun.trans (.reduce hne hend hunder htuple ?_)
        rw [hdrop]
        exact .done
      · refine ha.mem_items_of_kernel hpath'' ?_
        rw [hk]
        exact mem_kernelOver.2 ⟨_, mem_before.2 ⟨hitem, hnext⟩, hadmits, rfl⟩

/-- **Every sentence can be built from the start**, and then the end of input can be
shifted. -/
theorem Sentence.follows (ha : a.Realises g) (hg : g.WellFormed start) {t : Tree Nat}
    (h : g.Sentence t) : ∃ top stack,
      a.Follows g [0] (t.turns ++ [.shift .endOfInput]) (top :: stack) ∧
      (⟨0, g.length 0⟩ : Item) ∈ a.items top := by
  have hzero : Item.initial 0 ∈ a.items 0 := by
    refine ha.kernel_subset ha.count_pos ?_
    rw [ha.kernel_zero]
    exact List.mem_singleton_self _
  obtain ⟨n, hrun, hpath, hitem⟩ :=
    Fits.follows ha hg h 0 [] .start hzero
  have hnext : g.nextSymbol ⟨0, 0 + 1⟩ = some .endOfInput := by
    rw [nextSymbol, slot?, hg.slots_zero]
    rfl
  obtain ⟨e, he, hes, hk⟩ := ha.shift_spec hitem hnext rfl
  have hpath' := hpath.push he
  refine ⟨e.target, [n, 0], hrun.trans ?_, ?_⟩
  · rw [← hes]
    exact .shift he (by rw [hes]; rfl) .done
  · rw [hg.length_zero]
    exact ha.mem_items_of_kernel hpath' hk

end Productions
end BoundedLR
