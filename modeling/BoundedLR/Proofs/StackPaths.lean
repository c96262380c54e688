import BoundedLR.Derivation
import BoundedLR.Proofs.Reductions

/-!
# Stacks as paths through the automaton

The stack of a parser is a path through the automaton that begins at the start.
An item in the topmost state remembers the way: if its dot stands behind `d`
slots, then the state `d` places further down opened the production, and the `d`
edges from there on carried it along (`Path.unwind`).

Each edge of the path has been taken because a tree was completed: a token, or a
production with its children.  `Leads` says that a tree leads from one state to
the next, and `Grown` is a stack together with the trees on its edges.  Then an
item in the topmost state says of the topmost trees that they fit the slots
before its dot (`Grown.fits`).  This is what makes a reduction build a derivation
tree.
-/

namespace BoundedLR
namespace Automaton

variable {a : Automaton} {g : Productions} {start : Symbol}
  {n m p d top : Nat} {stack : List Nat} {t : Tree Nat} {trees : List (Tree Nat)}

/-! ## Paths -/

/-- A stack of states, the topmost first, in which each state is entered from the
one below it. -/
inductive Path (a : Automaton) : List Nat → Prop where
  | start : Path a [0]
  | push {n : Nat} {stack : List Nat} {e : Edge} :
      Path a (n :: stack) → e ∈ a.edges n → Path a (e.target :: n :: stack)

namespace Path

theorem ne_nil (h : a.Path stack) : stack ≠ [] := by
  cases h <;> exact List.cons_ne_nil _ _

theorem lt_count (ha : a.Realises g) (h : a.Path (top :: stack)) : top < a.count := by
  cases h with
  | start => exact ha.count_pos
  | push _ he => exact ha.target_lt he

/-- What lies under the topmost states is a path, too. -/
theorem drop (h : a.Path stack) {k : Nat} (hk : k < stack.length) : a.Path (stack.drop k) := by
  induction h generalizing k with
  | start =>
      obtain rfl : k = 0 := by simpa using hk
      exact .start
  | @push n stack e hp he ih =>
      cases k with
      | zero => exact .push hp he
      | succ k => exact ih (Nat.lt_of_succ_lt_succ hk)

/-- The start is at the bottom only. -/
theorem eq_nil_of_zero (ha : a.Realises g) (h : a.Path (0 :: stack)) : stack = [] := by
  generalize hz : (0 :: stack) = full at h
  cases h with
  | start => exact (List.cons.inj hz).2
  | push _ he => exact absurd (List.cons.inj hz).1.symm (ha.target_ne_zero he)

/-- **An item remembers the way.**  The state that opened its production lies as
deep as the dot has been moved, and its slots led from there to every state
above. -/
theorem unwind (ha : a.Realises g) (h : a.Path (top :: stack))
    (hi : (⟨p, d⟩ : Item) ∈ a.items top) :
    ∃ first, (top :: stack)[d]? = some first ∧ Item.initial p ∈ a.items first ∧
      ∀ k ≤ d, ∃ n, (top :: stack)[d - k]? = some n ∧ n ∈ a.statesAfter g first p k := by
  induction d generalizing top stack with
  | zero =>
      refine ⟨top, rfl, hi, fun k hk => ?_⟩
      obtain rfl : k = 0 := Nat.le_zero.1 hk
      exact ⟨top, rfl, List.mem_singleton_self _⟩
  | succ d ih =>
      have hker : (⟨p, d + 1⟩ : Item) ∈ a.kernel top :=
        ha.mem_kernel_of_dot_pos hi (Nat.succ_pos d)
      cases h with
      | start =>
          rw [ha.kernel_zero, List.mem_singleton] at hker
          exact absurd (congrArg Item.dot hker) (Nat.succ_ne_zero d)
      | @push n stack e hp he =>
          obtain ⟨⟨q, f⟩, hj, hs, hadv⟩ := ha.item_of_edge he hker
          obtain ⟨rfl, rfl⟩ : p = q ∧ d = f := by
            rw [Item.advance, Item.mk.injEq] at hadv
            exact ⟨hadv.1, Nat.succ.inj hadv.2⟩
          obtain ⟨first, hfirst, hopen, hway⟩ := ih hp hj
          refine ⟨first, hfirst, hopen, fun k hk => ?_⟩
          rcases Nat.lt_or_eq_of_le hk with hlt | rfl
          · obtain ⟨m, hm, hmem⟩ := hway k (Nat.le_of_lt_succ hlt)
            refine ⟨m, ?_, hmem⟩
            rw [Nat.succ_sub (Nat.le_of_lt_succ hlt)]
            exact hm
          · obtain ⟨m, hm, hmem⟩ := hway d (Nat.le_refl d)
            rw [Nat.sub_self, List.getElem?_cons_zero, Option.some.injEq] at hm
            subst hm
            obtain ⟨slot, hslot, hsym⟩ := Option.map_eq_some_iff.1 hs
            refine ⟨e.target, by rw [Nat.sub_self, List.getElem?_cons_zero], ?_⟩
            exact mem_statesAfter_succ.2 ⟨slot, hslot, n, hmem, e, he, hsym.symm, rfl, hker⟩

/-- A complete item of the topmost state gives a tuple for the state that its
reduction uncovers. -/
theorem exists_tuple (ha : a.Realises g) (hg : g.WellFormed start) (h : a.Path (top :: stack))
    (hp : p ≠ 0) (hi : (⟨p, g.length p⟩ : Item) ∈ a.items top) :
    ∃ first target, (top :: stack)[g.length p]? = some first ∧
      (first, target) ∈ a.reductionTuples g top p := by
  obtain ⟨first, hfirst, hopen, hway⟩ := h.unwind ha hi
  obtain ⟨i, hi', s, hs, hh, had⟩ := ha.opened hopen hp
  obtain ⟨e, -, hgoto, -, -⟩ := ha.goto_spec hopen hp hh (hg.isTerminal_of_head? hh hp)
  obtain ⟨n, hn, hlast⟩ := hway (g.length p) (Nat.le_refl _)
  rw [Nat.sub_self, List.getElem?_cons_zero, Option.some.injEq] at hn
  subst hn
  exact ⟨first, e.target, hfirst, mem_reductionTuples.2 ⟨s, hh, hp, hopen, hgoto, hlast⟩⟩

end Path

/-! ## Trees on the edges -/

/-- A tree leads from one state to another: a token over the edge on its symbol, a
node over the edge that its production takes. -/
inductive Leads (a : Automaton) (g : Productions) (n : Nat) : Tree Nat → Nat → Prop where
  | token {token : Token} {e : Edge} :
      e ∈ a.edges n → e.symbol = token.symbol → token.symbol.isTerminal = true →
      Leads a g n (.leaf token) e.target
  | production {c : Nat} {s : Symbol} {children : List (Tree Nat)} {e : Edge} :
      e ∈ a.edges n → e.symbol = s → s.isTerminal = false → g.head? c = some s →
      a.kernel e.target = g.kernelOver (g.before (a.items n) s) c →
      children.length = g.length c →
      (∀ i (t : Tree Nat), children[i]? = some t → g.Fits c i t) →
      Leads a g n (.node c children) e.target

theorem Leads.exists_edge (h : a.Leads g n t m) : ∃ e ∈ a.edges n, e.target = m := by
  cases h with
  | token he => exact ⟨_, he, rfl⟩
  | production he => exact ⟨_, he, rfl⟩

/-- **A tree fits the slot that it leads over.** -/
theorem Leads.fits (ha : a.Realises g) (h : a.Leads g n t m)
    (hi : (⟨p, d + 1⟩ : Item) ∈ a.kernel m) : (⟨p, d⟩ : Item) ∈ a.items n ∧ g.Fits p d t := by
  have hback : ∀ {j : Item}, (⟨p, d + 1⟩ : Item) = j.advance → j = ⟨p, d⟩ := by
    rintro ⟨q, f⟩ hadv
    rw [Item.advance, Item.mk.injEq] at hadv
    rw [hadv.1, Nat.succ.inj hadv.2]
  cases h with
  | token he hes ht =>
      obtain ⟨j, hj, hs, hadv⟩ := ha.item_of_edge he hi
      obtain rfl := hback hadv
      obtain ⟨slot, hslot, hsym⟩ := Option.map_eq_some_iff.1 hs
      refine ⟨hj, .token hslot (hes.symm.trans hsym.symm) ?_⟩
      rw [hsym, hes]
      exact ht
  | production he hes hs hh hk hlen hfit =>
      rw [hk] at hi
      obtain ⟨j, hj, had, hadv⟩ := Productions.mem_kernelOver.1 hi
      obtain rfl := hback hadv
      obtain ⟨hj, hnext⟩ := Productions.mem_before.1 hj
      obtain ⟨slot, hslot, hsym⟩ := Option.map_eq_some_iff.1 hnext
      refine ⟨hj, .production hslot (by rw [hsym]; exact hh) ?_ hlen hfit⟩
      rw [Productions.admits, Productions.accepts, hslot] at had
      exact had

/-- A stack of states with the trees that led from each to the next, both the
topmost first. -/
inductive Grown (a : Automaton) (g : Productions) : List Nat → List (Tree Nat) → Prop where
  | start : Grown a g [0] []
  | push {n m : Nat} {stack : List Nat} {t : Tree Nat} {trees : List (Tree Nat)} :
      Grown a g (n :: stack) trees → Leads a g n t m → Grown a g (m :: n :: stack) (t :: trees)

namespace Grown

theorem path (h : a.Grown g stack trees) : a.Path stack := by
  induction h with
  | start => exact .start
  | push _ hl ih =>
      obtain ⟨e, he, rfl⟩ := hl.exists_edge
      exact .push ih he

theorem length_eq (h : a.Grown g stack trees) : stack.length = trees.length + 1 := by
  induction h with
  | start => rfl
  | push _ _ ih => rw [List.length_cons, ih, List.length_cons]

/-- What lies under the topmost trees has grown, too. -/
theorem drop (h : a.Grown g stack trees) {k : Nat} (hk : k ≤ trees.length) :
    a.Grown g (stack.drop k) (trees.drop k) := by
  induction h generalizing k with
  | start =>
      obtain rfl : k = 0 := by simpa using hk
      exact .start
  | push hp hl ih =>
      cases k with
      | zero => exact .push hp hl
      | succ k => exact ih (Nat.le_of_succ_le_succ hk)

/-- **The topmost trees fit the slots before the dot** of any item in the topmost
state. -/
theorem fits (ha : a.Realises g) (h : a.Grown g (top :: stack) trees)
    (hi : (⟨p, d⟩ : Item) ∈ a.items top) :
    d ≤ trees.length ∧
      ∀ i (t : Tree Nat), ((trees.take d).reverse)[i]? = some t → g.Fits p i t := by
  induction d generalizing top stack trees with
  | zero =>
      refine ⟨Nat.zero_le _, fun i t ht => ?_⟩
      rw [List.take_zero, List.reverse_nil] at ht
      cases ht
  | succ d ih =>
      have hker : (⟨p, d + 1⟩ : Item) ∈ a.kernel top :=
        ha.mem_kernel_of_dot_pos hi (Nat.succ_pos d)
      cases h with
      | start =>
          rw [ha.kernel_zero, List.mem_singleton] at hker
          exact absurd (congrArg Item.dot hker) (Nat.succ_ne_zero d)
      | @push n _ stack t trees hp hl =>
          obtain ⟨hj, hfit⟩ := hl.fits ha hker
          obtain ⟨hle, hfits⟩ := ih hp hj
          refine ⟨Nat.succ_le_succ hle, fun i u hu => ?_⟩
          have hlen : (trees.take d).reverse.length = d := by
            rw [List.length_reverse, List.length_take, Nat.min_eq_left hle]
          rw [List.take_succ_cons, List.reverse_cons] at hu
          rcases Nat.lt_trichotomy i d with hlt | rfl | hgt
          · rw [List.getElem?_append_left (by rw [hlen]; exact hlt)] at hu
            exact hfits i u hu
          · rw [List.getElem?_append_right (by rw [hlen]), hlen, Nat.sub_self,
              List.getElem?_cons_zero, Option.some.injEq] at hu
            rw [← hu]
            exact hfit
          · rw [List.getElem?_eq_none] at hu
            · cases hu
            · rw [List.length_append, hlen]
              exact hgt

end Grown
end Automaton
end BoundedLR
