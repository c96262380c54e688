import BoundedLR.Proofs.Announcements
import BoundedLR.Proofs.TableSafety

/-!
# Tables that foresee announcements

The steps of a parse can only be handed out early because the flags of a table tell,
long before an announcement is inserted, that one may be.  What the flags have to
promise for this is said about a table as such, whatever it has been made from:
`ParseTable.Foresees` asks for marks on the nodes, so that a node that reduces with an
announcement is marked, a node that leads to a marked node is marked, and whoever
enters a marked node is told so by a flag.

A compiled grammar foresees its announcements, with the states that announce as its
marked nodes; and so does a table that corresponds to it.
-/

namespace BoundedLR

/-- The nodes from which announcements may still become due are among the marked
ones, and the flags of the table say so to those who enter them. -/
structure ParseTable.Foresees {Node Level : Type} (t : ParseTable Node Level)
    (marked : Node → Prop) : Prop where
  shift : ∀ {n l s target predict}, t.Reaches n l →
    t.find n l s = .ok (some (.shift target predict)) → marked target → predict = true ∧ marked n
  landing : ∀ {n l index last m landing}, t.Reaches n l → t.Offers n l index → t.Reaches last m →
    t.landing n index last = .ok (some landing) → marked landing.target →
    landing.predict = true ∧ marked n
  due : ∀ {n l index q}, t.Reaches n l → t.Offers n l index → t.property n index = .ok q →
    q.predict = true → marked n

/-! ## Compiled grammars -/

namespace Parser

variable {p : Parser} {start : Symbol}

/-- The levels that are used with a state are places in its trie. -/
theorem exists_walk_of_reaches {n : Nat} {level : Trie Decision} (h : p.table.Reaches n level) :
    ∃ root word, p.table.root n = .ok root ∧ root.walk word = some level := by
  induction h with
  | startup hroot => exact ⟨_, [], hroot, rfl⟩
  | @descend n level below s _ hfind ih =>
      obtain ⟨root, word, hroot, hw⟩ := ih
      obtain ⟨entry, hentry, haction⟩ := Option.map_eq_some_iff.1 (Except.ok.inj hfind)
      obtain rfl : entry = .deeper below := actionOf_injective haction
      exact ⟨root, word ++ [s], hroot, Trie.walk_append hw hentry⟩
  | shift _ _ hroot => exact ⟨_, [], hroot, rfl⟩
  | landing _ _ _ _ hroot => exact ⟨_, [], hroot, rfl⟩

/-- **A compiled grammar foresees its announcements.** -/
theorem Compiled.foresees (hp : p.Compiled start) :
    p.table.Foresees (p.automaton.Announces p.productions) where
  shift {n level s target predict} hreaches hfind hmarked := by
    obtain ⟨root, word, hroot, hw⟩ := exists_walk_of_reaches hreaches
    obtain ⟨entry, hentry, haction⟩ := Option.map_eq_some_iff.1 (Except.ok.inj hfind)
    obtain rfl : entry = .settled (.shift target predict) := actionOf_injective haction
    obtain ⟨hmem, hflag⟩ := hp.flag_of_shift hroot hw hentry
    exact ⟨hflag.trans (announces_iff.2 hmarked), .later hmem hmarked⟩
  landing _ _ _ hlanding hmarked := by
    obtain ⟨hmem, hflag⟩ := hp.flag_of_landing hlanding
    exact ⟨hflag.trans (announces_iff.2 hmarked), .later hmem hmarked⟩
  due _ _ hproperty hq := hp.announces_of_property hproperty hq

end Parser

/-! ## Stored tables -/

/-- **A table foresees what the table that it corresponds to foresees**, provided that
no two nodes are stored at one place. -/
theorem Correspondence.Respected.foresees {Node Level Node' Level' : Type} {F : Fault → Prop}
    {R : Correspondence Node Level Node' Level'} {t : ParseTable Node Level}
    {t' : ParseTable Node' Level'} {marked : Node → Prop} (h : R.Respected F t t')
    (hinj : ∀ {n m n'}, R.node n n' → R.node m n' → n = m) (ht : t.Foresees marked) :
    t'.Foresees fun n' => ∃ n, R.node n n' ∧ marked n where
  shift {n' l' s target' predict} hreaches' hfind' hmarked := by
    obtain ⟨n, l, hreaches, hn, hl⟩ := exists_of_reaches h hreaches'
    obtain ⟨action, hfind, haction⟩ := exists_action h hn hl hfind'
    obtain ⟨target, htarget, hmarked⟩ := hmarked
    cases haction with
    | shift htarget' =>
        rw [hinj htarget htarget'] at hmarked
        obtain ⟨hflag, hmark⟩ := ht.shift hreaches hfind hmarked
        exact ⟨hflag, n, hn, hmark⟩
  landing {n' l' index last' m' landing'} hreaches' hoffers' hlast' hlanding' hmarked := by
    obtain ⟨n, l, hreaches, hn, hl⟩ := exists_of_reaches h hreaches'
    obtain ⟨last, m, hrlast, hlast, -⟩ := exists_of_reaches h hlast'
    obtain ⟨hoffers, hreduction⟩ := reduction_of_offers h hn hl hoffers'
    obtain ⟨found, hfound, hrel⟩ := (h.landing hn hreduction hlast).exists_of_ok hlanding'
    obtain ⟨target, htarget, hmarked⟩ := hmarked
    cases hrel with
    | some hlandings =>
        rw [hinj htarget hlandings.1] at hmarked
        obtain ⟨hflag, hmark⟩ := ht.landing hreaches hoffers hrlast hfound hmarked
        exact ⟨hlandings.2.symm.trans hflag, n, hn, hmark⟩
  due {n' l' index q} hreaches' hoffers' hproperty' hq := by
    obtain ⟨n, l, hreaches, hn, hl⟩ := exists_of_reaches h hreaches'
    obtain ⟨hoffers, hreduction⟩ := reduction_of_offers h hn hl hoffers'
    obtain ⟨q, hproperty, rfl⟩ := (h.property hn hreduction).exists_of_ok hproperty'
    exact ⟨n, hn, ht.due hreaches hoffers hproperty hq⟩

/-- So a table that has been written for a grammar foresees its announcements. -/
theorem Grammar.foresees_of_toTable {grammar : Grammar} {bound : Nat} {p : Parser} {w : Width}
    {b : Buffer} {t : Table} (hp : grammar.compile bound = .ok p) (hb : p.toTable w = .ok b)
    (ht : Table.ofWords b.words = .ok t) : ∃ marked, t.table.Foresees marked := by
  obtain ⟨-, hcompiled⟩ := Grammar.compiled_of_compile hp
  obtain ⟨-, hrespected⟩ := Grammar.respected_of_toTable hp hb ht
  refine ⟨_, hrespected.foresees ?_ hcompiled.foresees⟩
  rintro n m n' ⟨hn, hplace⟩ ⟨hm, hplace'⟩
  exact p.nodeAt_injective hn hm (hplace.trans hplace'.symm)

end BoundedLR
