import BoundedLR.Ascending
import BoundedLR.Production

/-!
# Items

An item is a production with a dot in its body.  What stands before the dot has
been recognised; what stands behind it is still to come.  Items are sorted by
production first and by the place of the dot second.
-/

namespace BoundedLR

/-- A production with a dot before one of its slots, or behind the last. -/
structure Item where
  production : Nat
  dot : Nat
  deriving DecidableEq, Repr, Hashable

namespace Item

/-- The item with the dot at the very front of a production. -/
def initial (production : Nat) : Item := ⟨production, 0⟩

/-- The item with the dot one slot further on. -/
def advance (i : Item) : Item := ⟨i.production, i.dot + 1⟩

/-- Items are sorted by production, and by dot within a production. -/
instance : Ord Item where
  compare := compareLex (compareOn (·.production)) (compareOn (·.dot))

instance : Std.TransOrd Item :=
  inferInstanceAs (Std.TransCmp
    (compareLex (compareOn fun i : Item => i.production) (compareOn fun i : Item => i.dot)))

instance : Std.LawfulEqOrd Item where
  eq_of_compare {a b} h := by
    obtain ⟨p, d⟩ := a
    obtain ⟨q, e⟩ := b
    have h := compareLex_eq_eq.1 h
    have hp : p = q := Std.LawfulEqOrd.eq_of_compare h.1
    have hd : d = e := Std.LawfulEqOrd.eq_of_compare h.2
    rw [hp, hd]

end Item

namespace Productions

/-- The symbol behind the dot, unless the item is complete. -/
def nextSymbol (g : Productions) (i : Item) : Option Symbol :=
  (g.slot? i.production i.dot).map (·.symbol)

/-- Whether nothing is left behind the dot. -/
def isComplete (g : Productions) (i : Item) : Bool :=
  g.length i.production ≤ i.dot

/-- Whether the slot behind the dot may be completed by a production. -/
def admits (g : Productions) (i : Item) (candidate : Nat) : Bool :=
  g.accepts i.production i.dot candidate

theorem nextSymbol_eq_none_iff {g : Productions} {i : Item} :
    g.nextSymbol i = none ↔ g.isComplete i = true := by
  rw [isComplete, decide_eq_true_iff]
  simp [nextSymbol, slot?, length]

/-- An item as text: the head, and the body with a dot in it.  A dot behind the
end of the body is shown only if it stands directly behind it. -/
def itemText (g : Productions) (i : Item) : String :=
  match g.all[i.production]? with
  | some production =>
      let body := production.slots.zipIdx.map fun (slot, place) =>
        (if place = i.dot then " ." else "") ++ " " ++ slot.symbol.text
      production.head.text ++ " :=" ++ String.join body ++
        (if i.dot = production.slots.length then " ." else "")
  | none => ""

end Productions

end BoundedLR
