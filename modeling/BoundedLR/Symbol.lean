import BoundedLR.Ascending

/-!
# Grammar symbols

A symbol is a kind together with a number.  Terminals and non-terminals are the
author's; the start marker and the end-of-input marker are synthetic and belong
to the table builder.  The number carries no meaning beyond equality, also for
the two synthetic kinds: a start marker with number 5 is a different symbol from
the one with number 0, even though both are written `$start`.

Symbols are ordered by kind first and by number second.  Every list of symbols
that the library hands out as a set is ascending in this order.
-/

namespace BoundedLR

/-- The four kinds of symbol, in the order in which symbols are sorted. -/
inductive SymbolKind where
  | terminal
  | nonTerminal
  | start
  | endOfInput
  deriving DecidableEq, Repr, Hashable

namespace SymbolKind

/-- The position of a kind in the order of kinds. -/
def tag : SymbolKind → Nat
  | terminal => 0
  | nonTerminal => 1
  | start => 2
  | endOfInput => 3

/-- The kind with a given tag.  Tags from three on name the end of input. -/
def ofTag : Nat → SymbolKind
  | 0 => terminal
  | 1 => nonTerminal
  | 2 => start
  | _ => endOfInput

@[simp] theorem ofTag_tag (k : SymbolKind) : ofTag k.tag = k := by
  cases k <;> rfl

theorem tag_lt (k : SymbolKind) : k.tag < 4 := by
  cases k <;> decide

theorem tag_ofTag {n : Nat} (h : n < 4) : (ofTag n).tag = n := by
  match n, h with
  | 0, _ => rfl
  | 1, _ => rfl
  | 2, _ => rfl
  | 3, _ => rfl

end SymbolKind

/-- A grammar symbol: a kind and a 32-bit number. -/
structure Symbol where
  kind : SymbolKind
  value : UInt32
  deriving DecidableEq, Repr, Hashable

namespace Symbol

/-- The terminal with a given number. -/
def terminal (value : UInt32) : Symbol := ⟨.terminal, value⟩

/-- The non-terminal with a given number. -/
def nonTerminal (value : UInt32) : Symbol := ⟨.nonTerminal, value⟩

/-- The head of the synthetic production that every parse ends with. -/
def start : Symbol := ⟨.start, 0⟩

/-- The symbol that stands behind the last token. -/
def endOfInput : Symbol := ⟨.endOfInput, 0⟩

/-- Whether the symbol comes from the token stream.  The end of input does. -/
def isTerminal (s : Symbol) : Bool :=
  s.kind == .terminal || s.kind == .endOfInput

/-- Whether the symbol is produced by a reduction.  The start marker is. -/
def isNonTerminal (s : Symbol) : Bool :=
  s.kind == .nonTerminal || s.kind == .start

/-- Whether the symbol is synthetic, so that no author may write it. -/
def isReserved (s : Symbol) : Bool :=
  s.kind == .start || s.kind == .endOfInput

theorem isNonTerminal_eq_not_isTerminal (s : Symbol) :
    s.isNonTerminal = !s.isTerminal := by
  obtain ⟨k, v⟩ := s
  cases k <;> rfl

/-- Symbols are sorted by kind, and by number within a kind. -/
instance : Ord Symbol where
  compare := compareLex (compareOn (·.kind.tag)) (compareOn (·.value))

instance : Std.TransOrd Symbol :=
  inferInstanceAs (Std.TransCmp
    (compareLex (compareOn fun s : Symbol => s.kind.tag) (compareOn fun s : Symbol => s.value)))

instance : Std.LawfulEqOrd Symbol where
  eq_of_compare {a b} h := by
    obtain ⟨k, v⟩ := a
    obtain ⟨l, w⟩ := b
    have h := compareLex_eq_eq.1 h
    have hk : k.tag = l.tag := Std.LawfulEqOrd.eq_of_compare h.1
    have hv : v = w := Std.LawfulEqOrd.eq_of_compare h.2
    have hkl : k = l := by
      rw [← SymbolKind.ofTag_tag k, hk, SymbolKind.ofTag_tag]
    rw [hkl, hv]

/-- How a symbol is written in messages and descriptions.  The number of a
synthetic symbol is not shown. -/
def text (s : Symbol) : String :=
  match s.kind with
  | .terminal => "T" ++ toString s.value
  | .nonTerminal => "N" ++ toString s.value
  | .start => "$start"
  | .endOfInput => "$eof"

end Symbol

end BoundedLR
