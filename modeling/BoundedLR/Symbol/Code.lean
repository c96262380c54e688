import BoundedLR.Symbol

/-!
# Symbols as numbers

A stored table holds a symbol as one number: four times the symbol's value plus
the tag of its kind.  Reading goes the other way and fails for a number whose
value part does not fit 32 bits.

`ofCode?_code` says that reading undoes writing, and `code_of_ofCode?` that a
number is read only as the symbol whose code it is, so the two are inverse to
each other and distinct symbols have distinct codes.  Sorting by code is not the
order of symbols: there the value decides before the kind.
-/

namespace BoundedLR
namespace Symbol

/-- The number under which a symbol is stored. -/
def code (s : Symbol) : Nat := 4 * s.value.toNat + s.kind.tag

/-- The symbol stored under a number, if there is one. -/
def ofCode? (n : Nat) : Option Symbol :=
  if n / 4 < UInt32.size then some ⟨.ofTag (n % 4), .ofNat (n / 4)⟩ else none

/-- Reading undoes writing. -/
@[simp] theorem ofCode?_code (s : Symbol) : ofCode? s.code = some s := by
  have ht := s.kind.tag_lt
  have hv := s.value.toNat_lt
  have hq : (4 * s.value.toNat + s.kind.tag) / 4 = s.value.toNat := by omega
  have hr : (4 * s.value.toNat + s.kind.tag) % 4 = s.kind.tag := by omega
  simp only [ofCode?, code, hq, hr, if_pos hv, SymbolKind.ofTag_tag, UInt32.ofNat_toNat]

/-- A number is read only as the symbol whose code it is. -/
theorem code_of_ofCode? {n : Nat} {s : Symbol} (h : ofCode? n = some s) : s.code = n := by
  unfold ofCode? at h
  split at h
  · rename_i hn
    cases h
    have ht : (SymbolKind.ofTag (n % 4)).tag = n % 4 := SymbolKind.tag_ofTag (by omega)
    have hv : (UInt32.ofNat (n / 4)).toNat = n / 4 := by
      simpa using Nat.mod_eq_of_lt hn
    simp only [code, ht, hv]
    omega
  · cases h

end Symbol
end BoundedLR
