/-!
# Sets of code points

Properties of characters are given by the ranges of code points that have them.
-/

namespace BoundedLR

/-- A set of code points, as ranges from a first to a last one. -/
structure CodePoints where
  ranges : Array (Nat × Nat)

namespace CodePoints

/-- Whether a character belongs to the set. -/
def holds (s : CodePoints) (c : Char) : Bool :=
  s.ranges.any fun (first, last) => first ≤ c.toNat && c.toNat ≤ last

end CodePoints

/-- The characters that count as white space. -/
def whiteSpace : CodePoints := ⟨
  #[(0x9, 0xd), (0x20, 0x20), (0x85, 0x85), (0xa0, 0xa0), (0x1680, 0x1680), (0x2000, 0x200a),
    (0x2028, 0x2029), (0x202f, 0x202f), (0x205f, 0x205f), (0x3000, 0x3000)]⟩

end BoundedLR
