import BoundedLR.Text.VisibilityTable

/-!
# Characters between quotes

A message that complains about a character shows it between single quotes.  A
character that could not be recognised there is escaped: the quote and the
backslash, the four controls that have a name, and everything that has no shape
of its own, which is given by its code point in hexadecimal.
-/

namespace BoundedLR

/-- A character as it is written between single quotes. -/
def escaped (c : Char) : String :=
  if c = '\x00' then "\\0"
  else if c = '\t' then "\\t"
  else if c = '\r' then "\\r"
  else if c = '\n' then "\\n"
  else if c = '\'' then "\\'"
  else if c = '\\' then "\\\\"
  else if combining.holds c || shapeless.holds c || fillers.holds c then
    "\\u\x7b" ++ String.ofList (Nat.toDigits 16 c.toNat) ++ "\x7d"
  else c.toString

/-- A character between single quotes. -/
def quoted (c : Char) : String := "'" ++ escaped c ++ "'"

end BoundedLR
