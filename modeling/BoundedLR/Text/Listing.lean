/-!
# Lists in messages

Messages and descriptions show a list as its members between square brackets,
with a comma and a blank between neighbours.
-/

namespace BoundedLR

/-- The members of a list between square brackets. -/
def listing (parts : List String) : String :=
  "[" ++ String.intercalate ", " parts ++ "]"

end BoundedLR
