import BoundedLR.Table.Word

/-!
# Tables as source text

A program that embeds a table declares it as a static array.  The declaration is
one line of tokens with blanks between them.  Which names the program's language
admits, and how they are written, is not settled here.
-/

namespace BoundedLR

/-- The declaration of a static array that holds the words of a buffer.  The name
is read as an identifier; if it is none, there is no declaration. -/
def Buffer.declaration? (b : Buffer) (identifier? : String → Option String) (name : String) :
    Option String := do
  let name ← identifier? name
  let words := b.words.toList.map toString
  let list := if words.isEmpty then "[]" else "[" ++ String.intercalate " , " words ++ "]"
  return "pub static " ++ name ++ " : [" ++ b.width.typeName ++ " ; " ++
    toString b.words.size ++ "] = " ++ list ++ " ;"

end BoundedLR
