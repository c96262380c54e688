import BoundedLR.Automaton.Description
import BoundedLR.Parser

/-!
# Describing a parser

The description of a node is that of its state, followed by the reduction that
the node always performs, if there is one, and by the entries of its trie.  An
entry names the number of its level in front.
-/

namespace BoundedLR

/-- An entry of a trie as text. -/
def rowEntryText : Trie.RowEntry Decision → String
  | .level number => "Descend(" ++ toString number ++ ")"
  | .settled (.shift target predict) =>
    "Shift \x7b target: " ++ stateText target ++ ", need_predict: " ++ toString predict ++ " \x7d"
  | .settled (.reduce index) => "Reduce(" ++ toString index ++ ")"

namespace Parser

/-- A node as text. -/
def describe (p : Parser) (n : Nat) : String :=
  p.automaton.describe p.productions n ++
    match p.nodes[n]? with
    | none => ""
    | some node =>
      let always := match node.always with
        | some index => descriptionLine ("always reduce #" ++ toString index)
        | none => ""
      let levels := node.trie.rows.zipIdx.map fun (row, number) =>
        String.join <| row.map fun (s, entry) =>
          descriptionLine ("[" ++ toString number ++ "] " ++ s.text ++ " => " ++ rowEntryText entry)
      always ++ String.join levels

end Parser

end BoundedLR
