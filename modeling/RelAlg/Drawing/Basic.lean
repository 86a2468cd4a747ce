/-!
# Drawings

A `Drawing` is an ordered tree of labels. Its text is the bracket form that a LaTeX package for trees draws: an opening
bracket, the label between dollar signs, the children, and a closing bracket.
-/

namespace RelAlg

/-- An ordered tree of labels. -/
inductive Drawing where
  | node (label : String) (children : List Drawing)

namespace Drawing

mutual

/-- The bracket form of a drawing. -/
def brackets : Drawing → String
  | node label children => "[.$" ++ label ++ "$ " ++ bracketsAll children ++ "]"

/-- The bracket forms of drawings, each with a blank after it. -/
def bracketsAll : List Drawing → String
  | [] => ""
  | d :: ds => d.brackets ++ " " ++ bracketsAll ds

end

/-- The text of a drawing. -/
def text (d : Drawing) : String := "\\Tree" ++ d.brackets

end Drawing

end RelAlg
