import RelAlg.Drawing.Basic
import RelAlg.Node.Basic

/-!
# Drawings of nodes

Every node of the algebra is drawn with a caption of its own, over the drawings of its operands. A dependency is one
caption. The underscores of relation names are escaped.
-/

namespace RelAlg

/-- A text between braces. -/
def braced (s : String) : String := "\x7b" ++ s ++ "\x7d"

/-- A symbol with an index. -/
def indexed (symbol index : String) : String := symbol ++ "_" ++ braced index

/-- Attribute names with commas and thin spaces between them. -/
def attributesLabel (names : List String) : String := ",\\,".intercalate names

/-- A name with its underscores escaped; a missing name is empty. -/
def escapedName (name : Option String) : String :=
  String.ofList ((name.getD "").toList.flatMap fun c => if c = '_' then ['\\', '_'] else [c])

/-- The LaTeX symbol of a connective. -/
def Connective.latex : Connective → String
  | and => "\\land"
  | or => "\\lor"
  | equal => "\\eq"
  | notEqual => "\\neq"
  | less => "\\lt"
  | lessEqual => "\\leq"
  | greater => "\\gt"
  | greaterEqual => "\\geq"
  | not => "\\neg"
  | defined => "\\text" ++ braced "defined"

/-- The LaTeX form of a condition. -/
def Condition.latex : Condition → String
  | operand text => text
  | unary .defined child => Connective.defined.latex ++ "(" ++ child.latex ++ ")"
  | unary op child => op.latex ++ " " ++ child.latex
  | binary op left right => "(" ++ left.latex ++ " " ++ op.latex ++ " " ++ right.latex ++ ")"

/-- The LaTeX symbol of a conditional join. -/
def ConditionalJoin.latex : ConditionalJoin → String
  | theta => "\\times"
  | fullOuter => "\\fullouterjoin"
  | leftOuter => "\\leftouterjoin"
  | rightOuter => "\\rightouterjoin"

/-- The label of a join. -/
def Join.latex : Join → String
  | cross => "\\times"
  | natural => "\\bowtie"
  | conditional kind condition => indexed kind.latex condition.latex

/-- The label of a set operation. -/
def SetOperator.latex : SetOperator → String
  | union => "\\cup"
  | difference => "-"
  | intersect => "\\cap"

/-- The symbol of a dependency between two attributes. -/
def PairDependency.latex : PairDependency → String
  | multivalued => "\\twoheadrightarrow"
  | functional => "\\rightarrow"

/-- The symbol of an inclusion. -/
def Inclusion.latex : Inclusion → String
  | equivalence => "\\equiv"
  | subsumption => "\\subseteq"

/-- The name of a head, and its attributes between parentheses if it has any. -/
def Head.signature (h : Head) : String :=
  escapedName h.name ++ if h.attributes.isEmpty then "" else "(" ++ attributesLabel h.attributes.names ++ ")"

/-- The label of a selection. -/
def selectionLabel (condition : Condition) : String := indexed "\\sigma" condition.latex

namespace Node

/-- How a dependency writes a relation: its name, under a selection if there is one. -/
def sideLabel (n : Node) : String :=
  let name := n.name.getD "None"
  match n with
  | select _ condition _ => selectionLabel condition ++ " (" ++ name ++ ")"
  | _ => name

end Node

/-- The label of a primary key, whose attributes must be words. -/
def keyLabel (table attributes : Listing) : Except Error String :=
  match attributes.items.mapM Phrase.text? with
  | some names =>
    .ok ("\\text" ++ braced "PK" ++ "(" ++ table.phrase.text ++ ") \\eq " ++ braced (attributesLabel names))
  | none => .error .notNames

/-- The two attributes that a dependency is drawn between. -/
def Listing.pair (l : Listing) : Except Error (String × String) :=
  match l.items with
  | [a, b] => .ok (a.text, b.text)
  | _ => .error .attributePair

/-- The caption of a bare node. It has one only as a relation; any other operator fails for want of what it needs. -/
def Bare.caption (b : Bare) : Except Error String :=
  match Operator.ofTitle? b.operator, b.attributes with
  | none, _ => .error (.unknownOperator b.operator)
  | some .relation, _ => .ok (escapedName b.name)
  | some .primaryKey, some [] => .error .missingOperand
  | some .primaryKey, _ => .error .notNames
  | some (.pairDependency _), some [_, _] | some (.inclusion _), some [_, _] => .error .missingOperand
  | some (.pairDependency _), some _ | some (.inclusion _), some _ => .error .attributePair
  | some (.pairDependency _), none | some (.inclusion _), none => .error .notNames
  | some _, _ => .error .missingOperand

namespace Node

/-- What is drawn for a node alone. -/
def caption : Node → Except Error String
  | relation h => .ok (escapedName h.name)
  | select _ condition _ => .ok (selectionLabel condition)
  | project h _ => .ok (indexed "\\pi" (attributesLabel h.attributes.names))
  | rename h _ => .ok (indexed "\\rho" h.signature)
  | assign h _ => .ok h.signature
  | join _ op _ _ => .ok op.latex
  | setOperation _ op _ _ => .ok op.latex
  | primaryKey table attributes => keyLabel table attributes
  | pair kind _ attributes child => do
    let (a, b) ← attributes.pair
    return child.sideLabel ++ " : " ++ a ++ " " ++ kind.latex ++ " " ++ b
  | inclusion kind _ attributes left right => do
    let (a, b) ← attributes.pair
    return left.sideLabel ++ "[" ++ a ++ "] " ++ kind.latex ++ " " ++ right.sideLabel ++ "[" ++ b ++ "]"
  | bare b => b.caption

/-- The drawing of a node: its caption over the drawings of its operands. A dependency is its caption alone. -/
def drawing : Node → Except Error Drawing
  | relation h => return .node (← (relation h).caption) []
  | select h condition child => return .node (← (select h condition child).caption) [← child.drawing]
  | project h child => return .node (← (project h child).caption) [← child.drawing]
  | rename h child => return .node (← (rename h child).caption) [← child.drawing]
  | assign h child => return .node (← (assign h child).caption) [← child.drawing]
  | join h op left right => return .node (← (join h op left right).caption) [← left.drawing, ← right.drawing]
  | setOperation h op left right =>
    return .node (← (setOperation h op left right).caption) [← left.drawing, ← right.drawing]
  | primaryKey table attributes => return .node (← (primaryKey table attributes).caption) []
  | pair kind table attributes child => return .node (← (pair kind table attributes child).caption) []
  | inclusion kind tables attributes left right =>
    return .node (← (inclusion kind tables attributes left right).caption) []
  | bare b => return .node (← (bare b).caption) []

/-- The texts of the drawings of nodes, in order. -/
def drawingTexts : List Node → Except Error (List String)
  | [] => .ok []
  | n :: ns => do
    let d ← n.drawing
    let texts ← drawingTexts ns
    return d.text :: texts

/-- A form of output that is left open draws and writes nothing. -/
def openForm : Node → Error
  | bare b => if (Operator.ofTitle? b.operator).isSome then .openOutput else .unknownOperator b.operator
  | _ => .openOutput

end Node

end RelAlg
