import RelAlg.Condition.Connective
import RelAlg.Nested

/-!
# Errors

Every reason to refuse a request is a constructor of `Error`. `Error.kind` sorts the reasons, and `Error.message` words
them; a reason without a message has no wording of its own.
-/

namespace RelAlg

/-- The sorts of errors. -/
inductive ErrorKind where
  | unreadable
  | input
  | relationReference
  | attributeReference
  | unsupported
  | value
  | type
  | access
  | missing
  deriving DecidableEq, Repr

/-- The reasons to refuse a request. -/
inductive Error where
  /-- The text is not of the language. -/
  | unreadable
  /-- A keyword is spelled by no character at all. -/
  | emptyKeyword
  /-- A symbol that needs a spelling is set to something that is no text. -/
  | noSpelling
  /-- A symbol that is compared by its letters is set to something that has none. -/
  | noLetters
  /-- A list or an object stands where a single value is needed. -/
  | notSingle
  /-- The level of the language has no such rule. -/
  | noRule
  /-- The level of the language has no statements. -/
  | noStatements
  /-- The dependency symbols cannot be spelled together. -/
  | fixedSymbols
  /-- A key that should be one of a dependency symbol is none. -/
  | unknownKey
  /-- A node with a condition is compared with something that has none. -/
  | incomparable
  /-- A bare node is asked for what only other nodes have. -/
  | missingOperand
  /-- A node without SQL stands where a query is needed. -/
  | noQuery
  /-- A single word stands where a list of parameters is needed. -/
  | singleWord
  /-- A node without an attribute list stands where one is needed. -/
  | noAttributeList
  /-- A list of words stands where an attribute list is needed. -/
  | wordsForAttributes
  /-- A list stands where a name is needed. -/
  | listForName (origin : Origin)
  /-- Names are needed and there are none, or something else. -/
  | notNames
  /-- There are more or fewer new names than attributes. -/
  | attributeCount
  /-- A new name is given twice. -/
  | repeatedName
  /-- Attributes of one name would get one qualifier. -/
  | ambiguousNames
  /-- An assignment has no name. -/
  | nameRequired
  /-- An assignment names some of the attributes only. -/
  | partialNaming
  /-- The operands of a set operator have other attribute names. -/
  | schemasDiffer
  /-- There is no such relation. -/
  | noRelation (name : String)
  /-- There is such a relation already. -/
  | relationExists (name : String)
  /-- Both operands of a join have one name. -/
  | ambiguousRelation
  /-- No attribute fits the reference. -/
  | noAttribute (reference : String)
  /-- More than one attribute fits the reference. -/
  | ambiguousAttribute (name : String)
  /-- One attribute is asked for twice. -/
  | repeatedReference
  /-- No operator with one operand is spelled so. -/
  | unknownUnary (spelling : String)
  /-- No operator with two operands is spelled so. -/
  | unknownBinary (spelling : String)
  /-- No dependency is spelled so. -/
  | unknownDependency (spelling : String)
  /-- No connective with one operand is spelled so. -/
  | unknownUnaryConnective (spelling : String)
  /-- No connective with two operands is spelled so. -/
  | unknownBinaryConnective (spelling : String)
  /-- The words are no condition. -/
  | conditionShape (origin : Origin) (parts : List Phrase)
  /-- The words are no expression. -/
  | expressionShape
  /-- The words end before the expression does. -/
  | missingPart
  /-- An operator that needs parameters has none. -/
  | noParameters
  /-- The connective does not take one operand. -/
  | notUnary (op : Connective)
  /-- The connective does not take two operands. -/
  | notBinary (op : Connective)
  /-- A dependency is drawn between two attributes. -/
  | attributePair
  /-- No form of output knows the operator. -/
  | unknownOperator (operator : String)
  /-- The form of output is left open. -/
  | openOutput
  /-- The first of two attribute lists is something else. -/
  | firstNotList (kind : String)
  /-- The second of two attribute lists is something else. -/
  | secondNotList (kind : String)
  /-- A condition is something else. -/
  | notCondition (kind : String)

namespace Error

/-- The sort of an error. -/
def kind : Error → ErrorKind
  | unreadable => .unreadable
  | noStatements | unknownOperator _ | openOutput => .unsupported
  | noLetters | noRule | fixedSymbols | unknownKey | incomparable | missingOperand | noQuery | singleWord
  | noAttributeList | listForName .handed => .access
  | attributeCount | repeatedName | nameRequired | partialNaming | schemasDiffer => .input
  | noRelation _ | relationExists _ | ambiguousRelation => .relationReference
  | noAttribute _ | ambiguousAttribute _ | repeatedReference | ambiguousNames => .attributeReference
  | emptyKeyword | unknownUnary _ | unknownBinary _ | unknownDependency _ | unknownUnaryConnective _
  | unknownBinaryConnective _ | conditionShape _ _ | expressionShape | notUnary _ | notBinary _ | attributePair
  | notCondition _ => .value
  | missingPart => .missing
  | noSpelling | notSingle | wordsForAttributes | listForName .read | notNames | noParameters | firstNotList _
  | secondNotList _ => .type

/-- The wording of an error. -/
def message : Error → Option String
  | unreadable | emptyKeyword | noSpelling | noLetters | notSingle | noRule | fixedSymbols | unknownKey | incomparable
  | missingOperand | noQuery | singleWord | noAttributeList | wordsForAttributes | listForName _ | notNames
  | expressionShape | missingPart | noParameters | attributePair => none
  | noStatements => some ""
  | attributeCount => some "Attribute count mismatch."
  | repeatedName | ambiguousNames => some "Attributes are ambiguous."
  | nameRequired => some "Name is required for assignment."
  | partialNaming => some "Assignment requires naming all attributes."
  | schemasDiffer => some "Set operations require identical relation schemas."
  | noRelation name => some ("Relation '" ++ name ++ "' does not exist.")
  | relationExists name => some ("Relation '" ++ name ++ "' already exists.")
  | ambiguousRelation => some "Ambiguous relation reference."
  | noAttribute reference => some ("Attribute does not exist: " ++ reference)
  | ambiguousAttribute name => some ("Ambiguous attribute reference: " ++ name ++ ".")
  | repeatedReference => some "Duplicate attribute reference."
  | unknownUnary spelling => some ("Unknown unary operator: " ++ spelling)
  | unknownBinary spelling => some ("Unknown binary operator: " ++ spelling)
  | unknownDependency spelling => some ("Unknown dependency operator: " ++ spelling)
  | unknownUnaryConnective spelling => some ("Unknown unary conditional operator: " ++ spelling)
  | unknownBinaryConnective spelling => some ("Unknown binary conditional operator: " ++ spelling)
  | conditionShape origin parts =>
    some ("Unrecognised condition structure (length " ++ toString parts.length ++ "): ["
      ++ Phrase.displayFrom origin parts ++ "]")
  | notUnary op => some ("Unknown unary condition operator: " ++ op.fullTitle)
  | notBinary op => some ("Unknown binary condition operator: " ++ op.fullTitle)
  | unknownOperator operator => some ("No translator for operator: " ++ operator)
  | openOutput => some "Must be implemented by translation modules."
  | firstNotList kind => some ("first must be AttributeList, got " ++ kind)
  | secondNotList kind => some ("second must be AttributeList, got " ++ kind)
  | notCondition kind => some ("Unknown condition node type: <class '" ++ kind ++ "'>")

end Error

end RelAlg
