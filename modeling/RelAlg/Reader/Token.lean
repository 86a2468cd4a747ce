import RelAlg.Reader.Basic
import RelAlg.Text.Case
import RelAlg.Text.Tabs

/-!
# Tokens

Blanks are skipped before a token; `exactly` and the readers whose name starts with `bare` skip none. Names are ASCII and
come out in small letters. A keyword stands alone: the characters on both sides of it are not of its boundary class.
-/

namespace RelAlg

/-- The characters that are skipped between tokens. -/
def isBlank (c : Char) : Bool := c = ' ' || c = '\n' || c = '\t' || c = '\r'

/-- A character that may start a name. -/
def isNameStart (c : Char) : Bool := c.isAlpha

/-- A character that may follow in a name. -/
def isNameChar (c : Char) : Bool := c.isAlphanum || c = '_'

/-- Read past blanks and other characters of a class. -/
def Cursor.skipWhile (p : Char → Bool) (c : Cursor) : Cursor := c.advance (c.rest.takeWhile p).length

namespace Reader

variable {α : Type}

/-- Skip blanks. -/
def blanks : Reader Unit := fun c => some ((), c.skipWhile isBlank)

/-- Read the given text, without skipping blanks. -/
def exactly (text : String) : Reader Unit := fun c =>
  if text.toList.isPrefixOf c.rest then some ((), c.advance text.length) else none

/-- Read the given text. -/
def literal (text : String) : Reader Unit := do blanks; exactly text

/-- Read the given text and keep it. -/
def symbol (text : String) : Reader String := do literal text; pure text

/-- Read to the end of the text. -/
def atEnd : Reader Unit := do
  blanks
  fun c => if c.rest.isEmpty then some ((), c) else none

/-! ## Keywords -/

/-- What may not stand next to a keyword: ASCII letters and digits, and where `joined` holds `_` and `$` too. -/
def isKeywordChar (joined : Bool) (c : Char) : Bool :=
  c.isAlphanum || (joined && (c = '_' || c = '$'))

/-- The place next to a keyword is free: there is no character, or its capital form is not a single keyword character. -/
def caselessBoundary (joined : Bool) : Option Char → Bool
  | none => true
  | some c =>
    match Text.upperChar c with
    | [u] => !isKeywordChar joined u
    | _ => true

/-- Read a keyword in any letter case; it comes out as it is spelled here. -/
def caselessKeyword (joined : Bool) (spelling : String) : Reader String := do
  blanks
  fun c =>
    if Text.upper (c.rest.take spelling.length) = Text.upper spelling.toList
        && caselessBoundary joined c.before
        && caselessBoundary joined (c.rest.drop spelling.length).head?
    then some (spelling, c.advance spelling.length) else none

/-- The place next to a keyword is free. -/
def boundary : Option Char → Bool
  | none => true
  | some c => !isKeywordChar true c

/-- Read a keyword in exactly this spelling. -/
def keyword (spelling : String) : Reader String := do
  blanks
  fun c =>
    if spelling.toList.isPrefixOf c.rest && boundary c.before && boundary (c.rest.drop spelling.length).head?
    then some (spelling, c.advance spelling.length) else none

/-- Read the longest of the given texts. Where none is longer than one character, the first that is there counts. -/
def oneOf (texts : List String) : Reader String :=
  if texts.any (1 < ·.length) then longestOf (texts.map symbol) else firstOf (texts.map symbol)

/-! ## Names -/

/-- Read a name, without skipping blanks. -/
def bareName : Reader String := fun c =>
  match c.rest with
  | x :: xs =>
    if isNameStart x then
      let name := x :: xs.takeWhile isNameChar
      some (String.ofList (name.map Char.toLower), c.advance name.length)
    else none
  | [] => none

/-- Read a name. -/
def name : Reader String := do blanks; bareName

/-- Read an attribute name, or a relation name, a point and an attribute name with no blank between them. -/
def reference : Reader String := do
  let first ← name
  match ← opt (exactly ".") with
  | some _ => do
    let second ← bareName
    pure (first ++ "." ++ second)
  | none => pure first

/-! ## Numbers and quoted texts -/

/-- The sign at the start of a numeral. -/
def signPart : List Char → List Char
  | '+' :: _ => ['+']
  | '-' :: _ => ['-']
  | _ => []

/-- The digits at the start of a text, with a point and digits after it where both are there. -/
def unsignedPart (cs : List Char) : List Char :=
  let whole := cs.takeWhile Char.isDigit
  match cs.dropWhile Char.isDigit with
  | '.' :: after =>
    let fraction := after.takeWhile Char.isDigit
    if fraction.isEmpty then whole else whole ++ '.' :: fraction
  | _ => whole

/-- Read a number and keep its text. -/
def number : Reader String := do
  blanks
  fun c =>
    let sign := signPart c.rest
    let digits := unsignedPart (c.rest.drop sign.length)
    if digits.isEmpty then none
    else some (String.ofList (sign ++ digits), c.advance (sign.length + digits.length))

end Reader

namespace Quoted

/-- A character that stands for itself between quotes. -/
def isPlain (quote c : Char) : Bool := c ≠ quote && c ≠ '\n' && c ≠ '\r' && c ≠ '\\'

/-- A hexadecimal digit. -/
def isHexDigit (c : Char) : Bool :=
  c.isDigit || ('a' ≤ c && c ≤ 'f') || ('A' ≤ c && c ≤ 'F')

/-- Two characters that stand together between quotes, with what follows them: the quote written twice, or a backslash
and a character, where `x` needs a hexadecimal digit after it. -/
def isPair (quote c d : Char) (rest : List Char) : Bool :=
  (c = quote && d = quote) || (c = '\\' && (d ≠ 'x' || (rest.head?.any isHexDigit)))

/-- Divide a text after its longest part that may stand between quotes. -/
def split (quote : Char) : List Char → List Char × List Char
  | [] => ([], [])
  | [c] => if isPlain quote c then ([c], []) else ([], [c])
  | c :: d :: rest =>
    if isPlain quote c then
      let r := split quote (d :: rest)
      (c :: r.1, r.2)
    else if isPair quote c d rest then
      let r := split quote rest
      (c :: d :: r.1, r.2)
    else ([], c :: d :: rest)

/-- Nothing is lost by the division. -/
theorem split_append (quote : Char) (cs : List Char) : (split quote cs).1 ++ (split quote cs).2 = cs := by
  fun_induction split quote cs with
  | case1 => rfl
  | case2 c h => rfl
  | case3 c h => rfl
  | case4 c d rest h r ih => simp [r, ih]
  | case5 c d rest h hp r ih => simp [r, ih]
  | case6 c d rest h hp => rfl

end Quoted

namespace Reader

/-- Read a text between quotes of one kind and keep what is between them. The text between is as long as can be, so that
the quote after it must be the closing one. -/
def quotedBy (quote : Char) : Reader (List Char) := do
  blanks
  fun c =>
    match c.rest with
    | q :: rest =>
      if q = quote then
        match Quoted.split quote rest with
        | (body, q' :: _) => if q' = quote then some (body, c.advance (body.length + 2)) else none
        | (_, []) => none
      else none
    | [] => none

/-- Read a text between double or single quotes; it comes out between single ones. -/
def quoted : Reader String := do
  let body ← quotedBy '"' <|> quotedBy '\''
  pure (String.ofList ('\'' :: body ++ ['\'']))

end Reader

end RelAlg
