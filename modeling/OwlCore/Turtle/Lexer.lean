import OwlCore.Anonymous.Graph

/-!
# The Turtle lexer

`TurtleLexer.tokenize` over the code points that are left. Every branch of the loop returns
how many of them it consumes, and every width is positive, so the number of code points
bounds the number of rounds.
-/
namespace OwlCore.Turtle

inductive TokenKind where
  | hat | punctuation (value : Char) | iri | string | directive | lang | number | word | eof
  deriving DecidableEq, Repr

def TokenKind.name : TokenKind → String
  | .hat => "HAT"
  | .punctuation value => String.singleton value
  | .iri => "IRI"
  | .string => "STRING"
  | .directive => "DIRECTIVE"
  | .lang => "LANG"
  | .number => "NUMBER"
  | .word => "WORD"
  | .eof => "EOF"

structure TurtleToken where
  kind : TokenKind
  value : String
  offset : Nat
  line : Nat
  column : Nat
  deriving DecidableEq, Repr

/-- `_syntax`. -/
def syntaxAt (message : String) (line column : Nat) : Error :=
  .ontologySyntax (message ++ " at line " ++ toString line ++ ", column " ++ toString column)

/-- `_advance`: the line and column behind the given code points. -/
def advance : List Char → Nat × Nat → Nat × Nat
  | [], position => position
  | '\r' :: '\n' :: rest, position => advance rest (position.1 + 1, 1)
  | '\r' :: rest, position => advance rest (position.1 + 1, 1)
  | '\n' :: rest, position => advance rest (position.1 + 1, 1)
  | _ :: rest, position => advance rest (position.1, position.2 + 1)

def isDigit (c : Char) : Bool := '0' ≤ c && c ≤ '9'

def isLetter (c : Char) : Bool := ('a' ≤ c && c ≤ 'z') || ('A' ≤ c && c ≤ 'Z')

def hexValue? (c : Char) : Option Nat :=
  if isDigit c then some (c.toNat - '0'.toNat)
  else if 'a' ≤ c ∧ c ≤ 'f' then some (c.toNat - 'a'.toNat + 10)
  else if 'A' ≤ c ∧ c ≤ 'F' then some (c.toNat - 'A'.toNat + 10)
  else none

/-- The value of exactly `count` hexadecimal digits. -/
def hexNumber (count : Nat) (chars : List Char) : Option Nat :=
  if chars.length < count then none
  else ((chars.take count).mapM hexValue?).map fun digits => digits.foldl (fun n digit => 16 * n + digit) 0

/-- `_UCHAR`: the code point and the width of the escape. -/
def matchUchar : List Char → Option (Nat × Nat)
  | '\\' :: 'u' :: rest => (hexNumber 4 rest).map (·, 6)
  | '\\' :: 'U' :: rest => (hexNumber 8 rest).map (·, 10)
  | _ => none

def matchExponent : List Char → Option Nat
  | c :: rest =>
    if c = 'e' ∨ c = 'E' then
      let sign := if rest.head?.any (fun c => c = '+' || c = '-') then 1 else 0
      let digits := ((rest.drop sign).takeWhile isDigit).length
      if digits = 0 then none else some (1 + sign + digits)
    else none
  | [] => none

/-- `_NUMBER`: the width of the number. -/
def matchNumber (chars : List Char) : Option Nat :=
  let sign := if chars.head?.any (fun c => c = '+' || c = '-') then 1 else 0
  let digits := ((chars.drop sign).takeWhile isDigit).length
  let rest := chars.drop (sign + digits)
  let fraction := ((rest.drop 1).takeWhile isDigit).length
  if rest.head? = some '.' ∧ (digits ≠ 0 ∨ fraction ≠ 0) then
    some (sign + digits + 1 + fraction + (matchExponent (rest.drop (1 + fraction))).getD 0)
  else if digits = 0 then none
  else some (sign + digits + (matchExponent rest).getD 0)

def matchSubtags : Nat → List Char → Nat
  | 0, _ => 0
  | fuel + 1, '-' :: rest =>
    let width := (rest.takeWhile fun c => isLetter c || isDigit c).length
    if width = 0 then 0 else 1 + width + matchSubtags fuel (rest.drop width)
  | _, _ => 0

/-- `_LANG`: the width of the tag with its sign. -/
def matchLang : List Char → Option Nat
  | '@' :: rest =>
    let width := (rest.takeWhile isLetter).length
    if width = 0 then none else some (1 + width + matchSubtags rest.length (rest.drop width))
  | _ => none

/-- `_WORD_STOP`. -/
def wordStop : List Char := " \t\r\n;,[]()<>\"'^".toList

def stopFollowers : List Char := " \t\r\n;,[]()".toList

/-- An error of a scanner: at the start of the token, or at the fixed position of escape errors. -/
inductive ScanError where
  | atStart (message : String)
  | atOrigin (message : String)

def ScanError.toError (line column : Nat) : ScanError → Error
  | .atStart message => syntaxAt message line column
  | .atOrigin message => syntaxAt message 1 1

/-- The code points of an IRI reference up to its closing bracket. -/
def scanIriref : Nat → List Char → Except ScanError Nat
  | 0, _ => .error (.atStart "unterminated IRIREF")
  | _, [] => .error (.atStart "unterminated IRIREF")
  | fuel + 1, c :: rest =>
    if c = '>' then .ok 0
    else if c = '\\' then
      match matchUchar (c :: rest) with
      | none => .error (.atStart "IRIREF contains an invalid escape")
      | some (_, width) => (width + ·) <$> scanIriref fuel ((c :: rest).drop width)
    else if c.toNat ≤ 0x20 ∨ c ∈ "<\"\x7b\x7d|^`".toList then
      .error (.atStart "IRIREF contains a forbidden character")
    else (1 + ·) <$> scanIriref fuel rest

def simpleEscape? : Char → Option Char
  | 't' => some '\t'
  | 'b' => some '\x08'
  | 'n' => some '\n'
  | 'r' => some '\r'
  | 'f' => some '\x0c'
  | '"' => some '"'
  | '\'' => some '\''
  | '\\' => some '\\'
  | _ => none

def isScalar (codepoint : Nat) : Bool := codepoint ≤ 0x10FFFF && !(0xD800 ≤ codepoint && codepoint ≤ 0xDFFF)

/-- `_escape`, at a backslash. -/
def escape (chars : List Char) : Except ScanError (Char × Nat) :=
  match chars with
  | _ :: next :: _ =>
    match simpleEscape? next with
    | some decoded => .ok (decoded, 2)
    | none =>
      match matchUchar chars with
      | none => .error (.atOrigin "invalid Turtle escape")
      | some (codepoint, width) =>
        if isScalar codepoint then .ok (Char.ofNat codepoint, width)
        else .error (.atOrigin "invalid Unicode escape")
  | _ => .error (.atOrigin "truncated string escape")

/-- The text of a string and the width up to its closing delimiter. -/
def scanString (delimiter : List Char) (long : Bool) : Nat → List Char → Except ScanError (List Char × Nat)
  | 0, _ => .error (.atStart "unterminated Turtle string")
  | _, [] => .error (.atStart "unterminated Turtle string")
  | fuel + 1, c :: rest =>
    if delimiter.isPrefixOf (c :: rest) then .ok ([], 0)
    else if !long && (c = '\r' || c = '\n') then .error (.atStart "short Turtle string cannot span lines")
    else if c = '\\' then do
      let (decoded, width) ← escape (c :: rest)
      let (text, total) ← scanString delimiter long fuel ((c :: rest).drop width)
      .ok (decoded :: text, width + total)
    else do
      let (text, total) ← scanString delimiter long fuel rest
      .ok (c :: text, 1 + total)

def scanWord : List Char → Nat
  | [] => 0
  | [c] => if c ∈ wordStop ∨ c = '.' then 0 else 1
  | c :: d :: rest =>
    if c ∈ wordStop then 0
    else if c = '\\' then 2 + scanWord rest
    else if c = '.' ∧ d ∈ stopFollowers then 0
    else 1 + scanWord (d :: rest)

def numberBoundary (rest : List Char) : Bool := rest.head?.all fun c => c = '.' || c ∈ stopFollowers

/-- The token at the start of the code points: its kind, value and width. -/
def scanToken (limits : ParseLimits) (line column : Nat) (chars : List Char) :
    Except Error (TokenKind × String × Nat) :=
  let failure (error : ScanError) := error.toError line column
  match chars with
  | [] => .error (syntaxAt "unexpected Turtle character" line column)
  | c :: rest =>
    if ['^', '^'].isPrefixOf chars then .ok (.hat, "^^", 2)
    else if c ∈ ".;,[]()".toList then .ok (.punctuation c, String.singleton c, 1)
    else if c = '<' then do
      let width ← (scanIriref chars.length rest).mapError failure
      .ok (.iri, String.ofList (rest.take width), width + 2)
    else if c = '"' ∨ c = '\'' then do
      let long := [c, c, c].isPrefixOf chars
      let delimiter := if long then [c, c, c] else [c]
      let (text, width) ← (scanString delimiter long chars.length (chars.drop delimiter.length)).mapError failure
      let value := String.ofList text
      enforceLimit "max_literal_bytes" (utf8Encode value).length limits.maxLiteralBytes
      .ok (.string, value, delimiter.length + width + delimiter.length)
    else if c = '@' then
      match ["@prefix", "@base"].find? fun item => item.toList.isPrefixOf chars with
      | some directive => .ok (.directive, directive, directive.length)
      | none =>
        match matchLang chars with
        | none => .error (syntaxAt "invalid language tag or directive" line column)
        | some width => .ok (.lang, String.ofList ((chars.take width).drop 1), width)
    else
      match (matchNumber chars).filter fun width => numberBoundary (chars.drop width) with
      | some width => .ok (.number, String.ofList (chars.take width), width)
      | none =>
        let width := scanWord chars
        if width = 0 then .error (syntaxAt "unexpected Turtle character" line column)
        else .ok (.word, String.ofList (chars.take width), width)

/-- The rounds of `tokenize`; `terms` counts the checks of the parse context. -/
def tokenizeFrom (limits : ParseLimits) : Nat → List Char → Nat → Nat × Nat → Nat →
    Except Error (List TurtleToken × Nat)
  | 0, _, offset, (line, column), terms => .ok ([⟨.eof, "", offset, line, column⟩], terms)
  | _, [], offset, (line, column), terms => .ok ([⟨.eof, "", offset, line, column⟩], terms)
  | fuel + 1, c :: rest, offset, (line, column), terms => do
    let chars := c :: rest
    enforceLimit "max_terms" (terms + 1) limits.maxTerms
    let continue_ (width : Nat) :=
      tokenizeFrom limits fuel (chars.drop width) (offset + width) (advance (chars.take width) (line, column)) (terms + 1)
    if c ∈ " \t\r\n".toList then continue_ (if ['\r', '\n'].isPrefixOf chars then 2 else 1)
    else if c = '#' then continue_ (chars.takeWhile fun c => c ≠ '\r' && c ≠ '\n').length
    else
      let (kind, value, width) ← scanToken limits line column chars
      let (tokens, total) ← continue_ width
      .ok (⟨kind, value, offset, line, column⟩ :: tokens, total)

/-- `tokenize`, with the number of checks made. -/
def tokenize (limits : ParseLimits) (text : String) : Except Error (List TurtleToken × Nat) :=
  tokenizeFrom limits text.toList.length text.toList 0 (1, 1) 0

end OwlCore.Turtle
