import OwlCore.Turtle.Lexer

/-!
# The Turtle parser

`TurtleParser` over any type of blank nodes. A `Blanks` value says which node a written and a
generated label stand for and which triples are admitted: the source uses labels for both, the
graph of a text keeps them apart. The recursion is bounded by fuel; a run that ends had enough.
-/
namespace OwlCore.Turtle

structure TextLibrary where
  urljoin : String → String → String
  repr : String → String

inductive RDFResource (β : Type) where
  | iri (value : String)
  | blank (node : β)
  deriving DecidableEq, Repr

inductive RDFTerm (β : Type) where
  | resource (value : RDFResource β)
  | literal (lexical : String) (datatype : Option String) (language : Option String)
  deriving DecidableEq, Repr

structure Triple (β : Type) where
  subject : RDFResource β
  predicate : String
  object : RDFTerm β
  deriving DecidableEq, Repr

/-- What a generated node stands for: a property list in brackets, or a cell of a collection. -/
inductive Stem where
  | anon | list
  deriving DecidableEq, Repr

def Stem.text : Stem → String
  | .anon => "anon"
  | .list => "list"

/-- Blank nodes and the check made after each new triple. -/
structure Blanks (β : Type) where
  written : String → β
  fresh : Stem → Nat → β
  permit : List (Triple β) → Except Error Unit

structure ParserState (β : Type) where
  tokens : List TurtleToken
  base : Option String
  prefixes : List (String × String)
  triples : List (Triple β)
  blankCounter : Nat
  terms : Nat

abbrev TurtleParser (β : Type) := StateT (ParserState β) (Except Error)

def rdf (name : String) : String := "http://www.w3.org/1999/02/22-rdf-syntax-ns#" ++ name

def xsd (name : String) : String := "http://www.w3.org/2001/XMLSchema#" ++ name

section

variable {β : Type} (limits : ParseLimits) (library : TextLibrary)

def raise {α : Type} (error : Error) : TurtleParser β α := throw error

/-- `_syntax` of the parser. -/
def syntaxError {α : Type} (message : String) (token : TurtleToken) : TurtleParser β α :=
  raise (syntaxAt message token.line token.column)

def enforce (limit : String) (observed allowed : Nat) : TurtleParser β Unit :=
  StateT.lift (enforceLimit limit observed allowed)

def peek : TurtleParser β TurtleToken := do
  match (← get).tokens with
  | token :: _ => pure token
  | [] => raise (.indexError 0)

def take : TurtleParser β TurtleToken := do
  let token ← peek
  modify fun state => { state with tokens := state.tokens.tail, terms := state.terms + 1 }
  enforce "max_terms" (← get).terms limits.maxTerms
  pure token

/-- `_at`. -/
def atKind (kind : TokenKind) : TurtleParser β Bool := do
  let token ← peek
  pure (token.kind = kind)

def expect (kind : TokenKind) : TurtleParser β TurtleToken := do
  let token ← peek
  if token.kind = kind then take limits
  else
    let found := if token.value = "" then token.kind.name else token.value
    syntaxError ("expected " ++ library.repr kind.name ++ ", found " ++ library.repr found) token

end

section

def decodeUcharMatch (codepoint : Nat) : Except Error Char :=
  if isScalar codepoint then .ok (Char.ofNat codepoint) else .error (.ontologySyntax "invalid Unicode escape")

/-- The substitution of `_decode_uchar`. -/
def substituteUchars : Nat → List Char → Except Error (List Char)
  | 0, _ => .ok []
  | _, [] => .ok []
  | fuel + 1, c :: rest =>
    match matchUchar (c :: rest) with
    | some (codepoint, width) => do
      let decoded ← decodeUcharMatch codepoint
      let others ← substituteUchars fuel ((c :: rest).drop width)
      .ok (decoded :: others)
    | none => do
      let others ← substituteUchars fuel rest
      .ok (c :: others)

def decodeUchar (value : String) : Except Error String := do
  let result ← substituteUchars value.toList.length value.toList
  if '\\' ∈ result then .error (.ontologySyntax "invalid IRI escape") else .ok (String.ofList result)

/-- `_PN_LOCAL_ESCAPES`. -/
def localEscapes : List Char := "_~.-!$&'()*+,;=/?#@%".toList

def decodePname : Nat → List Char → Except Error (List Char)
  | 0, _ => .ok []
  | _, [] => .ok []
  | fuel + 1, c :: rest =>
    if c = '%' then
      if rest.length < 2 ∨ ¬(rest.take 2).all (fun c => (hexValue? c).isSome) = true then
        .error (.ontologySyntax "invalid prefixed-name percent escape")
      else do
        let others ← decodePname fuel (rest.drop 2)
        .ok (c :: rest.take 2 ++ others)
    else if c ≠ '\\' then do
      let others ← decodePname fuel rest
      .ok (c :: others)
    else
      match matchUchar (c :: rest) with
      | some (codepoint, width) => do
        let decoded ← decodeUcharMatch codepoint
        let others ← decodePname fuel ((c :: rest).drop width)
        .ok (decoded :: others)
      | none =>
        match rest with
        | [] => .error (.ontologySyntax "truncated prefixed-name escape")
        | escaped :: rest =>
          if escaped ∈ localEscapes then do
            let others ← decodePname fuel rest
            .ok (escaped :: others)
          else .error (.ontologySyntax "invalid prefixed-name escape")

/-- The pattern of an absolute IRI: a scheme and a colon. -/
def hasScheme (value : String) : Bool :=
  match value.toList with
  | c :: rest => isLetter c &&
    (rest.dropWhile fun c => isLetter c || isDigit c || c = '+' || c = '.' || c = '-').head? = some ':'
  | [] => false

variable {β : Type} (limits : ParseLimits) (library : TextLibrary)

def absoluteIri (base : Option String) (value : String) : Except Error String :=
  if hasScheme value then .ok value
  else match base with
    | some base => .ok (library.urljoin base value)
    | none => .error (.ontologySyntax "relative IRI requires a document/base IRI")

def resolveIri (value : String) : TurtleParser β String := do
  let result ← StateT.lift (absoluteIri library (← get).base value)
  enforce "max_iri_bytes" (utf8Encode result).length limits.maxIriBytes
  pure result

def splitName (value : String) : String × String :=
  let chars := value.toList
  (String.ofList (chars.takeWhile (· ≠ ':')), String.ofList ((chars.dropWhile (· ≠ ':')).drop 1))

def expandName (prefixes : List (String × String)) (token : TurtleToken) : Except Error String :=
  let name := splitName token.value
  match prefixes.find? fun row => row.1 = name.1 with
  | none => .error (syntaxAt ("undefined prefix " ++ library.repr name.1) token.line token.column)
  | some row => (fun decoded => row.2 ++ String.ofList decoded) <$> decodePname name.2.toList.length name.2.toList

def writesBlank (token : TurtleToken) : Bool := token.kind = .word && "_:".toList.isPrefixOf token.value.toList

def blankLabel (token : TurtleToken) : String := String.ofList (token.value.toList.drop 2)

def iri : TurtleParser β String := do
  let token ← take limits
  if token.kind = .iri then
    let decoded ← StateT.lift (decodeUchar token.value)
    resolveIri limits library decoded
  else if token.kind ≠ .word ∨ ':' ∉ token.value.toList ∨ writesBlank token = true then
    syntaxError "expected an IRI or prefixed name" token
  else StateT.lift (expandName library (← get).prefixes token)

def verb : TurtleParser β String := do
  let token ← peek
  if token.kind = .word ∧ token.value = "a" then do
    let _ ← take limits
    pure (rdf "type")
  else iri limits library

end

section

variable {β : Type} (blanks : Blanks β) (limits : ParseLimits) (library : TextLibrary)

def add (subject : RDFResource β) (predicate : String) (object : RDFTerm β) : TurtleParser β Unit := do
  modify fun state => { state with triples := state.triples ++ [⟨subject, predicate, object⟩] }
  StateT.lift (blanks.permit (← get).triples)

def fresh (stem : Stem) : TurtleParser β (RDFResource β) := do
  modify fun state => { state with blankCounter := state.blankCounter + 1 }
  pure (.blank (blanks.fresh stem (← get).blankCounter))

def freshList : Nat → TurtleParser β (List (RDFResource β))
  | 0 => pure []
  | count + 1 => do
    let node ← fresh blanks .list
    let others ← freshList count
    pure (node :: others)

def addCells : List (RDFResource β) → List (RDFTerm β) → TurtleParser β Unit
  | node :: nodes, value :: values => do
    add blanks node (rdf "first") value
    add blanks node (rdf "rest") (.resource (nodes.head?.getD (.iri (rdf "nil"))))
    addCells nodes values
  | _, _ => pure ()

def stringLiteral (value : String) : TurtleParser β (RDFTerm β) := do
  if ← atKind .lang then
    let language ← take limits
    pure (.literal value none (some language.value))
  else if ← atKind .hat then
    let _ ← take limits
    let datatype ← iri limits library
    pure (.literal value (some datatype) none)
  else pure (.literal value (some (xsd "string")) none)

def numberDatatype (value : String) : String :=
  if 'e' ∈ value.toList ∨ 'E' ∈ value.toList then xsd "double"
  else if '.' ∈ value.toList then xsd "decimal"
  else xsd "integer"

def skipSemicolons : Nat → TurtleParser β Unit
  | 0 => raise .recursionError
  | fuel + 1 => do
    let more ← atKind (.punctuation ';')
    if more = true then
      let _ ← take limits
      skipSemicolons fuel
    else pure ()

mutual

def object : Nat → TurtleParser β (RDFTerm β)
  | 0 => raise .recursionError
  | fuel + 1 => do
    let token ← peek
    if token.kind = .string then
      let _ ← take limits
      stringLiteral limits library token.value
    else if token.kind = .number then
      let _ ← take limits
      pure (.literal token.value (some (numberDatatype token.value)) none)
    else if token.kind = .word ∧ (token.value = "true" ∨ token.value = "false") then
      let _ ← take limits
      pure (.literal token.value (some (xsd "boolean")) none)
    else if writesBlank token = true then
      let _ ← take limits
      pure (.resource (.blank (blanks.written (blankLabel token))))
    else if token.kind = .iri ∨ token.kind = .word then
      let value ← iri limits library
      pure (.resource (.iri value))
    else if token.kind = .punctuation '[' then
      let node ← blankPropertyList fuel
      pure (.resource node)
    else if token.kind = .punctuation '(' then
      let node ← collection fuel
      pure (.resource node)
    else syntaxError "expected Turtle object" token

def blankPropertyList : Nat → TurtleParser β (RDFResource β)
  | 0 => raise .recursionError
  | fuel + 1 => do
    let _ ← expect limits library (.punctuation '[')
    let node ← fresh blanks .anon
    let closed ← atKind (.punctuation ']')
    if closed = true then
      let _ ← expect limits library (.punctuation ']')
      pure node
    else
      predicateObjectList fuel node (.punctuation ']')
      let _ ← expect limits library (.punctuation ']')
      pure node

def collection : Nat → TurtleParser β (RDFResource β)
  | 0 => raise .recursionError
  | fuel + 1 => do
    let _ ← expect limits library (.punctuation '(')
    let values ← collectionValues fuel []
    let _ ← expect limits library (.punctuation ')')
    if values = [] then pure (.iri (rdf "nil"))
    else
      let nodes ← freshList blanks values.length
      addCells blanks nodes values
      pure (nodes.head?.getD (.iri (rdf "nil")))

/-- The loop of `_collection` over its values. -/
def collectionValues : Nat → List (RDFTerm β) → TurtleParser β (List (RDFTerm β))
  | 0, _ => raise .recursionError
  | fuel + 1, values => do
    let closed ← atKind (.punctuation ')')
    if closed = true then pure values
    else
      let value ← object fuel
      enforce "max_rdf_list_length" (values.length + 1) limits.maxRdfListLength
      collectionValues fuel (values ++ [value])

def predicateObjectList : Nat → RDFResource β → TokenKind → TurtleParser β Unit
  | 0, _, _ => raise .recursionError
  | fuel + 1, subject, terminator => do
    let predicate ← verb limits library
    objectList fuel subject predicate
    let more ← atKind (.punctuation ';')
    if more = true then
      skipSemicolons limits fuel
      let token ← peek
      if token.kind = terminator ∨ token.kind = .punctuation ']' then pure ()
      else predicateObjectList fuel subject terminator
    else pure ()

def objectList : Nat → RDFResource β → String → TurtleParser β Unit
  | 0, _, _ => raise .recursionError
  | fuel + 1, subject, predicate => do
    let value ← object fuel
    add blanks subject predicate value
    let more ← atKind (.punctuation ',')
    if more = true then
      let _ ← take limits
      objectList fuel subject predicate
    else pure ()

end

def subject (fuel : Nat) : TurtleParser β (RDFResource β) := do
  let token ← peek
  if writesBlank token = true then
    let _ ← take limits
    pure (.blank (blanks.written (blankLabel token)))
  else if token.kind = .iri ∨ token.kind = .word then
    let value ← iri limits library
    pure (.iri value)
  else if token.kind = .punctuation '[' then blankPropertyList blanks limits library fuel
  else if token.kind = .punctuation '(' then collection blanks limits library fuel
  else syntaxError "expected Turtle subject" token

/-- `_directive`. -/
def isDirective (token : TurtleToken) : Bool :=
  token.kind = .directive ||
    token.kind = .word && (let value := token.value.map Char.toLower; value = "prefix" || value = "base")

def setPrefix (name iri : String) (prefixes : List (String × String)) : List (String × String) :=
  if prefixes.any (fun row => row.1 = name) then
    prefixes.map fun row => if row.1 = name then (name, iri) else row
  else prefixes ++ [(name, iri)]

/-- The body of `_parse_directive` for prefixes. -/
def prefixDirective : TurtleParser β Unit := do
  let name ← expect limits library .word
  if name.value.toList.getLast? = some ':' then
    let token ← expect limits library .iri
    let decoded ← StateT.lift (decodeUchar token.value)
    let resolved ← resolveIri limits library decoded
    modify fun state =>
      { state with prefixes := setPrefix (String.ofList name.value.toList.dropLast) resolved state.prefixes }
    enforce "max_prefixes" (← get).prefixes.length limits.maxPrefixes
  else syntaxError "prefix label must end in ':'" name

/-- The body of `_parse_directive` for the base. -/
def baseDirective : TurtleParser β Unit := do
  let token ← expect limits library .iri
  let decoded ← StateT.lift (decodeUchar token.value)
  let resolved ← resolveIri limits library decoded
  modify fun state => { state with base := some resolved }

/-- The branches of `_parse_directive`. -/
def directiveBody (token : TurtleToken) (value : String) : TurtleParser β Unit :=
  if value = "@prefix" ∨ value = "prefix" then prefixDirective limits library
  else if value = "@base" ∨ value = "base" then baseDirective limits library
  else syntaxError "unknown Turtle directive" token

def parseDirective : TurtleParser β Unit := do
  let token ← take limits
  let value := token.value.map Char.toLower
  directiveBody limits library token value
  if value.toList.head? = some '@' then
    let _ ← expect limits library (.punctuation '.')
    pure ()
  else pure ()

/-- The loop of `parse`. -/
def statements : Nat → TurtleParser β Unit
  | 0 => raise .recursionError
  | fuel + 1 => do
    let token ← peek
    if token.kind = .eof then pure ()
    else if isDirective token = true then
      parseDirective limits library
      statements fuel
    else
      let node ← subject blanks limits library fuel
      predicateObjectList blanks limits library fuel node (.punctuation '.')
      let _ ← expect limits library (.punctuation '.')
      statements fuel

/-- `parse`: the triples in the order in which they were added, and the prefixes. -/
def parse (fuel : Nat) (text : String) (documentIri : Option String) :
    Except Error (List (Triple β) × List (String × String)) := do
  let (tokens, terms) ← tokenize limits text
  let start : ParserState β :=
    { tokens, base := documentIri, prefixes := [], triples := [], blankCounter := 0, terms }
  let (_, final) ← statements blanks limits library fuel start
  blanks.permit final.triples
  .ok (final.triples, final.prefixes)

end

end OwlCore.Turtle
