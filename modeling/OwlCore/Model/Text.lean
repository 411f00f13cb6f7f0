import OwlCore.Model.Canonical

/-!
# IRIs and language tags

The text checks of `IRI` and `Literal`. Patterns are matched by derivatives. A
pattern compiled without regard to case sees each character after folding, so
its classes list lower-case letters only.
-/
namespace OwlCore

open List

inductive Pattern where
  | fail
  | empty
  | class (test : Char → Bool)
  | seq (first second : Pattern)
  | alt (left right : Pattern)
  | star (body : Pattern)

namespace Pattern

def nullable : Pattern → Bool
  | .fail | .class _ => false
  | .empty | .star _ => true
  | .seq first second => first.nullable && second.nullable
  | .alt left right => left.nullable || right.nullable

def derive (c : Char) : Pattern → Pattern
  | .fail | .empty => .fail
  | .class test => if test c then .empty else .fail
  | .seq first second =>
    if first.nullable then .alt (.seq (first.derive c) second) (second.derive c)
    else .seq (first.derive c) second
  | .alt left right => .alt (left.derive c) (right.derive c)
  | .star body => .seq (body.derive c) (.star body)

def fullmatch (p : Pattern) : List Char → Bool
  | [] => p.nullable
  | c :: rest => (p.derive c).fullmatch rest

def literal (text : String) : Pattern :=
  text.toList.foldr (fun c rest => .seq (.class fun d => d == c) rest) .empty

def oneOf (alternatives : List Pattern) : Pattern := alternatives.foldr .alt .fail

def optional (p : Pattern) : Pattern := .alt .empty p

def plus (p : Pattern) : Pattern := .seq p (.star p)

/-- At most `count` repetitions. -/
def upTo (p : Pattern) : Nat → Pattern
  | 0 => .empty
  | count + 1 => .optional (.seq p (p.upTo count))

/-- From `least` to `least + more` repetitions. -/
def between (p : Pattern) (least more : Nat) : Pattern :=
  (List.replicate least p).foldr .seq (p.upTo more)

end Pattern

section

open Pattern

/-- The folding that the interpreter applies under `re.IGNORECASE`; the four letters
outside ASCII are those that fold into the ASCII alphabet. -/
def foldCase (c : Char) : Char :=
  if 'A' ≤ c ∧ c ≤ 'Z' then Char.ofNat (c.toNat + 32)
  else if c.toNat = 0x130 ∨ c.toNat = 0x131 then 'i'
  else if c.toNat = 0x17F then 's'
  else if c.toNat = 0x212A then 'k'
  else c

def alpha : Pattern := .class fun c => 'a' ≤ c && c ≤ 'z'
def digit : Pattern := .class fun c => '0' ≤ c && c ≤ '9'
def alphanum : Pattern := .class fun c => 'a' ≤ c && c ≤ 'z' || '0' ≤ c && c ≤ '9'

/-- Letters and digits other than `x`, which starts a private-use part. -/
def singleton : Pattern := .class fun c => c != 'x' && ('a' ≤ c && c ≤ 'z' || '0' ≤ c && c ≤ '9')

def subtag (p : Pattern) : Pattern := .seq (literal "-") p

def irregularTags : List String :=
  ["en-gb-oed", "i-ami", "i-bnn", "i-default", "i-enochian", "i-hak", "i-klingon", "i-lux",
    "i-mingo", "i-navajo", "i-pwn", "i-tao", "i-tay", "i-tsu", "sgn-be-fr", "sgn-be-nl",
    "sgn-ch-de"]

def regularTags : List String :=
  ["art-lojban", "cel-gaulish", "no-bok", "no-nyn", "zh-guoyu", "zh-hakka", "zh-min", "zh-min-nan", "zh-xiang"]

/-- `_LANGUAGE`, on folded characters. -/
def languagePattern : Pattern :=
  oneOf [
    [oneOf [.seq (alpha.between 2 1) ((subtag (alpha.between 3 0)).between 0 3), alpha.between 4 0, alpha.between 5 3],
      optional (subtag (alpha.between 4 0)),
      optional (subtag (.alt (alpha.between 2 0) (digit.between 3 0))),
      .star (subtag (.alt (alphanum.between 5 3) (.seq digit (alphanum.between 3 0)))),
      .star (.seq (subtag singleton) (plus (subtag (alphanum.between 2 6)))),
      optional (.seq (subtag (literal "x")) (plus (subtag (alphanum.between 1 7))))].foldr .seq .empty,
    .seq (literal "x") (plus (subtag (alphanum.between 1 7))),
    oneOf (irregularTags.map literal),
    oneOf (regularTags.map literal)]

/-- `str.lower` on the characters the pattern admits. -/
def lowerChar (c : Char) : List Char :=
  if 'A' ≤ c ∧ c ≤ 'Z' then [Char.ofNat (c.toNat + 32)]
  else if c.toNat = 0x130 then ['i', Char.ofNat 0x307]
  else if c.toNat = 0x212A then ['k']
  else [c]

def lower (text : List Char) : List Char := text.flatMap lowerChar

/-- `str.isalpha` on lowered tags, where the letters outside ASCII are two. -/
def isalpha (part : List Char) : Bool :=
  part.all fun c => 'a' ≤ c && c ≤ 'z' || c.toNat == 0x131 || c.toNat == 0x17F

def isdigit (part : List Char) : Bool := part.all fun c => '0' ≤ c && c ≤ '9'

def dropExtlangs : Nat → List (List Char) → List (List Char)
  | count + 1, part :: parts =>
    if part.length = 3 && isalpha part then dropExtlangs count parts else part :: parts
  | _, parts => parts

def dropScript : List (List Char) → List (List Char)
  | part :: parts => if part.length = 4 && isalpha part then parts else part :: parts
  | [] => []

def dropRegion : List (List Char) → List (List Char)
  | part :: parts =>
    if part.length = 2 && isalpha part || part.length = 3 && isdigit part then parts
    else part :: parts
  | [] => []

/-- The variant loop; nothing is returned when a variant comes twice. -/
def dropVariants (variants : List (List Char)) : List (List Char) → Option (List (List Char))
  | [] => some []
  | part :: parts =>
    if 5 ≤ part.length && part.length ≤ 8 || part.length = 4 && isdigit (part.take 1) then
      if part ∈ variants then none else dropVariants (part :: variants) parts
    else some (part :: parts)

/-- The singleton loop; `inside` holds while the parts of an extension are skipped. -/
def checkSingletons (inside : Bool) (singletons : List (List Char)) : List (List Char) → Bool
  | [] => true
  | part :: parts =>
    if inside && (2 ≤ part.length && part.length ≤ 8) then checkSingletons true singletons parts
    else if part.length = 1 && part != ['x'] then
      if part ∈ singletons then false else checkSingletons true (part :: singletons) parts
    else true

/-- The part of `_valid_language_tag` that reads the lowered tag. -/
def validSubtags (lowered : List Char) : Bool :=
  if (irregularTags ++ regularTags).any (fun tag => tag.toList == lowered) ||
      ['x', '-'].isPrefixOf lowered then true
  else match lowered.splitOn '-' with
    | [] => true
    | first :: rest =>
      let rest := if first.length = 2 || first.length = 3 then dropExtlangs 3 rest else rest
      match dropVariants [] (dropRegion (dropScript rest)) with
      | none => false
      | some rest => checkSingletons false [] rest

def validLanguageTag (language : List Char) : Bool :=
  languagePattern.fullmatch (language.map foldCase) && validSubtags (lower language)

def asciiChar (c : Char) : Bool := c.toNat < 128

theorem foldCase_of_ascii (h : c.toNat < 128) :
    lowerChar c = [foldCase c] ∧ lowerChar (foldCase c) = [foldCase c] ∧ foldCase (foldCase c) = foldCase c := by
  have hall : ∀ n < 128, lowerChar (Char.ofNat n) = [foldCase (Char.ofNat n)] ∧
      lowerChar (foldCase (Char.ofNat n)) = [foldCase (Char.ofNat n)] ∧
      foldCase (foldCase (Char.ofNat n)) = foldCase (Char.ofNat n) := by
    decide +kernel
  simpa [Char.ofNat_toNat] using hall c.toNat h

/-- A character with an ASCII lower case lowers to its folding, which is stable. -/
theorem lowerChar_of_ascii (h : (lowerChar c).all asciiChar) :
    lowerChar c = [foldCase c] ∧ lowerChar (foldCase c) = [foldCase c] ∧ foldCase (foldCase c) = foldCase c := by
  by_cases hc : c.toNat < 128
  · exact foldCase_of_ascii hc
  · have hupper : ¬('A' ≤ c ∧ c ≤ 'Z') := fun hAZ =>
      hc (lt_of_le_of_lt (show c.toNat ≤ 90 from hAZ.2) (by decide))
    by_cases hkelvin : c.toNat = 0x212A
    · have hk : c = Char.ofNat 0x212A := by rw [← hkelvin, Char.ofNat_toNat]
      subst hk
      decide +kernel
    · by_cases hdotted : c.toNat = 0x130
      · have hi : c = Char.ofNat 0x130 := by rw [← hdotted, Char.ofNat_toNat]
        subst hi
        exact absurd h (by decide +kernel)
      · simp [lowerChar, hupper, hkelvin, hdotted, asciiChar, hc] at h

theorem lower_of_ascii (h : (lower text).all asciiChar) :
    lower text = text.map foldCase ∧ lower (text.map foldCase) = text.map foldCase ∧
      (text.map foldCase).map foldCase = text.map foldCase := by
  induction text with
  | nil => simp [lower]
  | cons c text ih =>
    simp only [lower, flatMap_cons, all_append, Bool.and_eq_true] at h
    obtain ⟨hlower, hstable, hfold⟩ := lowerChar_of_ascii h.1
    obtain ⟨ihlower, ihstable, ihfold⟩ := ih h.2
    refine ⟨?_, ?_, ?_⟩
    · rw [lower, flatMap_cons, hlower]
      simpa [lower] using ihlower
    · rw [map_cons, lower, flatMap_cons, hstable]
      simpa [lower] using ihstable
    · simpa [hfold] using ihfold

/-- Lower-casing an accepted tag into ASCII gives a tag that is accepted unchanged. -/
theorem validLanguageTag_lower (h : (lower text).all asciiChar) (hvalid : validLanguageTag text) :
    validLanguageTag (lower text) ∧ lower (lower text) = lower text := by
  obtain ⟨hlower, hstable, hfold⟩ := lower_of_ascii h
  have hfix : lower (lower text) = lower text := by rw [hlower, hstable]
  have hsame : (lower text).map foldCase = text.map foldCase := by rw [hlower, hfold]
  refine ⟨?_, hfix⟩
  rw [validLanguageTag, hfix, hsame]
  exact hvalid

end

def asciiLetter (c : Char) : Bool := 'a' ≤ c && c ≤ 'z' || 'A' ≤ c && c ≤ 'Z'

def asciiDigit (c : Char) : Bool := '0' ≤ c && c ≤ '9'

def schemeRest : List Char → Bool
  | [] => false
  | c :: rest =>
    c == ':' || (asciiLetter c || asciiDigit c || c == '+' || c == '.' || c == '-') && schemeRest rest

/-- `_ABSOLUTE_IRI.match`. -/
def absoluteIri : List Char → Bool
  | [] => false
  | c :: rest => asciiLetter c && schemeRest rest

def forbiddenIri : List Char → Option String
  | [] => none
  | c :: rest =>
    if c ∈ ['<', '>', '"', '\x7b', '\x7d', '|', '\\', '^', '\x60'] || c.toNat ≤ 0x20 then
      some "IRI contains a forbidden character"
    else if 0x7F ≤ c.toNat && c.toNat ≤ 0x9F || 0xFDD0 ≤ c.toNat && c.toNat ≤ 0xFDEF ||
        c.toNat % 0x10000 = 0xFFFE || c.toNat % 0x10000 = 0xFFFF then
      some "IRI contains a forbidden Unicode scalar"
    else forbiddenIri rest

def hexDigit (c : Char) : Bool := asciiDigit c || 'a' ≤ c && c ≤ 'f' || 'A' ≤ c && c ≤ 'F'

/-- The percent loop: every escape has two hexadecimal digits and is skipped whole. -/
def percentEscapes : List Char → Bool
  | [] => true
  | c :: rest =>
    if c = '%' then
      match rest with
      | a :: b :: rest => hexDigit a && hexDigit b && percentEscapes rest
      | _ => false
    else percentEscapes rest

end OwlCore
