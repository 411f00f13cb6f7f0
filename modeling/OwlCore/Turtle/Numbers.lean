import OwlCore.Turtle.Parser

/-!
# Numbers in Turtle

The numbers of the Turtle grammar and their longest match, against the tokens of the lexer. The
lexer takes the full stop behind an integer into the number, reads a number that starts with a
full stop as the stop and an integer, and reads a number before anything but a separator as a
word.
-/
namespace OwlCore.Turtle

open Fallible List

inductive NumberKind where
  | integer | decimal | double
  deriving DecidableEq

def NumberKind.datatype : NumberKind → String
  | .integer => xsd "integer"
  | .decimal => xsd "decimal"
  | .double => xsd "double"

def IsSign (text : List Char) : Prop := text = [] ∨ text = ['+'] ∨ text = ['-']

def IsDigits (text : List Char) : Prop := ∀ c ∈ text, isDigit c = true

/-- `EXPONENT`. -/
def IsExponent (text : List Char) : Prop :=
  ∃ e sign digits, (e = 'e' ∨ e = 'E') ∧ IsSign sign ∧ IsDigits digits ∧ digits ≠ [] ∧ text = e :: (sign ++ digits)

/-- The productions of the grammar, `DOUBLE` with and without a full stop. -/
inductive NumberKind.Spells : NumberKind → List Char → Prop
  | integer {sign whole : List Char} : IsSign sign → IsDigits whole → whole ≠ [] → Spells .integer (sign ++ whole)
  | decimal {sign whole fraction : List Char} : IsSign sign → IsDigits whole → IsDigits fraction → fraction ≠ [] →
    Spells .decimal (sign ++ (whole ++ '.' :: fraction))
  | pointed {sign whole fraction exponent : List Char} : IsSign sign → IsDigits whole → IsDigits fraction →
    whole ≠ [] ∨ fraction ≠ [] → IsExponent exponent → Spells .double (sign ++ (whole ++ '.' :: (fraction ++ exponent)))
  | scaled {sign whole exponent : List Char} : IsSign sign → IsDigits whole → whole ≠ [] → IsExponent exponent →
    Spells .double (sign ++ (whole ++ exponent))

/-- No longer text at the start of the code points is a number. -/
structure LongestMatch (chars : List Char) (kind : NumberKind) (text : List Char) : Prop where
  matched : text <+: chars
  spells : kind.Spells text
  longest : ∀ kind' text', text' <+: chars → NumberKind.Spells kind' text' → text'.length ≤ text.length

section

variable {sign digits rest text : List Char}

theorem takeWhile_digits (h : IsDigits digits) (hrest : rest.head?.any isDigit = false) :
    (digits ++ rest).takeWhile isDigit = digits := by
  rw [takeWhile_append_of_pos h]
  cases rest with
  | nil => simp
  | cons c rest => simpa [takeWhile_cons] using hrest

theorem signWidth (hsign : IsSign sign) (hrest : rest.head?.any (fun c => c = '+' || c = '-') = false) :
    (if (sign ++ rest).head?.any (fun c => c = '+' || c = '-') then 1 else 0) = sign.length := by
  rcases hsign with rfl | rfl | rfl
  · simp [hrest]
  · rfl
  · rfl

theorem unsigned_digits (h : IsDigits digits) (hne : digits ≠ []) :
    (digits ++ rest).head?.any (fun c => c = '+' || c = '-') = false := by
  obtain ⟨c, others, rfl⟩ := exists_cons_of_ne_nil hne
  have hc := h c mem_cons_self
  simp only [cons_append, head?_cons, Option.any_some, Bool.or_eq_false_iff, decide_eq_false_iff_not]
  constructor <;> rintro rfl <;> exact absurd hc (by decide)

theorem IsExponent.matchExponent_append (h : IsExponent text) (hrest : rest.head?.any isDigit = false) :
    matchExponent (text ++ rest) = some text.length := by
  obtain ⟨e, sign, digits, he, hsign, hdigits, hne, rfl⟩ := h
  have hlength : digits.length ≠ 0 := mt eq_nil_of_length_eq_zero hne
  simp only [cons_append, append_assoc, matchExponent, if_pos he, signWidth hsign (unsigned_digits hdigits hne),
    drop_left, takeWhile_digits hdigits hrest, if_neg hlength, length_cons, length_append]
  congr 1
  omega

theorem drop_run : (sign ++ (digits ++ rest)).drop (sign.length + digits.length) = rest := by
  rw [← append_assoc, ← length_append, drop_left]

theorem matchNumber_point (hsign : IsSign sign) (hwhole : IsDigits whole) (hfraction : IsDigits fraction) (hne : whole
    ≠ [] ∨ fraction ≠ []) (hrest : rest.head?.any isDigit = false) :
    matchNumber (sign ++ (whole ++ '.' :: (fraction ++ rest))) =
      some (sign.length + whole.length + 1 + fraction.length + (matchExponent rest).getD 0) := by
  have hstart : (whole ++ '.' :: (fraction ++ rest)).head?.any (fun c => c = '+' || c = '-') = false := by
    by_cases hnil : whole = []
    · subst hnil
      rfl
    · exact unsigned_digits hwhole hnil
  have hdrop : ('.' :: (fraction ++ rest)).drop (1 + fraction.length) = rest := by
    rw [Nat.add_comm, drop_succ_cons, drop_left]
  have hrun : (whole ++ '.' :: (fraction ++ rest)).takeWhile isDigit = whole := takeWhile_digits hwhole rfl
  simp only [matchNumber, signWidth hsign hstart, drop_left, hrun, drop_run,
    head?_cons, drop_succ_cons, drop_zero, takeWhile_digits hfraction hrest, hdrop]
  exact if_pos ⟨trivial, hne.imp (mt eq_nil_of_length_eq_zero) (mt eq_nil_of_length_eq_zero)⟩

theorem matchNumber_plain (hsign : IsSign sign) (hdigits : IsDigits digits) (hne : digits ≠ [])
    (hrest : rest.head?.any isDigit = false) (hpoint : rest.head? ≠ some '.') :
    matchNumber (sign ++ (digits ++ rest)) = some (sign.length + digits.length + (matchExponent rest).getD 0) := by
  simp only [matchNumber, signWidth hsign (unsigned_digits hdigits hne), drop_left,
    takeWhile_digits hdigits hrest, drop_run]
  rw [if_neg fun h => hpoint h.1, if_neg (mt eq_nil_of_length_eq_zero hne)]

theorem IsExponent.head (h : IsExponent text) :
    (text ++ rest).head?.any isDigit = false ∧ (text ++ rest).head? ≠ some '.' := by
  obtain ⟨e, sign, digits, rfl | rfl, -, -, -, rfl⟩ := h
  all_goals exact ⟨rfl, by simp⟩

end

section

variable {chars text : List Char} {kind : NumberKind}

theorem NumberKind.Spells.getLast_digit (h : kind.Spells text) : text.getLast?.any isDigit = true := by
  have hlast : ∀ {digits : List Char}, IsDigits digits → digits ≠ [] →
      ∃ start c, isDigit c = true ∧ digits = start ++ [c] := fun hdigits hne =>
    ⟨_, _, hdigits _ (getLast_mem hne), (dropLast_append_getLast hne).symm⟩
  cases h with
  | integer _ hdigits hne | decimal _ _ hdigits hne =>
    obtain ⟨start, c, hc, rfl⟩ := hlast hdigits hne
    simp [hc, getLast?_cons]
  | pointed _ _ _ _ hexp | scaled _ _ _ hexp =>
    obtain ⟨e, _, _, -, -, hdigits, hne, rfl⟩ := hexp
    obtain ⟨start, c, hc, rfl⟩ := hlast hdigits hne
    simp [hc, getLast?_cons]

theorem NumberKind.Spells.datatype_eq (h : kind.Spells text) : numberDatatype (String.ofList text) = kind.datatype := by
  have hsigned : ∀ {sign}, IsSign sign → 'e' ∉ sign ∧ 'E' ∉ sign ∧ '.' ∉ sign := by
    rintro _ (rfl | rfl | rfl) <;> decide
  have hrun : ∀ {digits}, IsDigits digits → 'e' ∉ digits ∧ 'E' ∉ digits ∧ '.' ∉ digits := fun h =>
    ⟨fun he => absurd (h _ he) (by decide), fun he => absurd (h _ he) (by decide), fun he => absurd (h _ he) (by decide)⟩
  cases h with
  | integer hsign hwhole => simp [numberDatatype, datatype, hsigned hsign, hrun hwhole]
  | decimal hsign hwhole hfraction => simp [numberDatatype, datatype, hsigned hsign, hrun hwhole, hrun hfraction]
  | pointed _ _ _ _ hexp | scaled _ _ _ hexp =>
    obtain ⟨e, _, _, rfl | rfl, -, -, -, rfl⟩ := hexp
    all_goals simp [numberDatatype, datatype]

theorem matchNumber_text (h : kind.Spells text) (hboundary : numberBoundary rest = true)
    (hpoint : kind = .integer → rest.head? ≠ some '.') : matchNumber (text ++ rest) = some text.length := by
  obtain ⟨hdigit, hexponent⟩ : rest.head?.any isDigit = false ∧ matchExponent rest = none := by
    cases rest with
    | nil => exact ⟨rfl, rfl⟩
    | cons c rest =>
      have hall : ('.' :: stopFollowers).all fun c => !isDigit c && c ≠ 'e' && c ≠ 'E' := by decide
      have hc : c ∈ '.' :: stopFollowers := by simpa [numberBoundary] using hboundary
      obtain ⟨⟨hdigit, he⟩, hE⟩ : (isDigit c = false ∧ c ≠ 'e') ∧ c ≠ 'E' := by
        simpa using all_eq_true.mp hall c hc
      exact ⟨by simpa using hdigit, by simp [matchExponent, he, hE]⟩
  cases h with
  | integer hsign hwhole hne =>
    rw [append_assoc, matchNumber_plain hsign hwhole hne hdigit (hpoint rfl), hexponent, length_append]
    rfl
  | decimal hsign hwhole hfraction hne =>
    have hmatch := matchNumber_point hsign hwhole hfraction (.inr hne) hdigit
    simpa [hexponent, Nat.add_assoc, Nat.add_comm 1] using hmatch
  | pointed hsign hwhole hfraction hne hexp =>
    have hmatch := matchNumber_point hsign hwhole hfraction hne (@IsExponent.head rest _ hexp).1
    simpa [hexp.matchExponent_append hdigit, Nat.add_assoc, Nat.add_comm 1] using hmatch
  | scaled hsign hwhole hne hexp =>
    have hmatch := matchNumber_plain hsign hwhole hne (@IsExponent.head rest _ hexp).1 hexp.head.2
    simpa [hexp.matchExponent_append hdigit, Nat.add_assoc] using hmatch

theorem matchNumber_other {c : Char} (hc : c ∈ "^;,[]()<\"'@".toList) : matchNumber (c :: rest) = none := by
  have hall : "^;,[]()<\"'@".toList.all fun c => !isDigit c && c ≠ '+' && c ≠ '-' && c ≠ '.' := by decide
  obtain ⟨⟨⟨hdigit, hplus⟩, hminus⟩, hpoint⟩ : ((isDigit c = false ∧ c ≠ '+') ∧ c ≠ '-') ∧ c ≠ '.' := by
    simpa using all_eq_true.mp hall c hc
  simp [matchNumber, hdigit, hplus, hminus, hpoint]

end

end OwlCore.Turtle
