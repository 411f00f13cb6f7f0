import OwlCore.Model.Patterns
import OwlCore.Model.Codec
import OwlCore.Index.Entities

/-!
# Stable literals

`Literal` checks the language tag as given and stores its lower case. The check folds letters,
and three of those that fold into the alphabet do not lower into it. A literal is stable exactly
when its tag has none of them and its lexical form is a plain string.
-/
namespace OwlCore

open List

/-- Letters the pattern admits for `i` and `s`, but whose lower case is not ASCII. -/
def foldsOnly (c : Char) : Bool := c.toNat == 0x130 || c.toNat == 0x131 || c.toNat == 0x17F

/-- A character that folds into the alphabet of tags lowers into ASCII, these three apart. -/
theorem ascii_lowerChar_iff (h : asciiChar (foldCase c)) :
    (lowerChar c).all asciiChar ↔ foldsOnly c = false := by
  by_cases hsmall : c.toNat < 128
  · have hlower := (foldCase_of_ascii hsmall).1
    have hnot : foldsOnly c = false := by
      simp only [foldsOnly, Bool.or_eq_false_iff, beq_eq_false_iff_ne]
      omega
    simp [hlower, h, hnot]
  · have hupper : ¬('A' ≤ c ∧ c ≤ 'Z') := fun hAZ =>
      hsmall (lt_of_le_of_lt (show c.toNat ≤ 90 from hAZ.2) (by decide))
    by_cases hdotted : c.toNat = 0x130
    · have hchar : asciiChar (Char.ofNat 0x307) = false := by decide +kernel
      simp [foldsOnly, lowerChar, hupper, hdotted, hchar]
    · by_cases hkelvin : c.toNat = 0x212A
      · have hchar : asciiChar 'k' = true := by decide +kernel
        simp [foldsOnly, lowerChar, hupper, hkelvin, hchar]
      · -- the character lowers to itself, and only the other two fold into ASCII
        have hself : lowerChar c = [c] := by simp [lowerChar, hupper, hdotted, hkelvin]
        have hnot : asciiChar c = false := by simpa [asciiChar] using hsmall
        by_cases hdotless : c.toNat = 0x131
        · simp [foldsOnly, hself, hnot, hdotless]
        · by_cases hlong : c.toNat = 0x17F
          · simp [foldsOnly, hself, hnot, hlong]
          · have hfold : foldCase c = c := by simp [foldCase, hupper, hdotted, hdotless, hlong, hkelvin]
            rw [hfold, hnot] at h
            cases h

/-- The lower case of an accepted tag is ASCII unless one of the three letters is in it. -/
theorem ascii_lower_iff (h : validLanguageTag tag) :
    (lower tag).all asciiChar ↔ ∀ c ∈ tag, foldsOnly c = false := by
  have hmatch : languagePattern.fullmatch (tag.map foldCase) := (Bool.and_eq_true_iff.mp h).1
  have hascii : ∀ c ∈ tag, asciiChar (foldCase c) := fun c hc =>
    within_languagePattern.all hmatch _ (mem_map_of_mem hc)
  rw [lower, all_flatMap, all_eq_true]
  exact forall₂_congr fun c hc => ascii_lowerChar_iff (hascii c hc)

theorem Arg.nodes_of_str? {a : Arg} {text : String} (h : a.str? = some text) : a.nodes = [] := by
  cases a with
  | text _ => rfl
  | enum _ => rfl
  | _ => cases h

/-- Its tag is stored in ASCII lower case, the stored fields build the same value again, and wherever it
has a row, the row decodes to it. -/
structure StableLiteral (n : Node) : Prop where
  tag : ∀ lexical datatype tag, n.fields = [lexical, datatype, .text tag] →
    tag.toList.all asciiChar ∧ lower tag.toList = tag.toList
  rebuilt : construct .literal (n.fields.map Arg.ofValue) = .ok n
  decoded : ∀ limits encoded, canonicalBytes limits n = .ok encoded → decodeCanonical limits encoded = .ok n

/-- The tag argument has none of the letters that fold into ASCII without lowering into it. -/
def Arg.Lowers (language : Arg) : Prop := ∀ tag, language.str? = some tag → ∀ c ∈ tag.toList, foldsOnly c = false

theorem literalLanguage_ascii_iff (h : literalLanguage datatype a = .ok v) :
    (∀ tag, v = .text tag → tag.toList.all asciiChar) ↔ a.Lowers := by
  obtain ⟨rfl, rfl⟩ | ⟨tag, htag, hvalid, -, rfl⟩ := literalLanguage_ok h
  · simp [Arg.Lowers, Arg.str?]
  · have hascii := ascii_lower_iff hvalid
    simp only [Value.text.injEq, forall_eq', String.toList_ofList, hascii, Arg.Lowers, htag, Option.some.injEq]

/-- A datatype is an entity with its IRI, so nothing in it stands in the way of decoding. -/
theorem Constructible.decodable_entity (h : Constructible n) (hc : n.constructor = .entity) :
    n.Decodable := by
  obtain ⟨kind, text, rfl⟩ := h.isEntity hc
  have heverywhere : ∀ P : Node → Prop, P (.mk .entity [.enum kind, .node (.mk .iri [.text text])]) →
      P (.mk .iri [.text text]) → Node.Everywhere P (.mk .entity [.enum kind, .node (.mk .iri [.text text])]) := by
    intro P hentity hiri
    refine .intro hentity fun m hm => ?_
    obtain rfl : m = .mk .iri [.text text] := by simpa [Node.children, Value.nodes] using hm
    exact .intro hiri fun k hk => by simp [Node.children, Value.nodes] at hk
  refine ⟨heverywhere _ ?_ ?_, heverywhere _ ?_ ?_, heverywhere _ ?_ ?_⟩
  · exact fun h => absurd h (by simp)
  · exact fun h => absurd h (by simp)
  · exact Node.integersBelow_of_not_mem (by simp)
  · exact Node.integersBelow_of_not_mem (by simp)
  · exact fun h => absurd h (by simp)
  · exact fun h => absurd h (by simp)

/-- A literal whose tag is ASCII and whose lexical form is a plain string can be decoded. -/
theorem decodable_literal (hd : Constructible d) (hentity : d.constructor = .entity) (hv : literalLanguage d language
    = .ok v) (hlowers : language.Lowers) (hplain : ∀ kind, lexical ≠ .enum kind) :
    Node.Decodable (.mk .literal [textField lexical, .node d, v]) := by
  have hnodes : (textField lexical).nodes = [] := by cases lexical <;> rfl
  have hvnodes : v.nodes = [] := by
    obtain ⟨-, rfl⟩ | ⟨_, _, _, _, rfl⟩ := literalLanguage_ok hv <;> rfl
  have hchild : ∀ m ∈ (Node.mk .literal [textField lexical, .node d, v]).children, m = d := by
    simp [Node.children, hnodes, hvnodes]
  have hdatatype := hd.decodable_entity hentity
  refine ⟨.intro ?_ ?_, .intro ?_ ?_, .intro ?_ ?_⟩
  · intro _ lexical' datatype tag hfields
    have hvtag : v = .text tag := by simp_all
    exact (literalLanguage_ascii_iff hv).mpr hlowers tag hvtag
  · exact fun m hm => hchild m hm ▸ hdatatype.ascii
  · refine Node.integersBelow_of_not_mem fun i hi => ?_
    have hcases : .integer i = textField lexical ∨ .integer i = v := by simpa using hi
    rcases hcases with hi | hi
    · cases lexical <;> simp [textField] at hi
    · obtain ⟨-, rfl⟩ | ⟨_, _, _, _, rfl⟩ := literalLanguage_ok hv <;> cases hi
  · exact fun m hm => hchild m hm ▸ hdatatype.integers
  · intro _ kind hkind
    have hkind : textField lexical = .enum kind := by simpa using hkind
    cases lexical with
    | enum other => exact hplain other rfl
    | _ => cases hkind
  · exact fun m hm => hchild m hm ▸ hdatatype.plain

/-- `Datatype(IRI(RDF_PLAIN_LITERAL_IRI))`. -/
def plainLiteral : Node := .mk .entity [.enum .datatype, .node (.mk .iri [.text rdfPlainLiteralIri])]

theorem constructible_plainLiteral : Constructible plainLiteral :=
  constructible_of_rebuilds (by decide +kernel)

/-- A literal that the constructor accepts is stable exactly when its tag lowers and, where it
has a row at all, its lexical form is a plain string. -/
theorem stableLiteral_iff {lexical datatype language : Arg} {n : Node}
    (hnested : ∀ m ∈ datatype.nodes, Constructible m)
    (h : construct .literal [lexical, datatype, language] = .ok n) :
    StableLiteral n ↔ language.Lowers ∧
      ((∃ limits encoded, canonicalBytes limits n = .ok encoded) → ∀ kind, lexical ≠ .enum kind) := by
  obtain ⟨text, d, v, htext, rfl, hinst, hv, hlang, rfl⟩ := constructLiteral_ok h
  have hd : Constructible d := hnested d (by simp)
  have hentity : d.constructor = .entity := by
    have hkind : d.kind? = some .datatype := by simpa [Node.isInstance, Node.hasClass, Schema.datatypeClass] using hinst
    exact Node.constructor_of_kind? hkind
  constructor
  · intro hstable
    constructor
    · exact (literalLanguage_ascii_iff hv).mp fun tag hvtag => (hstable.tag _ _ tag (by rw [hvtag]; rfl)).1
    · rintro ⟨limits, encoded, hrow⟩ kind rfl
      exact (decodeCanonical_accepted (hstable.decoded limits encoded hrow)).2.here rfl kind rfl
  · rintro ⟨hlowers, hplain⟩
    have hascii : ∀ tag, v = .text tag → tag.toList.all asciiChar := (literalLanguage_ascii_iff hv).mpr hlowers
    refine ⟨?_, ?_, ?_⟩
    · intro lexical' datatype tag hfields
      have hvtag : v = .text tag := by simp_all
      refine ⟨hascii tag hvtag, ?_⟩
      obtain ⟨-, rfl⟩ | ⟨given, -, hvalid, -, rfl⟩ := literalLanguage_ok hv
      · cases hvtag
      · obtain rfl := Value.text.inj hvtag
        simpa using (validLanguageTag_lower (by simpa using hascii _ rfl) hvalid).2
    · refine (sound_literal h).1.stable fun _ lexical' datatype tag hfields => hascii tag ?_
      simp_all
    · intro limits encoded hrow
      refine decodeCanonical_canonicalBytes ?_ (decodable_literal hd hentity hv hlowers (hplain ⟨limits, encoded, hrow⟩)) hrow
      have hlanguage : language.nodes = [] := by
        obtain ⟨rfl, -⟩ | ⟨tag, htag, -⟩ := literalLanguage_ok hv
        · rfl
        · exact Arg.nodes_of_str? htag
      refine .intro (fun a ha m hm => ?_) h
      simp only [mem_cons, not_mem_nil, or_false] at ha
      rcases ha with rfl | rfl | rfl
      · simp [Arg.nodes_of_str? (requireText_ok htext)] at hm
      · exact hnested m hm
      · simp [hlanguage] at hm

/-- `Literal("chat", RDF_PLAIN_LITERAL, "FR")` is stable. -/
theorem stableLiteral_chat :
    StableLiteral (.mk .literal [.text "chat", .node plainLiteral, .text "fr"]) := by
  have hcall : construct .literal [.text "chat", .node plainLiteral, .text "FR"] =
      .ok (.mk .literal [.text "chat", .node plainLiteral, .text "fr"]) := by decide +kernel
  have hnested : ∀ m ∈ (Arg.node plainLiteral).nodes, Constructible m := by
    simpa using constructible_plainLiteral
  refine (stableLiteral_iff hnested hcall).mpr ⟨?_, fun _ kind hkind => by cases hkind⟩
  intro tag htag c hc
  obtain rfl := Option.some.inj htag
  have hfolds : "FR".toList.any foldsOnly = false := by decide +kernel
  exact Bool.eq_false_of_not_eq_true (any_eq_false.mp hfolds c hc)

/-- The dotless `i` is stored as it is, outside ASCII, and the dotted capital with a combining dot that
no tag may have: the stored fields build nothing. -/
theorem literal_tag_unstable :
    construct .literal [.text "chat", .node plainLiteral, .text "ıt"] =
      .ok (.mk .literal [.text "chat", .node plainLiteral, .text "ıt"]) ∧
    "ıt".toList.all asciiChar = false ∧
    construct .literal [.text "chat", .node plainLiteral, .text "İt"] =
      .ok (.mk .literal [.text "chat", .node plainLiteral, .text "i\u0307t"]) ∧
    construct .literal [.text "chat", .node plainLiteral, .text "i\u0307t"] =
      .error (.invalidLiteral "language must be a structurally valid BCP 47 tag") := by
  decide +kernel

end OwlCore
