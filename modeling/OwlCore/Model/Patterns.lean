import OwlCore.Model.Text

/-!
# What the patterns match

A pattern is matched by derivatives; here each of its operators is described by
the texts it matches. The characters of a matched text are those that the
classes of the pattern admit.
-/
namespace OwlCore

open List

namespace Pattern

theorem fullmatch_fail (x : List Char) : Pattern.fail.fullmatch x = false := by
  induction x with
  | nil => rfl
  | cons c x ih => exact ih

theorem fullmatch_empty : Pattern.empty.fullmatch x ↔ x = [] := by
  cases x with
  | nil => simp [fullmatch, nullable]
  | cons c x => simp [fullmatch, derive, fullmatch_fail]

theorem fullmatch_class :
    (Pattern.class test).fullmatch x ↔ ∃ c, x = [c] ∧ test c := by
  cases x with
  | nil => simp [fullmatch, nullable]
  | cons c x =>
    by_cases h : test c
    · simp [fullmatch, derive, h, fullmatch_empty]
    · simp only [fullmatch, derive, h, fullmatch_fail, Bool.false_eq_true, if_false, List.cons.injEq, false_iff]
      rintro ⟨d, ⟨rfl, -⟩, hd⟩
      exact h hd

theorem fullmatch_alt :
    (Pattern.alt p q).fullmatch x ↔ p.fullmatch x ∨ q.fullmatch x := by
  induction x generalizing p q with
  | nil => simp [fullmatch, nullable]
  | cons c x ih => exact ih

theorem fullmatch_seq :
    (Pattern.seq p q).fullmatch x ↔ ∃ t u, x = t ++ u ∧ p.fullmatch t ∧ q.fullmatch u := by
  induction x generalizing p q with
  | nil => simp [fullmatch, nullable, and_assoc]
  | cons c x ih =>
    have hcons : (∃ t u, c :: x = t ++ u ∧ p.fullmatch t ∧ q.fullmatch u) ↔ (p.nullable ∧ (q.derive c).fullmatch x) ∨
          ∃ t u, x = t ++ u ∧ (p.derive c).fullmatch t ∧ q.fullmatch u := by
      constructor
      · rintro ⟨t, u, hx, ht, hu⟩
        cases t with
        | nil =>
          obtain rfl : c :: x = u := hx
          exact .inl ⟨ht, hu⟩
        | cons d t =>
          obtain ⟨rfl, rfl⟩ := List.cons.inj hx
          exact .inr ⟨t, u, rfl, ht, hu⟩
      · rintro (⟨hp, hq⟩ | ⟨t, u, rfl, ht, hu⟩)
        · exact ⟨[], c :: x, rfl, hp, hq⟩
        · exact ⟨c :: t, u, rfl, ht, hu⟩
    rw [hcons]
    by_cases h : p.nullable
    · simp only [fullmatch, derive, h, if_true, fullmatch_alt, ih, true_and]
      exact or_comm
    · simp [fullmatch, derive, h, ih]

theorem fullmatch_star :
    (Pattern.star p).fullmatch x ↔ ∃ words : List (List Char), x = words.flatten ∧ ∀ t ∈ words, p.fullmatch t := by
  constructor
  · -- on the length of the text: the first word takes at least one character
    induction hn : x.length using Nat.strong_induction_on generalizing x with
    | _ n ih =>
      intro h
      cases x with
      | nil => exact ⟨[], rfl, by simp⟩
      | cons c x =>
        obtain ⟨t, u, rfl, ht, hu⟩ := fullmatch_seq.mp h
        obtain ⟨words, rfl, hwords⟩ := ih u.length (by simp at hn; omega) rfl hu
        refine ⟨(c :: t) :: words, rfl, ?_⟩
        intro w hw
        rcases mem_cons.mp hw with rfl | hw
        · exact ht
        · exact hwords w hw
  · rintro ⟨words, rfl, hwords⟩
    induction words with
    | nil => rfl
    | cons t words ih =>
      have hrest := ih fun w hw => hwords w (mem_cons_of_mem _ hw)
      cases t with
      | nil => exact hrest
      | cons c t => exact fullmatch_seq.mpr ⟨t, words.flatten, rfl, hwords _ mem_cons_self, hrest⟩

section

variable {ok : Char → Bool}

/-- Every class of the pattern admits only characters that pass the test. -/
def Within (ok : Char → Bool) : Pattern → Prop
  | .fail | .empty => True
  | .class test => ∀ c, test c → ok c
  | .seq first second => first.Within ok ∧ second.Within ok
  | .alt left right => left.Within ok ∧ right.Within ok
  | .star body => body.Within ok

theorem Within.all {p : Pattern} (h : p.Within ok) {x : List Char} (hx : p.fullmatch x) : ∀ c ∈ x, ok c := by
  induction p generalizing x with
  | fail => simp [fullmatch_fail] at hx
  | empty => simp [fullmatch_empty.mp hx]
  | «class» test =>
    obtain ⟨c, rfl, hc⟩ := fullmatch_class.mp hx
    simpa using h c hc
  | seq first second ih ih' =>
    obtain ⟨t, u, rfl, ht, hu⟩ := fullmatch_seq.mp hx
    exact forall_mem_append.mpr ⟨ih h.1 ht, ih' h.2 hu⟩
  | alt left right ih ih' =>
    rcases fullmatch_alt.mp hx with hx | hx
    · exact ih h.1 hx
    · exact ih' h.2 hx
  | star body ih =>
    obtain ⟨words, rfl, hwords⟩ := fullmatch_star.mp hx
    intro c hc
    obtain ⟨t, ht, hc⟩ := mem_flatten.mp hc
    exact ih h (hwords t ht) c hc

theorem within_literal (h : text.toList.all ok) : (literal text).Within ok := by
  rw [literal]
  revert h
  induction text.toList with
  | nil => exact fun _ => trivial
  | cons c rest ih =>
    intro h
    rw [all_cons, Bool.and_eq_true] at h
    exact ⟨fun d hd => eq_of_beq hd ▸ h.1, ih h.2⟩

theorem within_oneOf (h : ∀ p ∈ ps, p.Within ok) : (oneOf ps).Within ok := by
  induction ps with
  | nil => trivial
  | cons p ps ih => exact ⟨h p (.head _), ih fun q hq => h q (.tail _ hq)⟩

theorem Within.upTo {p : Pattern} (h : p.Within ok) (count : Nat) : (p.upTo count).Within ok := by
  induction count with
  | zero => trivial
  | succ count ih => exact ⟨trivial, h, ih⟩

theorem Within.between {p : Pattern} (h : p.Within ok) (least more : Nat) : (p.between least more).Within ok := by
  rw [Pattern.between]
  induction least with
  | zero => exact h.upTo more
  | succ least ih => exact ⟨h, ih⟩

end

end Pattern

section

open Pattern

theorem within_alphanum : alphanum.Within asciiChar := by
  intro c hc
  simp only [Bool.or_eq_true, Bool.and_eq_true, decide_eq_true_eq] at hc
  have hle : c ≤ 'z' := hc.elim (·.2) fun h => h.2.trans (by decide)
  exact decide_eq_true (lt_of_le_of_lt (show c.toNat ≤ 122 from hle) (by decide))

theorem within_alpha : alpha.Within asciiChar := fun c hc => within_alphanum c (by simp_all)

theorem within_digit : digit.Within asciiChar := fun c hc => within_alphanum c (by simp_all)

theorem within_singleton : singleton.Within asciiChar := fun c hc =>
  within_alphanum c (Bool.and_eq_true_iff.mp hc).2

theorem within_subtag (h : p.Within asciiChar) : (subtag p).Within asciiChar :=
  ⟨within_literal (by decide), h⟩

theorem within_tags {tags : List String} (h : tags.all fun tag => tag.toList.all asciiChar) :
    (oneOf (tags.map literal)).Within asciiChar :=
  within_oneOf fun p hp => by
    obtain ⟨tag, htag, rfl⟩ := mem_map.mp hp
    exact within_literal (all_eq_true.mp h tag htag)

/-- The pattern of language tags admits ASCII characters only, after folding. -/
theorem within_languagePattern : languagePattern.Within asciiChar := by
  have hprivate : (plus (subtag (alphanum.between 1 7))).Within asciiChar :=
    ⟨within_subtag (within_alphanum.between 1 7), within_subtag (within_alphanum.between 1 7)⟩
  have hx : (literal "x").Within asciiChar := within_literal (by decide)
  refine ⟨⟨⟨⟨within_alpha.between 2 1, (within_subtag (within_alpha.between 3 0)).between 0 3⟩,
    within_alpha.between 4 0, within_alpha.between 5 3, trivial⟩, ⟨trivial, within_subtag (within_alpha.between 4 0)⟩,
    ⟨trivial, within_subtag ⟨within_alpha.between 2 0, within_digit.between 3 0⟩⟩,
    within_subtag ⟨within_alphanum.between 5 3, within_digit, within_alphanum.between 3 0⟩,
    ⟨within_subtag within_singleton, within_subtag (within_alphanum.between 2 6),
      within_subtag (within_alphanum.between 2 6)⟩, ⟨trivial, within_subtag hx, hprivate⟩, trivial⟩,
    ⟨hx, hprivate⟩, within_tags (by decide +kernel), within_tags (by decide +kernel), trivial⟩

end

end OwlCore
