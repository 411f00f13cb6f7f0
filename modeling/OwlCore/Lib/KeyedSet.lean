import Mathlib.Data.List.Sort
import Mathlib.Data.List.Lex
import Mathlib.Order.Basic
import Mathlib.Tactic.Common

/-!
# Sets kept as lists ascending by a key

A finite set is stored as the list of its members, strictly ascending by a key. Building one
reads a dictionary in key order: a later member replaces an earlier one of the same key. Where
the key is injective, two such lists with the same members are equal, and set operations are
settled by membership alone.
-/
namespace OwlCore.KeyedSet

open List

variable {α κ : Type} (key : α → κ)

/-- The key separates the values that satisfy `s`. -/
def KeyInjOn (s : α → Prop) : Prop := ∀ a b, s a → s b → key a = key b → a = b

theorem KeyInjOn.mono {key : α → κ} {s t : α → Prop} (h : KeyInjOn key s) (hts : ∀ a, t a → s a) :
    KeyInjOn key t := fun a b ha hb => h a b (hts a ha) (hts b hb)

variable [LinearOrder κ]

/-- Strictly ascending by `key`. -/
def Ascending (l : List α) : Prop := l.Pairwise fun a b => key a < key b

instance (l : List α) : Decidable (Ascending key l) := by unfold Ascending; infer_instance

/-- Assign `a` at its key: before the first larger key, or in place of an equal one. -/
def insert (a : α) : List α → List α
  | [] => [a]
  | b :: l =>
    if key a < key b then a :: b :: l
    else if key b < key a then b :: insert a l
    else a :: l

/-- The dictionary `{key(v): v for v in values}` read out in key order. -/
def ofList (values : List α) : List α := values.foldl (fun acc a => insert key a acc) []

variable {key}

variable {x : α}

theorem mem_insert_of (h : x ∈ insert key a l) : x = a ∨ x ∈ l := by
  induction l with
  | nil => simpa [insert] using h
  | cons b l ih =>
    simp only [insert] at h
    split at h
    · simpa using h
    · split at h
      · rcases mem_cons.mp h with rfl | h
        · simp
        · rcases ih h with rfl | h <;> simp [*]
      · rcases mem_cons.mp h with rfl | h <;> simp [*]

theorem self_mem_insert (a : α) (l : List α) : a ∈ insert key a l := by
  induction l with
  | nil => simp [insert]
  | cons b l ih =>
    simp only [insert]
    split
    · simp
    · split
      · exact mem_cons_of_mem b ih
      · simp

theorem mem_insert_of_key_ne (hx : x ∈ l) (hne : key x ≠ key a) :
    x ∈ insert key a l := by
  induction l with
  | nil => exact absurd hx (by simp)
  | cons b l ih =>
    simp only [insert]
    split
    · exact mem_cons_of_mem a hx
    · split
      · rcases mem_cons.mp hx with rfl | hx
        · simp
        · exact mem_cons_of_mem b (ih hx)
      · rcases mem_cons.mp hx with rfl | hx
        · exact absurd (le_antisymm (not_lt.mp ‹_›) (not_lt.mp ‹_›)) hne
        · exact mem_cons_of_mem a hx

theorem ascending_insert (a : α) (h : Ascending key l) :
    Ascending key (insert key a l) := by
  induction l with
  | nil => simp [insert, Ascending]
  | cons b l ih =>
    obtain ⟨hb, hl⟩ := pairwise_cons.mp h
    simp only [insert]
    split
    · rename_i hab
      refine pairwise_cons.mpr ⟨fun x hx => ?_, h⟩
      rcases mem_cons.mp hx with rfl | hx
      · exact hab
      · exact lt_trans hab (hb x hx)
    · split
      · rename_i hba
        refine pairwise_cons.mpr ⟨fun x hx => ?_, ih hl⟩
        rcases mem_insert_of hx with rfl | hx
        · exact hba
        · exact hb x hx
      · rename_i hab hba
        have heq : key a = key b := le_antisymm (not_lt.mp hba) (not_lt.mp hab)
        exact pairwise_cons.mpr ⟨fun x hx => heq ▸ hb x hx, hl⟩

theorem mem_insert {a : α} {l : List α} (hinj : KeyInjOn key fun y => y = a ∨ y ∈ l) :
    x ∈ insert key a l ↔ x = a ∨ x ∈ l := by
  refine ⟨mem_insert_of, ?_⟩
  rintro (rfl | hx)
  · exact self_mem_insert x l
  · by_cases hne : key x = key a
    · rw [hinj x a (.inr hx) (.inl rfl) hne]
      exact self_mem_insert a l
    · exact mem_insert_of_key_ne hx hne

variable {values : List α}

theorem mem_foldl_insert : ∀ acc : List α, KeyInjOn key (fun a => a ∈ values ∨ a ∈ acc) →
    (x ∈ values.foldl (fun acc a => insert key a acc) acc ↔ x ∈ values ∨ x ∈ acc) := by
  induction values with
  | nil => intro acc _; simp
  | cons a values ih =>
    intro acc hinj
    have hmem : ∀ y, y ∈ insert key a acc ↔ y = a ∨ y ∈ acc := fun y =>
      mem_insert (hinj.mono fun z hz => by rcases hz with rfl | hz <;> simp [*])
    have hinj' : KeyInjOn key fun y => y ∈ values ∨ y ∈ insert key a acc :=
      hinj.mono fun y hy => by
        rw [hmem y] at hy
        rw [mem_cons]
        tauto
    rw [foldl_cons, ih (insert key a acc) hinj', hmem x, mem_cons]
    tauto

theorem foldl_insert_ascending (values acc : List α) (hacc : Ascending key acc) :
    Ascending key (values.foldl (fun acc a => insert key a acc) acc) := by
  induction values generalizing acc with
  | nil => exact hacc
  | cons a values ih => exact ih _ (ascending_insert a hacc)

theorem ascending_ofList (values : List α) : Ascending key (ofList key values) :=
  foldl_insert_ascending values [] List.Pairwise.nil

theorem mem_ofList (hinj : KeyInjOn key (· ∈ values)) (x : α) :
    x ∈ ofList key values ↔ x ∈ values := by
  have h := mem_foldl_insert (x := x) [] (hinj.mono fun a ha => by simpa using ha)
  simpa [ofList] using h

theorem mem_of_mem_foldl : ∀ acc : List α,
    x ∈ values.foldl (fun acc a => insert key a acc) acc → x ∈ values ∨ x ∈ acc := by
  induction values with
  | nil => intro acc h; exact .inr h
  | cons a values ih =>
    intro acc h
    rcases ih _ h with h | h
    · exact .inl (mem_cons_of_mem a h)
    · rcases mem_insert_of h with rfl | h
      · exact .inl (by simp)
      · exact .inr h

theorem mem_of_mem_ofList (h : x ∈ ofList key values) : x ∈ values := by
  simpa using mem_of_mem_foldl [] h

@[simp] theorem ofList_eq_nil : ofList key l = [] ↔ l = [] := by
  constructor
  · intro h
    rcases eq_nil_or_concat l with rfl | ⟨front, a, rfl⟩
    · rfl
    · have hmem : a ∈ insert key a (ofList key front) := self_mem_insert a _
      rw [concat_eq_append, ofList, foldl_append] at h
      simp only [foldl_cons, foldl_nil] at h
      rw [ofList, h] at hmem
      simp at hmem
  · rintro rfl
    rfl

theorem Ascending.keyInjOn (h : Ascending key l) : KeyInjOn key (· ∈ l) := by
  induction l with
  | nil => intro a _ ha; simp at ha
  | cons c l ih =>
    obtain ⟨hc, hl⟩ := pairwise_cons.mp h
    intro a b ha hb hab
    rcases mem_cons.mp ha with rfl | ha <;> rcases mem_cons.mp hb with rfl | hb
    · rfl
    · exact absurd hab (ne_of_lt (hc b hb))
    · exact absurd hab.symm (ne_of_lt (hc a ‹_›))
    · exact ih hl a b ha hb hab

theorem Ascending.nodup (h : Ascending key l) : l.Nodup :=
  List.Pairwise.imp (fun hlt heq => (lt_irrefl _ (heq ▸ hlt)).elim) h

theorem Ascending.ext (h : Ascending key l) (h' : Ascending key l') (hmem : ∀ x, x ∈ l ↔ x ∈ l') : l = l' := by
  have hperm : l.Perm l' := (perm_ext_iff_of_nodup h.nodup h'.nodup).mpr hmem
  exact hperm.eq_of_pairwise (fun a b _ _ hab hba => (lt_asymm hab hba).elim) h h'

theorem ofList_perm (hinj : KeyInjOn key (· ∈ l)) (hl : l.Nodup) :
    (ofList key l).Perm l :=
  (perm_ext_iff_of_nodup (ascending_ofList l).nodup hl).mpr fun x => mem_ofList hinj x

/-- Reading an ascending list into a dictionary and out again changes nothing. -/
theorem ofList_eq_self (h : Ascending key l) : ofList key l = l :=
  (ascending_ofList l).ext h fun x => mem_ofList h.keyInjOn x

theorem insert_map (g : β → α) (b : β) (l : List β) :
    insert key (g b) (l.map g) = (insert (fun x => key (g x)) b l).map g := by
  induction l with
  | nil => simp [insert]
  | cons c l ih =>
    simp only [insert, map_cons]
    split
    · simp
    · split <;> simp [ih]

/-- A dictionary of images is the image of the dictionary under the composed key. -/
theorem ofList_map (g : β → α) (l : List β) :
    ofList key (l.map g) = (ofList (fun x => key (g x)) l).map g := by
  have hfold : ∀ acc : List β, (l.map g).foldl (fun acc a => insert key a acc) (acc.map g) =
      (l.foldl (fun acc b => insert (fun x => key (g x)) b acc) acc).map g := by
    induction l with
    | nil => simp
    | cons b l ih =>
      intro acc
      simp only [map_cons, foldl_cons, insert_map, ih]
  simpa [ofList] using hfold []

theorem ofList_congr {l l' : List α} (hinj : KeyInjOn key fun a => a ∈ l ∨ a ∈ l')
    (hmem : ∀ x, x ∈ l ↔ x ∈ l') : ofList key l = ofList key l' := by
  refine (ascending_ofList l).ext (ascending_ofList l') fun x => ?_
  rw [mem_ofList (hinj.mono fun a ha => .inl ha), mem_ofList (hinj.mono fun a ha => .inr ha), hmem]

section

variable {l l' : List κ}

@[simp] theorem mem_ofList_id {x : κ} : x ∈ ofList id l ↔ x ∈ l :=
  mem_ofList (fun _ _ _ _ h => h) x

theorem nodup_ofList_id : (ofList id l).Nodup := (ascending_ofList l).nodup

theorem ofList_id_congr (hmem : ∀ x, x ∈ l ↔ x ∈ l') : ofList id l = ofList id l' :=
  ofList_congr (fun _ _ _ _ h => h) hmem

theorem ofList_id_inj (h : ofList id l = ofList id l') (x : κ) : x ∈ l ↔ x ∈ l' := by
  rw [← mem_ofList_id (l := l), h, mem_ofList_id]

end

section

variable (key) (l : List α) (target : κ)

/-- The loop that halves the range `lower..upper` until it is empty. -/
def bisect : Nat → Nat → Nat → Nat
  | 0, lower, _ => lower
  | fuel + 1, lower, upper =>
    if lower < upper then
      let middle := (lower + upper) / 2
      if (l[middle]?.map key).any (· < target) then bisect fuel (middle + 1) upper
      else bisect fuel lower middle
    else lower

def contains : Bool := l[bisect key l target l.length 0 l.length]?.map key = some target

variable {key l target}

theorem bisect_spec (h : Ascending key l) : ∀ {lower upper : Nat}, upper - lower ≤ fuel →
    lower ≤ upper → upper ≤ l.length →
    (∀ i a, l[i]? = some a → i < lower → key a < target) →
    (∀ i a, l[i]? = some a → upper ≤ i → target ≤ key a) →
    ∀ i a, l[i]? = some a → (key a < target ↔ i < bisect key l target fuel lower upper) := by
  induction fuel with
  | zero =>
    intro lower upper hfuel hle _ hlower hupper i a ha
    have heq : upper = lower := by omega
    subst heq
    refine ⟨fun hlt => ?_, hlower i a ha⟩
    by_contra hge
    exact absurd hlt (not_lt.mpr (hupper i a ha (not_lt.mp hge)))
  | succ fuel ih =>
    intro lower upper hfuel hle hlength hlower hupper
    simp only [bisect]
    split
    · rename_i hlt
      have hmiddle : (lower + upper) / 2 < l.length := by omega
      have hget : l[(lower + upper) / 2]? = some (l[(lower + upper) / 2]) :=
        getElem?_eq_getElem hmiddle
      have hmono : ∀ (i j : Nat) (a b : α), l[i]? = some a → l[j]? = some b → i < j → key a < key b := by
        intro i j a b hi hj hij
        obtain ⟨hi', rfl⟩ := List.getElem?_eq_some_iff.mp hi
        obtain ⟨hj', rfl⟩ := List.getElem?_eq_some_iff.mp hj
        exact pairwise_iff_getElem.mp h i j hi' hj' hij
      rw [hget, Option.map_some, Option.any_some]
      split
      · rename_i hsmall
        refine ih (by omega) (by omega) hlength (fun i a ha hi => ?_) hupper
        rcases Nat.lt_or_eq_of_le (Nat.lt_succ_iff.mp hi) with hi | rfl
        · exact (hmono _ _ _ _ ha hget hi).trans (of_decide_eq_true hsmall)
        · exact Option.some.inj (hget.symm.trans ha) ▸ of_decide_eq_true hsmall
      · rename_i hlarge
        have hlarge : target ≤ key (l[(lower + upper) / 2]) := by simpa using hlarge
        refine ih (by omega) (by omega) (by omega) hlower fun i a ha hi => ?_
        rcases Nat.lt_or_eq_of_le hi with hi | rfl
        · exact hlarge.trans (hmono _ _ _ _ hget ha hi).le
        · exact Option.some.inj (hget.symm.trans ha) ▸ hlarge
    · rename_i hge
      have heq : upper = lower := by omega
      subst heq
      intro i a ha
      refine ⟨fun hlt => ?_, hlower i a ha⟩
      by_contra hge
      exact absurd hlt (not_lt.mpr (hupper i a ha (not_lt.mp hge)))

theorem contains_iff (h : Ascending key l) : contains key l target = true ↔ ∃ a ∈ l, key a = target := by
  have hspec : ∀ (i : Nat) (a : α), l[i]? = some a → (key a < target ↔ i < bisect key l target l.length 0 l.length) :=
    bisect_spec h (Nat.sub_zero l.length).le (Nat.zero_le _) le_rfl
      (fun i a _ hi => absurd hi (Nat.not_lt_zero i))
      (fun i a ha hi => absurd (List.getElem?_eq_some_iff.mp ha).1 (not_lt.mpr hi))
  rw [contains, decide_eq_true_iff, Option.map_eq_some_iff]
  constructor
  · rintro ⟨a, ha, hkey⟩
    exact ⟨a, mem_of_getElem? ha, hkey⟩
  · rintro ⟨a, ha, hkey⟩
    obtain ⟨i, hi⟩ := getElem?_of_mem ha
    have hle : bisect key l target l.length 0 l.length ≤ i := by
      by_contra hlt
      exact absurd ((hspec i a hi).mpr (not_le.mp hlt)) (by rw [hkey]; exact lt_irrefl _)
    obtain ⟨b, hb⟩ : ∃ b, l[bisect key l target l.length 0 l.length]? = some b :=
      ⟨_, getElem?_eq_getElem (hle.trans_lt (List.getElem?_eq_some_iff.mp hi).1)⟩
    refine ⟨b, hb, le_antisymm ?_ ?_⟩
    · rcases Nat.lt_or_eq_of_le hle with hlt | heq
      · obtain ⟨hb', rfl⟩ := List.getElem?_eq_some_iff.mp hb
        obtain ⟨hi', rfl⟩ := List.getElem?_eq_some_iff.mp hi
        exact hkey ▸ (pairwise_iff_getElem.mp h _ i hb' hi' hlt).le
      · rw [heq, hi] at hb
        exact (Option.some.inj hb ▸ hkey).le
    · exact not_lt.mp fun hlt => absurd ((hspec _ b hb).mp hlt) (lt_irrefl _)

end

end OwlCore.KeyedSet
