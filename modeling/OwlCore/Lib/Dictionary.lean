import Mathlib.Data.List.Basic
import Mathlib.Data.List.Induction
import Mathlib.Data.List.Nodup
import Mathlib.Tactic.Common

/-!
# Dictionaries in insertion order

A dictionary is the list of its entries in the order in which the keys came. Assigning
a key that is present changes its entry in place.
-/
namespace OwlCore.Dictionary

open List

variable {κ ν : Type}

def keys (d : List (κ × ν)) : List κ := d.map Prod.fst

theorem mem_keys : k ∈ keys d ↔ ∃ v, (k, v) ∈ d := by
  simp [keys]

variable [DecidableEq κ]

/-- `d[k] = v`. -/
def assign (d : List (κ × ν)) (k : κ) (v : ν) : List (κ × ν) :=
  if k ∈ keys d then d.map fun e => if e.1 = k then (k, v) else e else d ++ [(k, v)]

/-- `d.get(k)`. -/
def get? : List (κ × ν) → κ → Option ν
  | [], _ => none
  | e :: d, k => if e.1 = k then some e.2 else get? d k

variable {d : List (κ × ν)} {k k' : κ} {v v' : ν}

theorem keys_assign : keys (assign d k v) = if k ∈ keys d then keys d else keys d ++ [k] := by
  unfold assign
  split
  · simp only [keys, map_map]
    refine map_congr_left fun e _ => ?_
    by_cases he : e.1 = k
    · simp [he]
    · simp [he]
  · simp [keys]

theorem mem_keys_assign : k' ∈ keys (assign d k v) ↔ k' ∈ keys d ∨ k' = k := by
  rw [keys_assign]
  split
  · rename_i hk
    refine ⟨.inl, ?_⟩
    rintro (h | rfl)
    · exact h
    · exact hk
  · simp

theorem nodup_assign (h : (keys d).Nodup) : (keys (assign d k v)).Nodup := by
  rw [keys_assign]
  split
  · exact h
  · rename_i hk
    exact nodup_append.mpr ⟨h, nodup_singleton k, fun a ha b hb heq =>
      hk (mem_singleton.mp hb ▸ heq ▸ ha)⟩

/-- Assigning a value that the key already has, if it has one, only adds the entry. -/
theorem mem_assign (h : ∀ v', (k, v') ∈ d → v' = v) : e ∈ assign d k v ↔ e ∈ d ∨ e = (k, v) := by
  unfold assign
  split
  · rename_i hk
    have hsame : (d.map fun e => if e.1 = k then (k, v) else e) = d := by
      conv_rhs => rw [← map_id d]
      refine map_congr_left fun e he => ?_
      by_cases hek : e.1 = k
      · rw [if_pos hek, ← hek, ← h e.2 (hek ▸ he)]
        rfl
      · rw [if_neg hek]
        rfl
    rw [hsame]
    refine ⟨.inl, ?_⟩
    rintro (he | rfl)
    · exact he
    · obtain ⟨v', hv'⟩ := mem_keys.mp hk
      rwa [h v' hv'] at hv'
  · simp

theorem get?_eq_none : get? d k = none ↔ k ∉ keys d := by
  induction d with
  | nil => simp [get?, keys]
  | cons e d ih =>
    by_cases he : e.1 = k
    · simp [get?, keys, he]
    · simp only [get?, if_neg he, ih, keys, map_cons, mem_cons, not_or]
      exact ⟨fun h => ⟨fun heq => he heq.symm, h⟩, fun h => h.2⟩

theorem get?_of_mem (h : (keys d).Nodup) (he : (k, v) ∈ d) : get? d k = some v := by
  induction d with
  | nil => cases he
  | cons e d ih =>
    obtain ⟨hnot, hnodup⟩ := nodup_cons.mp h
    rcases mem_cons.mp he with rfl | he
    · simp [get?]
    · have hne : e.1 ≠ k := fun heq => hnot (heq ▸ mem_keys.mpr ⟨v, he⟩)
      rw [get?, if_neg hne]
      exact ih hnodup he

theorem get?_map_const {ks : List κ} (h : k ∈ ks) : get? (ks.map fun k => (k, v)) k = some v := by
  induction ks with
  | nil => cases h
  | cons a ks ih =>
    by_cases ha : a = k
    · simp [get?, ha]
    · simpa [get?, ha] using ih ((mem_cons.mp h).resolve_left fun heq => ha heq.symm)

theorem get?_append_self (h : k ∉ keys d) : get? (d ++ [(k, v)]) k' = if k' = k then some v else get? d k' := by
  induction d with
  | nil => simp [get?, eq_comm]
  | cons e d ih =>
    have hsplit : ¬k = e.1 ∧ k ∉ keys d := by simpa [keys] using h
    by_cases he : e.1 = k'
    · have hne : k' ≠ k := fun heq => hsplit.1 (heq ▸ he.symm)
      simp [get?, he, hne]
    · rw [cons_append, get?, if_neg he, ih hsplit.2, get?, if_neg he]

theorem get?_replace (h : k ∈ keys d) :
    get? (d.map fun e => if e.1 = k then (k, v) else e) k' = if k' = k then some v else get? d k' := by
  induction d with
  | nil => cases h
  | cons e d ih =>
    by_cases hek : e.1 = k
    · by_cases hk' : k' = k
      · simp [get?, hek, hk']
      · have hne : k ≠ k' := fun heq => hk' heq.symm
        by_cases hd : k ∈ keys d
        · simp [get?, hek, hne, hk', ih hd]
        · have hsame : (d.map fun e => if e.1 = k then (k, v) else e) = d := by
            conv_rhs => rw [← map_id d]
            refine map_congr_left fun f hf => ?_
            have hfk : f.1 ≠ k := fun heq => hd (heq ▸ mem_map_of_mem hf)
            rw [if_neg hfk]
            rfl
          simp [get?, hek, hne, hk', hsame]
    · have hd : k ∈ keys d := by
        rcases mem_cons.mp h with heq | hd
        · exact absurd heq.symm hek
        · exact hd
      by_cases he : e.1 = k'
      · have hne : k' ≠ k := fun heq => hek (he.trans heq)
        simp [get?, he, hne]
      · simp [get?, hek, he, ih hd]

theorem get?_assign : get? (assign d k v) k' = if k' = k then some v else get? d k' := by
  unfold assign
  split
  · exact get?_replace ‹_›
  · exact get?_append_self ‹_›

theorem mem_of_get? (h : get? d k = some v) : (k, v) ∈ d := by
  induction d with
  | nil => cases h
  | cons e d ih =>
    by_cases he : e.1 = k
    · rw [get?, if_pos he, Option.some.injEq] at h
      rw [← he, ← h]
      exact mem_cons_self
    · rw [get?, if_neg he] at h
      exact mem_cons_of_mem e (ih h)

/-- `{k: v for k, v in entries}`: the last entry of a key counts. -/
def ofEntries (entries : List (κ × ν)) : List (κ × ν) := entries.foldl (fun d e => assign d e.1 e.2) []

theorem get?_ofEntries (entries : List (κ × ν)) :
    get? (ofEntries entries) k = (entries.reverse.find? fun e => e.1 = k).map Prod.snd := by
  induction entries using List.reverseRecOn with
  | nil => rfl
  | append_singleton entries e ih =>
    rw [ofEntries, foldl_append, foldl_cons, foldl_nil, get?_assign, reverse_append,
      reverse_singleton, singleton_append, find?_cons, ← ofEntries, ih]
    by_cases he : e.1 = k
    · simp [he]
    · have hne : k ≠ e.1 := fun heq => he heq.symm
      simp [he, hne]

variable {entries : List (κ × ν)}

theorem mem_of_get?_ofEntries (h : get? (ofEntries entries) k = some v) :
    (k, v) ∈ entries := by
  rw [get?_ofEntries] at h
  obtain ⟨e, he, rfl⟩ := Option.map_eq_some_iff.mp h
  have hkey : e.1 = k := by simpa using find?_some he
  rw [← hkey]
  exact mem_reverse.mp (mem_of_find?_eq_some he)

theorem exists_get?_ofEntries (h : (k, v) ∈ entries) :
    ∃ v', get? (ofEntries entries) k = some v' := by
  rw [← Option.isSome_iff_exists, get?_ofEntries, Option.isSome_map, find?_isSome]
  exact ⟨(k, v), mem_reverse.mpr h, by simp⟩

theorem nodup_keys_ofEntries (entries : List (κ × ν)) : (keys (ofEntries entries)).Nodup := by
  induction entries using List.reverseRecOn with
  | nil => exact nodup_nil
  | append_singleton entries e ih =>
    rw [ofEntries, foldl_append, foldl_cons, foldl_nil]
    exact nodup_assign ih

theorem mem_ofEntries (h : ∀ e ∈ entries, ∀ e' ∈ entries, e.1 = e'.1 → e = e') :
    e ∈ ofEntries entries ↔ e ∈ entries := by
  constructor
  · intro he
    exact mem_of_get?_ofEntries (get?_of_mem (nodup_keys_ofEntries entries) he)
  · intro he
    obtain ⟨v, hv⟩ := exists_get?_ofEntries (k := e.1) (v := e.2) he
    rw [h e he (e.1, v) (mem_of_get?_ofEntries hv) rfl]
    exact mem_of_get? hv

/-- `d.setdefault(k, []).append(v)`. -/
def push (d : List (κ × List ν)) (k : κ) (v : ν) : List (κ × List ν) := assign d k ((get? d k).getD [] ++ [v])

theorem mem_get?_push {d : List (κ × List ν)} :
    v' ∈ (get? (push d k v) k').getD [] ↔ v' ∈ (get? d k').getD [] ∨ k' = k ∧ v' = v := by
  rw [push, get?_assign]
  by_cases hk : k' = k
  · simp [hk]
  · simp [hk]

/-- The lists that pushing the entries one after the other gives. -/
def gather (entries : List (κ × ν)) : List (κ × List ν) := entries.foldl (fun d e => push d e.1 e.2) []

theorem mem_get?_gather : v ∈ (get? (gather entries) k).getD [] ↔ (k, v) ∈ entries := by
  induction entries using List.reverseRecOn with
  | nil => simp [gather, get?]
  | append_singleton entries e ih =>
    rw [gather, foldl_append, foldl_cons, foldl_nil, mem_get?_push, ← gather, ih, mem_append,
      mem_singleton, Prod.ext_iff]

theorem mem_keys_gather : k ∈ keys (gather entries) ↔ ∃ v, (k, v) ∈ entries := by
  induction entries using List.reverseRecOn with
  | nil => simp [gather, keys]
  | append_singleton entries e ih =>
    rw [gather, foldl_append, foldl_cons, foldl_nil, push, mem_keys_assign, ← gather, ih]
    simp only [mem_append, mem_singleton, exists_or, Prod.ext_iff, exists_and_left, exists_eq, and_true]

theorem nodup_keys_gather (entries : List (κ × ν)) : (keys (gather entries)).Nodup := by
  induction entries using List.reverseRecOn with
  | nil => exact nodup_nil
  | append_singleton entries e ih =>
    rw [gather, foldl_append, foldl_cons, foldl_nil]
    exact nodup_assign ih

theorem mem_gather (h : (k, vs) ∈ gather entries) :
    (∀ v, v ∈ vs ↔ (k, v) ∈ entries) ∧ vs ≠ [] := by
  have hmem : ∀ v, v ∈ vs ↔ (k, v) ∈ entries := by
    intro v
    rw [← mem_get?_gather, get?_of_mem (nodup_keys_gather entries) h, Option.getD_some]
  obtain ⟨v, hv⟩ := mem_keys_gather.mp (mem_keys.mpr ⟨vs, h⟩)
  exact ⟨hmem, ne_nil_of_mem ((hmem v).mpr hv)⟩

theorem exists_mem_gather (h : (k, v) ∈ entries) : ∃ vs, (k, vs) ∈ gather entries ∧ v ∈ vs := by
  obtain ⟨vs, hvs⟩ := mem_keys.mp (mem_keys_gather.mpr ⟨v, h⟩)
  exact ⟨vs, hvs, ((mem_gather hvs).1 v).mpr h⟩

theorem get?_perm (hperm : d'.Perm d) (h : (keys d).Nodup) : get? d' k = get? d k := by
  have h' : (keys d').Nodup := (hperm.map Prod.fst).nodup_iff.mpr h
  cases hget : get? d k with
  | none =>
    rw [get?_eq_none] at hget ⊢
    exact fun hmem => hget ((hperm.map Prod.fst).mem_iff.mp hmem)
  | some v => exact get?_of_mem h' (hperm.mem_iff.mpr (mem_of_get? hget))

/-- `d.pop(k, None)`. -/
def remove (d : List (κ × ν)) (k : κ) : List (κ × ν) := d.filter fun e => e.1 ≠ k

/-- `d.move_to_end(k)` of a dictionary that remembers its order. -/
def toEnd (d : List (κ × ν)) (k : κ) : List (κ × ν) := remove d k ++ d.filter fun e => e.1 = k

theorem nodup_remove (h : (keys d).Nodup) : (keys (remove d k)).Nodup :=
  h.sublist (filter_sublist.map Prod.fst)

theorem get?_remove : get? (remove d k) k' = if k' = k then none else get? d k' := by
  induction d with
  | nil => simp [remove, get?]
  | cons e d ih =>
    by_cases he : e.1 = k
    · have hdrop : remove (e :: d) k = remove d k := by simp [remove, he]
      rw [hdrop, ih]
      by_cases hk' : k' = k
      · simp [hk']
      · have hne : e.1 ≠ k' := fun heq => hk' (heq.symm.trans he)
        simp [hk', get?, hne]
    · have hkeep : remove (e :: d) k = e :: remove d k := by simp [remove, he]
      rw [hkeep, get?, get?]
      by_cases he' : e.1 = k'
      · have hne : k' ≠ k := fun heq => he (he'.trans heq)
        simp [he', hne]
      · simp [he', ih]

theorem toEnd_perm : (toEnd d k).Perm d := by
  have hperm := filter_append_perm (fun e : κ × ν => decide (e.1 ≠ k)) d
  simpa [toEnd, remove] using hperm

theorem toEnd_assign (h : k ∉ keys d) : toEnd (assign d k v) k = d ++ [(k, v)] := by
  have hkeep : (d.filter fun e => decide (e.1 ≠ k)) = d :=
    filter_eq_self.mpr fun e he => by simpa using fun heq : e.1 = k => h (heq ▸ mem_map_of_mem he)
  have hnone : (d.filter fun e => decide (e.1 = k)) = [] :=
    filter_eq_nil_iff.mpr fun e he => by simpa using fun heq : e.1 = k => h (heq ▸ mem_map_of_mem he)
  simp only [assign, if_neg h, toEnd, remove, filter_append, hkeep, hnone]
  simp

end OwlCore.Dictionary
