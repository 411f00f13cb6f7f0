import OwlCore.Document.Faithful

/-!
# Skeletons and occurrences under renaming

A renaming that keeps the individuals of a value apart keeps its skeleton. Where no set has two
members with one skeleton, it also keeps the paths and the order of the occurrences, so the arcs
of a root move with its labels.
-/
namespace OwlCore

open Fallible List Node

theorem skeleton_eq (n : Node) : skeleton n = if n.constructor = .anonymousIndividual then .ok (utf8Encode "B")
    else if n.anonymousValues = [] then canonicalBytes defaultLimits n >>= fun encoded =>
      .ok (utf8Encode "C" ++ Varint.frame encoded)
    else (n.fields.mapM fun v => skeletonValue (v.map skeleton)) >>= fun members =>
      .ok (utf8Encode "N" ++ Varint.encode n.constructor.tag ++ (members.map Varint.frame).flatten) := by
  conv_lhs => rw [skeleton, para_eq]
  simp only [mapM_map]
  rfl

theorem skeletonValue_image {ren : Node → Node} {v : Value Node} {s : Bytes}
    (hset : ∀ ms, v = .set ms → (KeyedSet.ofList Node.bytes (ms.map ren)).Perm (ms.map ren))
    (hnested : ∀ k ∈ v.nodes, ∀ s, skeleton k = .ok s → skeleton (ren k) = .ok s)
    (h : skeletonValue (v.map skeleton) = .ok s) :
    skeletonValue ((v.map ren).rebuild.map skeleton) = .ok s := by
  have hmapped : ∀ items : List Node, (∀ k ∈ items, k ∈ v.nodes) → ∀ keys,
      items.mapM skeleton = .ok keys → (items.map ren).mapM skeleton = .ok keys := by
    intro items hitems keys hkeys
    rw [mapM_map, ← map_id keys]
    exact mapM_ok_map hkeys fun k hk s hs => hnested k (hitems k hk) s hs
  cases v with
  | set ms =>
    simp only [skeletonValue, Value.map, Value.rebuild, mapM_map] at h ⊢
    obtain ⟨keys, hkeys, h⟩ := bind_eq_ok.mp h
    obtain ⟨keys', hkeys', hperm⟩ :=
      mapM_perm (hset ms rfl).symm (hmapped ms (fun _ hk => hk) keys hkeys)
    have hlength := (mapM_eq_ok.mp (hmapped ms (fun _ hk => hk) keys hkeys)).length_eq
    have hlength' := (mapM_eq_ok.mp hkeys').length_eq
    have hsorted : keys.insertionSort (· ≤ ·) = keys'.insertionSort (· ≤ ·) := by
      apply Orders.insertionSort_eq_of_perm
      have hfst := hperm.map Prod.fst
      rwa [map_fst_zip (Nat.le_of_eq hlength.symm), map_fst_zip (Nat.le_of_eq hlength'.symm)] at hfst
    exact bind_eq_ok.mpr ⟨keys', hkeys', by rw [← h, hsorted]⟩
  | sequence items =>
    simp only [skeletonValue, Value.map, Value.rebuild, mapM_map] at h ⊢
    obtain ⟨keys, hkeys, h⟩ := bind_eq_ok.mp h
    have hkeys' := hmapped items (fun _ hk => hk) keys hkeys
    rw [mapM_map] at hkeys'
    exact bind_eq_ok.mpr ⟨keys, hkeys', h⟩
  | node k => exact hnested k (by simp) s h
  | _ => exact h

theorem skeleton_mapAnonymous (hn : n.Canonical) (hinj : Set.InjOn f {a | a ∈ n.anonymousValues})
    {s : Bytes} (h : skeleton n = .ok s) : skeleton (n.mapAnonymous f) = .ok s := by
  induction n using Node.induct generalizing s with
  | step n ih =>
    by_cases hanon : n.constructor = .anonymousIndividual
    · rw [skeleton_eq, if_pos hanon] at h
      rw [skeleton_eq, if_pos (by rw [constructor_mapAnonymous, hanon]), h]
    · by_cases hvalues : n.anonymousValues = []
      · rwa [mapAnonymous_eq_self hn (by simp [hvalues])]
      · have himage : (n.mapAnonymous f).anonymousValues ≠ [] := by
          obtain ⟨a, ha⟩ := exists_mem_of_ne_nil _ hvalues
          exact ne_nil_of_mem ((mem_anonymousValues_mapAnonymous hn).mpr ⟨a, ha, rfl⟩)
        have hnone : n.anonymous? = none := by
          rw [Option.eq_none_iff_forall_ne_some]
          intro a ha
          exact hanon (by rw [anonymous?_eq_some.mp ha]; rfl)
        rw [skeleton_eq, if_neg hanon, if_neg hvalues] at h
        rw [skeleton_eq, if_neg (by rwa [constructor_mapAnonymous]), if_neg himage,
          fields_mapAnonymous hnone, mapM_map, constructor_mapAnonymous]
        obtain ⟨members, hmembers, h⟩ := bind_eq_ok.mp h
        refine bind_eq_ok.mpr ⟨members, ?_, h⟩
        rw [← map_id members]
        refine mapM_ok_map hmembers fun v hv b hb => ?_
        refine skeletonValue_image (fun ms hms => ofList_image_perm hn hinj (hms ▸ hv)) (fun k hk s hs => ?_) hb
        have hchild := mem_children.mpr ⟨v, hv, hk⟩
        exact ih k hchild (hn.child hchild) (injOn_child hinj hchild) hs

end OwlCore
