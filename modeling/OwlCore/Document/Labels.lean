import OwlCore.Document.Blank

/-!
# Labels of a value

The labels that `blankOccurrences` finds in a value are those of its provisional
individuals, whatever the path it starts from.
-/
namespace OwlCore

open Fallible List Node Varint

section

variable (hash : Hash)

theorem decodeLabelLength_encode (value : Nat) (rest : Bytes) :
    decodeLabelLength (Varint.encode value ++ rest) = .ok (value, (Varint.encode value).length) := by
  induction value using Nat.strong_induction_on with
  | _ value ih =>
    by_cases hlt : value < 128
    · rw [encode_of_lt hlt]
      simp [decodeLabelLength, toNat_last hlt, hlt]
    · have hge : 128 ≤ value := Nat.le_of_not_lt hlt
      have hsmall : value / 128 < value := by omega
      rw [encode_of_ge hge, cons_append, decodeLabelLength, toNat_more, if_neg (by omega), ih _ hsmall]
      simp only [bind, Except.bind, length_cons, Except.ok.injEq, Prod.mk.injEq, and_true]
      omega

@[simp] theorem provisionalLabel_provisionalAnonymous (label : String) :
    provisionalLabel hash (provisionalAnonymous hash label) = .ok (some label) := by
  have hprefix : lexicalKey <+: lexicalKey ++ Varint.frame (utf8Encode label) := prefix_append _ _
  rw [provisionalLabel, provisionalAnonymous, if_neg (by simp)]
  simp [Varint.frame, decodeLabelLength_encode, bind, Except.bind, utf8Decode_encode]

theorem provisionalAnonymous_injective : Function.Injective (provisionalAnonymous hash) := by
  intro label label' h
  have hlabel := provisionalLabel_provisionalAnonymous hash label
  rw [h, provisionalLabel_provisionalAnonymous] at hlabel
  exact (Option.some.inj (Except.ok.inj hlabel)).symm

theorem length_lexicalKey : lexicalKey.length = 33 := by decide +kernel

theorem provisionalLabel_componentIndividual (scope : Scope) (graph : Bytes) (ordinal index : Nat) :
    provisionalLabel hash (componentIndividual hash scope graph ordinal index) = .ok none := by
  have hshort : ¬lexicalKey <+: (componentIndividual hash scope graph ordinal index).localKey := by
    intro h
    have hle := h.length_le
    rw [length_lexicalKey, componentIndividual, hash.length_digest] at hle
    omega
  rw [provisionalLabel, if_pos (.inr hshort)]

end

section

variable {hash : Hash}

structure FindsLabels (hash : Hash) (values : List AnonymousIndividual) (found : List Occurrence) :
    Prop where
  readable : ∀ a ∈ values, ∃ label?, provisionalLabel hash a = .ok label?
  mem_iff : ∀ label, label ∈ found.map Prod.fst ↔ ∃ a ∈ values, provisionalLabel hash a = .ok (some label)

theorem FindsLabels.congr (h : FindsLabels hash values found) (hmem : ∀ a, a ∈ values' ↔ a ∈ values) :
    FindsLabels hash values' found := by
  constructor
  · intro a ha
    exact h.readable a ((hmem a).mp ha)
  · intro label
    simp only [hmem, h.mem_iff label]

/-- A loop that finds the labels of each item finds the labels of all of them. -/
theorem FindsLabels.flatten {α : Type} {call : α → Except Error (List Occurrence)}
    (f : α → List AnonymousIndividual) {items : List α} {found : List (List Occurrence)}
    (h : items.mapM call = .ok found)
    (hcall : ∀ item ∈ items, ∀ found, call item = .ok found → FindsLabels hash (f item) found) :
    FindsLabels hash (items.flatMap f) found.flatten := by
  constructor
  · intro a ha
    obtain ⟨item, hitem, ha⟩ := mem_flatMap.mp ha
    obtain ⟨part, -, hpart⟩ := exists_of_mem_left h hitem
    exact (hcall item hitem part hpart).readable a ha
  · intro label
    rw [map_flatten, mem_flatten]
    constructor
    · rintro ⟨labels, hlabels, hlabel⟩
      obtain ⟨part, hpart, rfl⟩ := mem_map.mp hlabels
      obtain ⟨item, hitem, hok⟩ := exists_of_mem_mapM h hpart
      obtain ⟨a, ha, hread⟩ := ((hcall item hitem part hok).mem_iff label).mp hlabel
      exact ⟨a, mem_flatMap.mpr ⟨item, hitem, ha⟩, hread⟩
    · rintro ⟨a, ha, hread⟩
      obtain ⟨item, hitem, ha⟩ := mem_flatMap.mp ha
      obtain ⟨part, hpart, hok⟩ := exists_of_mem_left h hitem
      exact ⟨_, mem_map_of_mem hpart, ((hcall item hitem part hok).mem_iff label).mpr ⟨a, ha, hread⟩⟩

theorem bySkeleton_map (f : α → β) (keys : List Bytes) (members : List α) :
    bySkeleton keys (members.map f) = (bySkeleton keys members).map (Prod.map id f) := by
  rw [bySkeleton, bySkeleton, zip_map_right]
  symm
  apply map_insertionSort
  intro a _ b _
  rfl

theorem map_snd_bySkeleton {α : Type} {keys : List Bytes} {members : List α}
    (h : keys.length = members.length) : ((bySkeleton keys members).map Prod.snd).Perm members := by
  have hperm := (perm_insertionSort (fun a b : Bytes × α => a.1 ≤ b.1) (keys.zip members)).map Prod.snd
  rwa [map_snd_zip (Nat.le_of_eq h.symm)] at hperm

theorem occurrencesValue_ok {v : Value Node} {path : List String}
    (h : occurrencesValue hash v (v.map (blankOccurrences hash)) path = .ok found)
    (hnested : ∀ m ∈ v.nodes, ∀ path found, blankOccurrences hash m path = .ok found →
      FindsLabels hash m.anonymousValues found) :
    FindsLabels hash (v.nodes.flatMap Node.anonymousValues) found := by
  cases v with
  | set members =>
    simp only [occurrencesValue, Value.map, bySkeleton_map, mapM_map] at h
    obtain ⟨keys, hkeys, h⟩ := bind_eq_ok.mp h
    obtain ⟨parts, hparts, h⟩ := bind_eq_ok.mp h
    obtain rfl := Except.ok.inj h
    have hlength := (mapM_eq_ok.mp hkeys).length_eq.symm
    have hperm := map_snd_bySkeleton hlength
    have hall := FindsLabels.flatten (fun item => Node.anonymousValues item.2) hparts
      fun item hitem part hpart => hnested item.2 (hperm.mem_iff.mp (mem_map_of_mem hitem)) _ _ hpart
    refine hall.congr fun a => ?_
    simp only [Value.nodes_set, mem_flatMap, ← hperm.mem_iff, mem_map]
    constructor
    · rintro ⟨_, ⟨item, hitem, rfl⟩, ha⟩
      exact ⟨item, hitem, ha⟩
    · rintro ⟨item, hitem, ha⟩
      exact ⟨item.2, ⟨item, hitem, rfl⟩, ha⟩
  | sequence items =>
    simp only [occurrencesValue, Value.map, zipIdx_map, mapM_map] at h
    obtain ⟨parts, hparts, h⟩ := bind_eq_ok.mp h
    obtain rfl := Except.ok.inj h
    have hall := FindsLabels.flatten (fun item => Node.anonymousValues item.1) hparts
      fun item hitem part hpart => hnested item.1 (fst_mem_of_mem_zipIdx hitem) _ _ hpart
    refine hall.congr fun a => ?_
    simp only [Value.nodes_sequence, mem_flatMap, Prod.exists, mem_zipIdx_iff_getElem?]
    constructor
    · rintro ⟨item, hitem, ha⟩
      obtain ⟨index, hindex⟩ := mem_iff_getElem?.mp hitem
      exact ⟨item, index, hindex, ha⟩
    · rintro ⟨item, index, hindex, ha⟩
      exact ⟨item, mem_of_getElem? hindex, ha⟩
  | node m =>
    have hm := hnested m (by simp) path found h
    simpa using hm
  | _ =>
    obtain rfl := Except.ok.inj h
    exact ⟨by simp [Value.nodes], by simp [Value.nodes]⟩

theorem blankOccurrences_of_none (hn : n.anonymous? = none) (path : List String) :
    blankOccurrences hash n path = (((n.constructor.fieldSpecs.map FieldSpec.name).zip n.fields).mapM fun item =>
        occurrencesValue hash item.2 (item.2.map (blankOccurrences hash)) (path ++ [item.1])) >>=
          fun parts => .ok parts.flatten := by
  have hzip : n.fields.zip (n.fields.map (Value.map (blankOccurrences hash))) =
      n.fields.map fun v => (v, v.map (blankOccurrences hash)) := by
    induction n.fields with
    | nil => rfl
    | cons v vs ih => simpa using ih
  conv_lhs => rw [blankOccurrences, para_eq, hn]
  change List.mapM _ (List.zip _ (n.fields.zip (n.fields.map (Value.map (blankOccurrences hash))))) >>= _ = _
  rw [hzip, zip_map_right, mapM_map]
  rfl

theorem mem_anonymousValues_of_none {n : Node} (h : n.anonymous? = none) {a : AnonymousIndividual} :
    a ∈ n.anonymousValues ↔ ∃ v ∈ n.fields, a ∈ v.nodes.flatMap Node.anonymousValues := by
  have hne : n ≠ a.node := by
    rintro rfl
    simp at h
  rw [mem_anonymousValues]
  simp only [hne, false_or, mem_children, mem_flatMap]
  constructor
  · rintro ⟨m, ⟨v, hv, hm⟩, ha⟩
    exact ⟨v, hv, m, hm, ha⟩
  · rintro ⟨v, hv, m, hm, ha⟩
    exact ⟨m, ⟨v, hv, hm⟩, ha⟩

theorem blankOccurrences_ok {n : Node} (hn : n.Canonical) {path : List String}
    (h : blankOccurrences hash n path = .ok found) : FindsLabels hash n.anonymousValues found := by
  induction n using Node.induct generalizing path found with
  | step n ih =>
    cases hanon : n.anonymous? with
    | some a =>
      obtain rfl := anonymous?_eq_some.mp hanon
      have hvalues : a.node.anonymousValues = [a] := by simp [Node.anonymousValues, para_eq]
      rw [blankOccurrences, para_eq, hanon] at h
      obtain ⟨label?, hlabel, h⟩ := bind_eq_ok.mp h
      rw [hvalues]
      constructor
      · simp [hlabel]
      · intro label
        cases label? with
        | none => simp [← Except.ok.inj h, hlabel]
        | some l => simp [← Except.ok.inj h, hlabel, eq_comm]
    | none =>
      rw [blankOccurrences_of_none hanon] at h
      obtain ⟨parts, hparts, h⟩ := bind_eq_ok.mp h
      obtain rfl := Except.ok.inj h
      have hlength : (n.constructor.fieldSpecs.map FieldSpec.name).length = n.fields.length := by
        rw [length_map]
        exact hn.here.arity.symm
      have hsnd := map_snd_zip (Nat.le_of_eq hlength.symm)
      have hall := FindsLabels.flatten (fun item => item.2.nodes.flatMap Node.anonymousValues) hparts
        fun item hitem part hpart => by
          have hfield : item.2 ∈ n.fields := by
            rw [← hsnd]
            exact mem_map_of_mem hitem
          refine occurrencesValue_ok hpart fun m hm path found hfound => ?_
          have hchild := mem_children.mpr ⟨item.2, hfield, hm⟩
          exact ih m hchild (hn.child hchild) hfound
      refine hall.congr fun a => ?_
      rw [mem_anonymousValues_of_none hanon, mem_flatMap]
      conv_lhs => rw [← hsnd]
      simp only [mem_map]
      constructor
      · rintro ⟨_, ⟨item, hitem, rfl⟩, ha⟩
        exact ⟨item, hitem, ha⟩
      · rintro ⟨item, hitem, ha⟩
        exact ⟨item.2, ⟨item, hitem, rfl⟩, ha⟩

end

end OwlCore
