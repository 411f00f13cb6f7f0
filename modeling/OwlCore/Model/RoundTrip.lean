import Mathlib.Algebra.Order.BigOperators.Group.List
import Mathlib.Tactic.Ring
import OwlCore.Model.Decode

/-!
# The codec round trip

Each reader applied to what its writer produced, with anything behind it, returns
the value and leaves the rest. The statements are assembled bottom-up: integers,
frames, components, rows.
-/
namespace OwlCore

open List Metered Node Varint

theorem or_shiftLeft (h : acc < 2 ^ shift) (x : Nat) :
    acc ||| x <<< shift = acc + x * 2 ^ shift := by
  rw [Nat.or_comm, ← Nat.shiftLeft_add_eq_or_of_lt h, Nat.shiftLeft_eq, Nat.add_comm]

theorem decodeVarintFrom_encode (v : Nat) : ∀ (shift acc : Nat) (consumed rest : Bytes),
    acc < 2 ^ shift → consumed ++ encode v = encode (acc + v * 2 ^ shift) →
    shift + 7 * ((encode v).length - 1) ≤ 1000000 →
    decodeVarintFrom shift acc consumed (encode v ++ rest) = .ok (acc + v * 2 ^ shift, rest) := by
  induction v using Nat.strongRecOn with
  | ind v ih =>
    intro shift acc consumed rest hacc hconsumed hlong
    by_cases hv : v < 128
    · rw [encode_of_lt hv] at hconsumed ⊢
      simp only [cons_append, nil_append, decodeVarintFrom, toNat_last hv, Nat.mod_eq_of_lt hv, or_shiftLeft hacc,
        if_pos hv, hconsumed, ne_eq, not_true_eq_false, if_false]
    · have hge : 128 ≤ v := Nat.le_of_not_lt hv
      have hacc' : acc + v % 128 * 2 ^ shift < 2 ^ (shift + 7) := by
        have hmod : v % 128 + 1 ≤ 128 := Nat.mod_lt v (by decide)
        have hmul : (v % 128 + 1) * 2 ^ shift ≤ 128 * 2 ^ shift := Nat.mul_le_mul_right _ hmod
        rw [Nat.pow_add, Nat.mul_comm (2 ^ shift)]
        rw [Nat.add_mul, Nat.one_mul] at hmul
        omega
      have hvalue : acc + v % 128 * 2 ^ shift + v / 128 * 2 ^ (shift + 7) = acc + v * 2 ^ shift := by
        have hdiv : v % 128 + 128 * (v / 128) = v := Nat.mod_add_div v 128
        calc acc + v % 128 * 2 ^ shift + v / 128 * 2 ^ (shift + 7)
            = acc + (v % 128 + 128 * (v / 128)) * 2 ^ shift := by rw [Nat.pow_add]; ring
          _ = acc + v * 2 ^ shift := by rw [hdiv]
      have hpos := length_encode_pos (v / 128)
      rw [encode_of_ge hge] at hconsumed hlong ⊢
      rw [length_cons] at hlong
      have hmod : (v % 128 + 128) % 128 = v % 128 := by omega
      have hnext := ih (v / 128) (by omega) (shift + 7) (acc + v % 128 * 2 ^ shift)
        (consumed ++ [UInt8.ofNat (v % 128 + 128)]) rest hacc'
        (by rw [hvalue, ← hconsumed, append_assoc, singleton_append]) (by omega)
      have hcontinue : ¬shift + 7 > 1000000 := by omega
      have hhigh : ¬v % 128 + 128 < 128 := by omega
      simp only [cons_append, decodeVarintFrom, toNat_more, hmod, or_shiftLeft hacc,
        if_neg hhigh, if_neg hcontinue, hnext, hvalue]

theorem decodeVarint_encode (h : bitLength v ≤ 1000000) (rest : Bytes) :
    decodeVarint (encode v ++ rest) = .ok (v, rest) := by
  have hlong : 0 + 7 * ((encode v).length - 1) ≤ 1000000 := by
    rw [length_encode, size]
    omega
  have hrun := decodeVarintFrom_encode v 0 0 [] rest (by simp) (by simp) hlong
  simpa [decodeVarint] using hrun

theorem bitLength_of_le_maxsize (h : v ≤ maxsize) : bitLength v ≤ 1000000 := by
  have hsmall : bitLength v ≤ 63 := bitLength_le.mpr (lt_of_le_of_lt h (by decide))
  omega

theorem takeFramed_frame (h : payload.length ≤ maxsize) (rest : Bytes) :
    takeFramed (frame payload ++ rest) = .ok (payload, rest) := by
  have hlen : ¬(payload ++ rest).length < payload.length := by simp
  rw [takeFramed, frame, append_assoc, decodeVarint_encode (bitLength_of_le_maxsize h)]
  simp only [bind, Except.bind, if_neg hlen, pure, Except.pure, take_left, drop_left]

theorem arity_le_length (v : Value Node) : v.arity ≤ (encodeComponent (v.map Node.bytes)).length := by
  have hcount : ∀ (l : List Nat) (f : Nat → Nat), (∀ x, 1 ≤ f x) → l.length ≤ (l.map f).sum := by
    intro l f hf
    induction l with
    | nil => simp
    | cons x l ih =>
      have hx := hf x
      simp only [length_cons, map_cons, sum_cons]
      omega
  have hframe : ∀ x, 1 ≤ framedSize x := fun x => by
    simp only [framedSize, size]
    omega
  rw [length_encodeComponent, Value.map_map]
  cases v with
  | set ms =>
    have h := hcount (ms.map fun m => m.bytes.length) framedSize hframe
    simp only [Value.arity, Value.map, componentSize]
    simp only [length_map] at h
    omega
  | sequence ms =>
    have h := hcount (ms.map fun m => m.bytes.length) (fun x => 1 + framedSize x) (by intro x; omega)
    simp only [Value.arity, Value.map, componentSize]
    simp only [length_map] at h
    omega
  | _ => exact Nat.zero_le _

theorem nodes_lt_length {v : Value Node} {m : Node} (hm : m ∈ v.nodes) :
    m.bytes.length < (encodeComponent (v.map Node.bytes)).length := by
  have hsum : ∀ (l : List Node) (f : Nat → Nat), m ∈ l → (∀ x, x ≤ f x) →
      m.bytes.length ≤ ((l.map fun k => k.bytes.length).map f).sum := by
    intro l f hl hf
    refine le_trans (hf _) (single_le_sum (fun _ _ => Nat.zero_le _) _ ?_)
    exact mem_map_of_mem (mem_map.mpr ⟨m, hl, rfl⟩)
  have hframe : ∀ x, x ≤ framedSize x := fun x => by
    simp only [framedSize]
    omega
  rw [length_encodeComponent, Value.map_map]
  cases v with
  | node k =>
    obtain rfl := mem_singleton.mp hm
    have h := hframe m.bytes.length
    simp only [Value.map, componentSize]
    omega
  | set ms =>
    have h := hsum ms framedSize hm hframe
    simp only [Value.map, componentSize]
    omega
  | sequence ms =>
    have h := hsum ms (fun x => 1 + framedSize x) hm fun x => le_trans (hframe x) (by omega)
    simp only [Value.map, componentSize]
    omega
  | _ => simp [Value.nodes] at hm

theorem component_le_length {n : Node} {v : Value Node} (hv : v ∈ n.fields) :
    (encodeComponent (v.map Node.bytes)).length ≤ n.bytes.length := by
  rw [bytes_eq, length_append, length_flatten, List.map_map]
  refine le_trans (single_le_sum (fun _ _ => Nat.zero_le _) _ ?_) (Nat.le_add_left _ _)
  exact mem_map.mpr ⟨v, hv, rfl⟩

theorem child_lt_length {m n : Node} (hm : m ∈ n.children) : m.bytes.length < n.bytes.length := by
  obtain ⟨v, hv, hmv⟩ := mem_children.mp hm
  exact lt_of_lt_of_le (nodes_lt_length hmv) (component_le_length hv)

section

theorem readMany_flatten {α β : Type} {read : Bytes → Metered Error (β × Bytes)} {enc : α → Bytes}
    {res : α → β} {cost : α → Nat} {budget : Nat} {l : List α}
    (h : ∀ a ∈ l, ∀ rest t, t + cost a ≤ budget →
      read (enc a ++ rest) t = .ok ((res a, rest), t + cost a)) (rest : Bytes) :
    ∀ t, t + (l.map cost).sum ≤ budget → readMany read l.length ((l.map enc).flatten ++ rest) t =
        .ok ((l.map res, rest), t + (l.map cost).sum) := by
  induction l with
  | nil => exact fun t _ => rfl
  | cons a l ih =>
    intro t ht
    simp only [map_cons, sum_cons] at ht
    simp only [map_cons, flatten_cons, append_assoc, length_cons, readMany, sum_cons]
    refine bind_eq_ok.mpr ⟨(res a, (l.map enc).flatten ++ rest), t + cost a, h a (by simp) _ t (by omega), ?_⟩
    refine bind_eq_ok.mpr ⟨(l.map res, rest), t + cost a + (l.map cost).sum,
      ih (fun b hb => h b (by simp [hb])) (t + cost a) (by omega), ?_⟩
    exact pure_eq_ok.mpr ⟨rfl, by omega⟩

/-- The field as the decoder hands it to the constructor: an enumeration member as its text. -/
def decodedArg : Value Node → Arg
  | .enum kind => .text kind.value
  | v => Arg.ofValue v

variable {limits : ParseLimits} {decode : Bytes → Metered Error (Node × Bytes)}

/-- The decoder of nested values returns `m` from its bytes within the budget. -/
def Reads (limits : ParseLimits) (decode : Bytes → Metered Error (Node × Bytes)) (m : Node) : Prop :=
  m.bytes.length ≤ maxsize ∧ ∀ t, t + m.terms ≤ limits.maxTerms → decode m.bytes t = .ok ((m, []), t + m.terms)

theorem readNested_frame (h : Reads limits decode m) (trailing : String) (rest : Bytes) (t : Nat) (ht : t + m.terms ≤
    limits.maxTerms) :
    readNested decode trailing (frame m.bytes ++ rest) t = .ok ((m, rest), t + m.terms) := by
  refine Metered.bind_eq_ok.mpr ⟨(m.bytes, rest), t, free_eq_ok.mpr ⟨takeFramed_frame h.1 rest, rfl⟩, ?_⟩
  refine Metered.bind_eq_ok.mpr ⟨(m, []), t + m.terms, h.2 t ht, ?_⟩
  simp [pure_eq_ok]

theorem readItem_frame (h : Reads limits decode m) (rest : Bytes) (t : Nat) (ht : t + m.terms ≤ limits.maxTerms) :
    readItem decode (1 :: frame m.bytes ++ rest) t = .ok ((.node m, rest), t + m.terms) := by
  simp only [cons_append, readItem, if_true]
  refine bind_eq_ok.mpr ⟨(m, rest), t + m.terms, readNested_frame h _ rest t ht, ?_⟩
  exact pure_eq_ok.mpr ⟨rfl, rfl⟩

theorem asciiDecode_value (kind : EntityKind) : asciiDecode (utf8Encode kind.value) = some kind.value := by
  have hascii : (utf8Encode kind.value).all fun octet => octet.toNat < 128 := by
    cases kind <;> decide
  rw [asciiDecode, if_pos hascii, utf8Decode_encode]

theorem payload_le {b : Bytes} (h : (mark :: frame b).length ≤ maxsize) : b.length ≤ maxsize := by
  simp only [length_cons, length_frame, framedSize] at h
  omega

/-- Scalars are read back as they were written, enumeration members as their text. -/
theorem decodeScalarComponent_encode (hnode : marker v ≠ 1) (hset : marker v ≠ 6)
    (hseq : marker v ≠ 7) (hint : ∀ i, v = .integer i → bitLength i ≤ 1000000)
    (hlen : (encodeComponent (v.map Node.bytes)).length ≤ maxsize) (rest : Bytes) :
    decodeScalarComponent (marker v) (encodePayload (v.map Node.bytes) ++ rest) = .ok (decodedArg v, rest) := by
  rw [encodeComponent, marker_map] at hlen
  cases v with
  | node m => exact absurd rfl hnode
  | set ms => exact absurd rfl hset
  | sequence ms => exact absurd rfl hseq
  | none => rfl
  | text value =>
    simp [decodeScalarComponent, marker, Value.map, encodePayload, decodedArg, Arg.ofValue,
      takeFramed_frame (payload_le hlen), utf8Decode_encode, decodeText, bind, Except.bind, pure, Except.pure]
  | bytes value =>
    simp [decodeScalarComponent, marker, Value.map, encodePayload, decodedArg, Arg.ofValue,
      takeFramed_frame (payload_le hlen), bind, Except.bind, pure, Except.pure]
  | integer value =>
    simp [decodeScalarComponent, marker, Value.map, encodePayload, decodedArg, Arg.ofValue,
      decodeVarint_encode (hint value rfl), bind, Except.bind, pure, Except.pure]
  | enum value =>
    simp [decodeScalarComponent, marker, Value.map, encodePayload, decodedArg, takeFramed_frame (payload_le hlen),
      asciiDecode_value, decodeText, bind, Except.bind, pure, Except.pure]

theorem collection_run {size t : Nat} (h : size ≤ limits.maxSequenceArity) :
    collection limits size t = .ok ((), t) := by
  rw [collection, if_pos h]
  rfl

theorem readMany_nested {ms : List Node} (h : ∀ m ∈ ms, Reads limits decode m) (trailing : String)
    (rest : Bytes) {t : Nat} (ht : t + (ms.map Node.terms).sum ≤ limits.maxTerms) :
    readMany (readNested decode trailing) ms.length (((ms.map Node.bytes).map frame).flatten ++ rest) t =
      .ok ((ms, rest), t + (ms.map Node.terms).sum) := by
  rw [List.map_map]
  have hrun := readMany_flatten (fun m hm rest t ht => readNested_frame (h m hm) trailing rest t ht)
    rest t ht
  simpa [Function.comp_def] using hrun

theorem readMany_items {ms : List Node} (h : ∀ m ∈ ms, Reads limits decode m) (rest : Bytes) {t : Nat}
    (ht : t + (ms.map Node.terms).sum ≤ limits.maxTerms) :
    readMany (readItem decode) ms.length
        (((ms.map Node.bytes).map fun item => 1 :: frame item).flatten ++ rest) t =
      .ok ((ms.map .node, rest), t + (ms.map Node.terms).sum) := by
  rw [List.map_map]
  exact readMany_flatten (fun m hm rest t ht => readItem_frame (h m hm) rest t ht) rest t ht

theorem readComponent_scalar (hnode : marker v ≠ 1) (hset : marker v ≠ 6)
    (hseq : marker v ≠ 7) (hint : ∀ i, v = .integer i → bitLength i ≤ 1000000)
    (hlen : (encodeComponent (v.map Node.bytes)).length ≤ maxsize) (rest : Bytes) (t : Nat) :
    readComponent limits decode (encodeComponent (v.map Node.bytes) ++ rest) t = .ok ((decodedArg v, rest), t) := by
  simp only [encodeComponent, marker_map, cons_append, readComponent]
  rw [if_neg hnode, if_neg hset, if_neg hseq]
  exact free_eq_ok.mpr ⟨decodeScalarComponent_encode hnode hset hseq hint hlen rest, rfl⟩

/-- One component of a sound row is read back, at the price of its nested values. -/
theorem readComponent_encode (hreads : ∀ m ∈ v.nodes, Reads limits decode m)
    (harity : v.arity ≤ limits.maxSequenceArity)
    (hsorted : ∀ ms, v = .set ms → KeyedSet.Ascending Node.bytes ms)
    (hencodable : ∀ ms, v = .set ms → ∀ m ∈ ms, m.Encodable defaultLimits)
    (hint : ∀ i, v = .integer i → bitLength i ≤ 1000000)
    (hlen : (encodeComponent (v.map Node.bytes)).length ≤ maxsize) (rest : Bytes) (t : Nat)
    (ht : t + (v.nodes.map Node.terms).sum ≤ limits.maxTerms) :
    readComponent limits decode (encodeComponent (v.map Node.bytes) ++ rest) t =
      .ok ((decodedArg v, rest), t + (v.nodes.map Node.terms).sum) := by
  have hcount : bitLength v.arity ≤ 1000000 :=
    bitLength_of_le_maxsize (le_trans (arity_le_length v) hlen)
  cases v with
  | node m =>
    have hm := hreads m (by simp)
    simp only [encodeComponent, marker, Value.map, encodePayload, cons_append, readComponent, if_true]
    simp only [Value.nodes_node, map_cons, map_nil, sum_singleton] at ht ⊢
    refine bind_eq_ok.mpr ⟨(m, rest), t + m.terms, readNested_frame hm _ rest t ht, ?_⟩
    exact pure_eq_ok.mpr ⟨rfl, rfl⟩
  | set ms =>
    have hset : canonicalSetOf ms = .ok ms :=
      canonicalSetOf_ok_iff.mpr ⟨hencodable ms rfl, (KeyedSet.ofList_eq_self (hsorted ms rfl)).symm⟩
    simp only [Value.nodes_set] at ht hreads ⊢
    simp only [encodeComponent, marker, Value.map, encodePayload, cons_append, readComponent,
      insertionSort_bytes (hsorted ms rfl), append_assoc, length_map]
    rw [if_neg (by decide), if_pos trivial]
    refine bind_eq_ok.mpr ⟨(ms.length, _), t, free_eq_ok.mpr ⟨decodeVarint_encode hcount _, rfl⟩, ?_⟩
    refine bind_eq_ok.mpr ⟨(), t, collection_run harity, ?_⟩
    refine bind_eq_ok.mpr ⟨(ms, rest), _, readMany_nested hreads _ rest ht, ?_⟩
    refine bind_eq_ok.mpr ⟨ms, _, free_eq_ok.mpr ⟨hset, rfl⟩, ?_⟩
    exact pure_eq_ok.mpr ⟨rfl, rfl⟩
  | sequence ms =>
    simp only [Value.nodes_sequence] at ht hreads ⊢
    simp only [encodeComponent, marker, Value.map, encodePayload, cons_append, readComponent, append_assoc, length_map]
    rw [if_neg (by decide), if_neg (by decide), if_pos trivial]
    refine bind_eq_ok.mpr ⟨(ms.length, _), t, free_eq_ok.mpr ⟨decodeVarint_encode hcount _, rfl⟩, ?_⟩
    refine bind_eq_ok.mpr ⟨(), t, collection_run harity, ?_⟩
    refine bind_eq_ok.mpr ⟨(ms.map .node, rest), _, readMany_items hreads rest ht, ?_⟩
    exact pure_eq_ok.mpr ⟨rfl, rfl⟩
  | none | text _ | bytes _ | integer _ | enum _ =>
    exact readComponent_scalar (by simp [marker]) (by simp [marker]) (by simp [marker]) hint hlen rest t

end

section

/-- Every integer field is below `2 ^ 1000000`. -/
def Node.IntegersBelow (n : Node) : Prop := ∀ i, .integer i ∈ n.fields → i < 2 ^ 1000000

variable {n : Node}

theorem Node.integersBelow_of_not_mem (h : ∀ i, .integer i ∉ n.fields) : n.IntegersBelow :=
  fun i hi => absurd hi (h i)

/-- The lexical form of a literal is a plain string, not a member of `EntityKind`. -/
def Node.PlainText (n : Node) : Prop :=
  n.constructor = .literal → ∀ kind, n.fields.head? ≠ some (.enum kind)

theorem map_decodedArg (hsound : Sound n) (hentity : n.constructor ≠ .entity)
    (hplain : n.PlainText) : n.fields.map decodedArg = n.fields.map Arg.ofValue := by
  refine map_congr_left fun v hv => ?_
  cases v with
  | enum kind =>
    rcases hsound.enums kind hv with hc | ⟨hc, hhead⟩
    · exact absurd hc hentity
    · exact absurd hhead (hplain hc kind)
  | _ => rfl

theorem entity_fields (hn : Constructible n) (hc : n.constructor = .entity) :
    ∃ kind iri, n.fields = [.enum kind, .node iri] := by
  have harity : n.fields.length = 2 := by
    rw [hn.sound.shape.arity, hc]
    rfl
  obtain ⟨v, w, hfields⟩ := length_eq_two.mp harity
  have hstable := hn.sound.stable fun hliteral => by rw [hc] at hliteral; cases hliteral
  rw [hc, hfields] at hstable
  simp only [map_cons, map_nil, construct, constructEntity] at hstable
  split at hstable
  · obtain ⟨iri, _, hresult⟩ := Fallible.bind_eq_ok.mp hstable
    obtain rfl := Except.ok.inj hresult
    exact ⟨_, iri, rfl⟩
  · cases hstable

theorem constructorCall_eq (h : c ≠ .entity) (args : List Arg) :
    constructorCall c args = construct c args := by
  unfold constructorCall
  split
  · exact absurd rfl h
  · rfl

/-- Called on decoded fields, `_construct` returns the value the fields came from. -/
theorem constructDecoded_fields (hn : Constructible n) (hascii : n.AsciiLanguage)
    (hplain : n.PlainText) : constructDecoded n.constructor (n.fields.map decodedArg) = .ok n := by
  have hstable := hn.sound.stable hascii
  suffices hcall : constructorCall n.constructor (n.fields.map decodedArg) = .ok n by
    rw [constructDecoded, hcall]
  by_cases hentity : n.constructor = .entity
  · obtain ⟨kind, iri, hfields⟩ := entity_fields hn hentity
    rw [hentity, hfields] at hstable ⊢
    simp only [map_cons, map_nil, decodedArg, constructorCall, Arg.str?, Option.bind_some, EntityKind.ofValue_value]
    exact hstable
  · rw [map_decodedArg hn.sound hentity hplain, constructorCall_eq hentity, hstable]

structure Node.Decodable (n : Node) : Prop where
  ascii : n.Everywhere Node.AsciiLanguage
  integers : n.Everywhere Node.IntegersBelow
  plain : n.Everywhere Node.PlainText

theorem Node.Decodable.child (h : n.Decodable) (hm : m ∈ n.children) : m.Decodable :=
  ⟨h.ascii.child hm, h.integers.child hm, h.plain.child hm⟩

theorem enter_run (hdepth : depth ≤ limits.maxNestingDepth) (ht : t + 1 ≤ limits.maxTerms) :
    enter limits depth t = .ok ((), t + 1) :=
  (enter_spends depth t (by omega)).1 ⟨hdepth, ht⟩

theorem decodeNode_bytes (hn : Constructible n) (hd : n.Decodable) :
    ∀ (fuel depth : Nat) (rest : Bytes) (t : Nat), n.bytes.length < fuel → n.bytes.length ≤ maxsize →
      n.Fits limits depth → t + n.terms ≤ limits.maxTerms →
      decodeNode limits fuel depth (n.bytes ++ rest) t = .ok ((n, rest), t + n.terms) := by
  induction n using Node.induct with
  | step n ih =>
    intro fuel depth rest t hfuel hmax hfits ht
    obtain ⟨fuel, rfl⟩ : ∃ k, fuel = k + 1 := ⟨fuel - 1, by omega⟩
    obtain ⟨hdepth, hfields⟩ := fits_iff.mp hfits
    rw [terms_eq] at ht ⊢
    have hreads : ∀ v ∈ n.fields, ∀ m ∈ v.nodes, Reads limits (decodeNode limits fuel (depth + 1)) m := by
      intro v hv m hm
      have hchild := mem_children.mpr ⟨v, hv, hm⟩
      have hlt := child_lt_length hchild
      refine ⟨by omega, fun s hs => ?_⟩
      have hrun := ih m hchild (hn.child hchild) (hd.child hchild) fuel (depth + 1) [] s (by omega)
        (by omega) ((hfields v hv).2 m hm) hs
      simpa using hrun
    have hrow := readMany_flatten (fun v hv rest s hs => readComponent_encode (hreads v hv)
      (hfields v hv).1 (fun ms hms => hn.sound.shape.ascending ms (hms ▸ hv))
      (fun ms hms => hn.sound.encodable ms (hms ▸ hv))
      (fun i hi => bitLength_le.mpr (hd.integers.here i (hi ▸ hv)))
      (le_trans (component_le_length hv) hmax) rest s hs) rest (t + 1)
      (show t + 1 + (n.fields.map fun v => (v.nodes.map Node.terms).sum).sum ≤ limits.maxTerms by omega)
    rw [hn.sound.shape.arity] at hrow
    have htag : bitLength n.constructor.tag ≤ 1000000 := by
      refine le_trans (bitLength_le.mpr ?_) (show 8 ≤ 1000000 by omega)
      cases n.constructor <;> decide
    rw [bytes_eq, append_assoc, decodeNode]
    refine bind_eq_ok.mpr ⟨(), t + 1, enter_run hdepth (by omega), ?_⟩
    refine bind_eq_ok.mpr ⟨(n.constructor.tag, _), t + 1, free_eq_ok.mpr ⟨decodeVarint_encode htag _, rfl⟩, ?_⟩
    simp only [Constructor.ofTag_tag]
    refine bind_eq_ok.mpr ⟨(n.fields.map decodedArg, rest), _, hrow, ?_⟩
    refine bind_eq_ok.mpr ⟨n, _, free_eq_ok.mpr
      ⟨constructDecoded_fields hn hd.ascii.here hd.plain.here, rfl⟩, ?_⟩
    exact pure_eq_ok.mpr ⟨rfl, by omega⟩

/-- `decode_canonical` after `canonical_bytes`, under the same limits. -/
theorem decodeCanonical_canonicalBytes (hn : Constructible n) (hd : n.Decodable) (h : canonicalBytes limits n = .ok
    encoded) :
    decodeCanonical limits encoded = .ok n := by
  obtain ⟨henc, rfl⟩ := canonicalBytes_ok_iff.mp h
  have hrun := decodeNode_bytes hn hd (n.bytes.length + 1) 0 [] 0 (by omega) henc.memory henc.fits
    (by simpa using henc.terms)
  rw [append_nil] at hrun
  have hwork : ¬n.bytes.length > limits.maxCanonicalWork := not_lt.mpr henc.work
  simp [decodeCanonical, enforceCanonicalRowSize, hwork, hrun, h, bind, Except.bind, pure, Except.pure]

end

end OwlCore
