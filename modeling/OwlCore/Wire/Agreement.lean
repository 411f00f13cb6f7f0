import OwlCore.Model.Codec
import OwlCore.Wire.Inspect

/-!
# The scan agrees with the decoder

Whatever the decoder accepts the scan accepts, with the constructor of the decoded value. The
decoder encodes its value again, so an accepted row is the row of the value, and the scan is run
on that row. Only the decoder bounds integers, so the bound is carried out of it first.
-/
namespace OwlCore

open Fallible List Metered Varint

/-- The integers among the fields can have been read by the decoder. -/
def Node.ShortIntegers (n : Node) : Prop := ∀ i, .integer i ∈ n.fields → ShortInteger i

theorem checkField_integer (h : checkField spec a = .ok (.integer i)) :
    ∃ j : Int, a = .integer j ∧ i = j.toNat := by
  unfold checkField at h
  split at h
  · cases h
  · obtain ⟨_, _, h⟩ := map_eq_ok.mp h
    cases h
  · obtain ⟨_, _, h⟩ := bind_eq_ok.mp h
    obtain ⟨_, _, h⟩ := map_eq_ok.mp h
    cases h
  · obtain ⟨_, _, h⟩ := bind_eq_ok.mp h
    obtain ⟨_, _, h⟩ := map_eq_ok.mp h
    cases h
  · obtain ⟨j, hj, h⟩ := map_eq_ok.mp h
    obtain rfl := Value.integer.inj h
    unfold requireNonnegativeInteger at hj
    split at hj
    · rename_i j
      split at hj
      · cases hj
      · exact ⟨j, rfl, (Except.ok.inj hj).symm⟩
    · cases hj
  · obtain ⟨_, _, h⟩ := map_eq_ok.mp h
    cases h

theorem checkFields_integer (h : checkFields specs args = .ok fields) (hi : .integer i ∈ fields) :
    ∃ j : Int, .integer j ∈ args ∧ i = j.toNat := by
  induction specs generalizing args fields with
  | nil =>
    cases args with
    | nil =>
      obtain rfl := Except.ok.inj h
      cases hi
    | cons a args => cases h
  | cons spec specs ih =>
    cases args with
    | nil => cases h
    | cons a args =>
      obtain ⟨v, hv, h⟩ := bind_eq_ok.mp h
      obtain ⟨vs, hvs, h⟩ := bind_eq_ok.mp h
      obtain rfl := Except.ok.inj h
      rcases mem_cons.mp hi with rfl | hi
      · obtain ⟨j, rfl, hj⟩ := checkField_integer hv
        exact ⟨j, mem_cons_self, hj⟩
      · obtain ⟨j, hmem, hj⟩ := ih hvs hi
        exact ⟨j, mem_cons_of_mem a hmem, hj⟩

theorem textField_ne_integer (a : Arg) (i : Nat) : .integer i ≠ textField a := by
  cases a <;> simp [textField]

theorem construct_integer (h : construct c args = .ok n) (hi : .integer i ∈ n.fields) :
    ∃ j : Int, .integer j ∈ args ∧ i = j.toNat := by
  unfold construct at h
  split at h
  · obtain ⟨rfl, -⟩ := constructIRI_ok h
    exact absurd (mem_singleton.mp hi) (textField_ne_integer _ i)
  · unfold constructEntity at h
    split at h
    · obtain ⟨m, -, h⟩ := bind_eq_ok.mp h
      obtain rfl := Except.ok.inj h
      simp at hi
    · cases h
  · unfold constructAnonymousIndividual at h
    split at h
    · obtain ⟨-, h⟩ := guard_eq_ok.mp h
      split at h
      · obtain ⟨-, h⟩ := guard_eq_ok.mp h
        obtain rfl := Except.ok.inj h
        simp at hi
      · cases h
    · cases h
  · obtain ⟨text, d, v, -, -, -, hv, -, rfl⟩ := constructLiteral_ok h
    rename_i lexical _ _
    have hcases : .integer i = textField lexical ∨ .integer i = v := by simpa using hi
    rcases hcases with hi | hi
    · exact absurd hi (textField_ne_integer _ i)
    · obtain ⟨-, rfl⟩ | ⟨_, _, _, _, rfl⟩ := literalLanguage_ok hv <;> cases hi
  · obtain ⟨p, -, h⟩ := bind_eq_ok.mp h
    obtain ⟨q, -, h⟩ := bind_eq_ok.mp h
    obtain ⟨swapped, -, h⟩ := bind_eq_ok.mp h
    obtain ⟨members, -, h⟩ := bind_eq_ok.mp h
    cases swapped with
    | true =>
      obtain rfl := Except.ok.inj h
      simp at hi
    | false =>
      obtain rfl := Except.ok.inj h
      simp at hi
  · obtain ⟨_, -, h⟩ := bind_eq_ok.mp h
    obtain ⟨_, -, h⟩ := bind_eq_ok.mp h
    obtain ⟨_, -, h⟩ := bind_eq_ok.mp h
    obtain ⟨_, -, h⟩ := bind_eq_ok.mp h
    obtain ⟨_, -, h⟩ := bind_eq_ok.mp h
    obtain ⟨-, h⟩ := guard_eq_ok.mp h
    obtain ⟨_, -, h⟩ := bind_eq_ok.mp h
    obtain rfl := Except.ok.inj h
    simp at hi
  · obtain ⟨-, h⟩ := guard_eq_ok.mp h
    obtain ⟨fields, hfields, rfl⟩ := map_eq_ok.mp h
    exact checkFields_integer hfields hi

def Decodes (n : Node) : Prop := Accepted n ∧ n.Everywhere Node.ShortIntegers

theorem constructDecoded_decodes (h : constructDecoded c args = .ok n) (hargs : ∀ a ∈ args, a.ReadFrom Decodes) : Decodes n := by
  have hdecoded : ∀ a ∈ args, a.Decoded := fun a ha => ⟨(hargs a ha).noEnum, fun m hm => ((hargs a ha).nodes m hm).1⟩
  refine ⟨constructDecoded_accepted h hdecoded, ?_⟩
  have hcall : ∃ args', construct c args' = .ok n ∧ (∀ a ∈ args', ∀ m ∈ a.nodes, Decodes m) ∧
      ∀ j : Int, .integer j ∈ args' → .integer j ∈ args := by
    unfold constructDecoded at h
    split at h
    · rename_i m hcall
      obtain rfl := Except.ok.inj h
      unfold constructorCall at hcall
      split at hcall
      · rename_i kind iri
        split at hcall
        · rename_i k _
          refine ⟨_, hcall, fun a ha => ?_, fun j hj => ?_⟩
          · rcases mem_pair.mp ha with rfl | rfl
            · simp [Arg.nodes]
            · exact (hargs a (by simp)).nodes
          · have hiri : .integer j = iri := by simpa using hj
            simp [hiri]
        · cases hcall
      · exact ⟨_, hcall, fun a ha => (hargs a ha).nodes, fun _ hj => hj⟩
    · split at h <;> cases h
  obtain ⟨args', hconstruct, hnodes, hintegers⟩ := hcall
  obtain ⟨-, hbuilt⟩ := construct_sound hconstruct fun a ha m hm => (hnodes a ha m hm).1.1.sound
  refine .intro (fun i hi => ?_) fun m hm => ?_
  · obtain ⟨j, hj, rfl⟩ := construct_integer hconstruct hi
    exact (hargs _ (hintegers j hj)).short j rfl
  · obtain ⟨a, ha, k, hk, rfl | hmk⟩ := hbuilt.children m hm
    · exact (hnodes a ha m hk).2
    · exact (hnodes a ha k hk).2.child hmk

theorem decodeCanonical_decodes (h : decodeCanonical limits row = .ok n) :
    Decodes n ∧ canonicalBytes limits n = .ok row :=
  decodeCanonical_all (fun _ _ _ => constructDecoded_decodes) h

/-- An accepted row in front of other data can be cut off in one way only, whatever the limits are. -/
theorem acceptedRows_prefixFree : Set.InjOn (fun p : Bytes × Bytes => p.1 ++ p.2)
    {p | ∃ limits n, decodeCanonical limits p.1 = .ok n} := by
  have hbytes : ∀ {limits row n}, decodeCanonical limits row = .ok n → n.Canonical ∧ row = n.bytes := by
    intro limits row n h
    obtain ⟨hn, hrow⟩ := decodeCanonical_decodes h
    exact ⟨hn.1.1.canonical, (canonicalBytes_ok_iff.mp hrow).2⟩
  rintro ⟨row, x⟩ ⟨limits, n, h⟩ ⟨row', y⟩ ⟨limits', m, h'⟩ heq
  obtain ⟨hn, rfl⟩ := hbytes h
  obtain ⟨hm, rfl⟩ := hbytes h'
  obtain ⟨rfl, rfl⟩ := Node.bytes_append_inj hn hm heq
  rfl

/-- Both loops read the same integers; the decoder finds out by encoding what the scan sees at
the last byte. -/
theorem scanVarintFrom_of_decode (data : Bytes) : ∀ (shift acc : Nat) (consumed : Bytes) (r : Nat × Bytes),
    (shift ≠ 0 → consumed ≠ []) → decodeVarintFrom shift acc consumed data = .ok r →
    scanVarintFrom shift acc data = .ok r := by
  induction data with
  | nil => exact fun _ _ _ _ _ h => nomatch h
  | cons byte data ih =>
    intro shift acc consumed r hconsumed h
    simp only [decodeVarintFrom] at h
    simp only [scanVarintFrom]
    split at h
    · rename_i hlast
      obtain ⟨hminimal, h⟩ := guard_eq_ok.mp h
      have hnonzero : ¬(shift ≠ 0 ∧ byte = 0) := fun hzero =>
        encode_last_ne_zero _ consumed byte (not_not.mp hminimal).symm (hconsumed hzero.1) hzero.2
      rw [if_pos hlast, if_neg hnonzero]
      exact h
    · rename_i hmore
      obtain ⟨hlong, h⟩ := guard_eq_ok.mp h
      rw [if_neg hmore, if_neg hlong]
      exact ih _ _ _ r (by simp) h

theorem scanVarint_encode (h : ShortInteger v) (rest : Bytes) :
    scanVarint (encode v ++ rest) = .ok (v, rest) := by
  refine scanVarintFrom_of_decode _ 0 0 [] _ (fun hne => absurd rfl hne) ?_
  have hrun := decodeVarintFrom_encode v 0 0 [] rest (by simp) (by simp) (by rw [ShortInteger] at h; omega)
  simpa using hrun

theorem shortInteger_of_le_maxsize (h : v ≤ maxsize) : ShortInteger v := by
  have hbits := bitLength_of_le_maxsize h
  rw [ShortInteger, length_encode, size]
  omega

theorem scanFrame_frame (h : payload.length ≤ maxsize) (rest : Bytes) :
    scanFrame (frame payload ++ rest) = .ok (payload, rest) := by
  have hlen : ¬(payload ++ rest).length < payload.length := by simp
  rw [scanFrame, frame, append_assoc, scanVarint_encode (shortInteger_of_le_maxsize h)]
  simp only [bind, Except.bind, reject, if_neg hlen, pure, Except.pure, take_left, drop_left]

section

variable {limits : ParseLimits} {scan : Bytes → Metered Error (Constructor × Bytes)}

/-- The scan of nested values finds the constructor of `m` in its bytes within the budget. -/
def Scans (limits : ParseLimits) (scan : Bytes → Metered Error (Constructor × Bytes)) (m : Node) : Prop :=
  m.bytes.length ≤ maxsize ∧ ∀ t, t + m.terms ≤ limits.maxTerms →
    scan m.bytes t = .ok ((m.constructor, []), t + m.terms)

theorem scanNested_frame (h : Scans limits scan m) (trailing : String) (rest : Bytes) (t : Nat) (ht : t + m.terms ≤
    limits.maxTerms) :
    scanNested scan trailing (frame m.bytes ++ rest) t = .ok (rest, t + m.terms) := by
  refine bind_eq_ok.mpr ⟨(m.bytes, rest), t, free_eq_ok.mpr ⟨scanFrame_frame h.1 rest, rfl⟩, ?_⟩
  refine bind_eq_ok.mpr ⟨(m.constructor, []), t + m.terms, h.2 t ht, ?_⟩
  refine bind_eq_ok.mpr ⟨(), t + m.terms, free_eq_ok.mpr ⟨reject_eq_ok.mpr (by simp), rfl⟩, ?_⟩
  exact pure_eq_ok.mpr ⟨rfl, rfl⟩

/-- The members of an ascending set pass the test against the member before them. -/
theorem scanMembers_frames (h : ∀ m ∈ ms, Scans limits scan m) (hsorted : KeyedSet.Ascending Node.bytes ms) (rest :
    Bytes) : ∀ (previous : Option Bytes) (t : Nat),
    (∀ last ∈ previous, ∀ m ∈ ms, last < m.bytes) → t + (ms.map Node.terms).sum ≤ limits.maxTerms →
    scanMembers scan ms.length previous (((ms.map Node.bytes).map frame).flatten ++ rest) t =
      .ok (rest, t + (ms.map Node.terms).sum) := by
  induction ms with
  | nil => exact fun _ _ _ _ => rfl
  | cons m ms ih =>
    intro previous t hprevious ht
    obtain ⟨hm, hms⟩ := forall_mem_cons.mp h
    obtain ⟨hfirst, htail⟩ := pairwise_cons.mp hsorted
    simp only [map_cons, sum_cons] at ht ⊢
    simp only [flatten_cons, append_assoc, length_cons, scanMembers]
    have hafter : ¬(previous.any fun last => m.bytes ≤ last) := by
      cases previous with
      | none => simp
      | some last => simpa using hprevious last rfl m mem_cons_self
    refine bind_eq_ok.mpr ⟨(m.bytes, _), t, free_eq_ok.mpr ⟨scanFrame_frame hm.1 _, rfl⟩, ?_⟩
    refine bind_eq_ok.mpr ⟨(), t, free_eq_ok.mpr ⟨reject_eq_ok.mpr hafter, rfl⟩, ?_⟩
    refine bind_eq_ok.mpr ⟨(m.constructor, []), t + m.terms, hm.2 t (by omega), ?_⟩
    refine bind_eq_ok.mpr ⟨(), t + m.terms, free_eq_ok.mpr ⟨reject_eq_ok.mpr (by simp), rfl⟩, ?_⟩
    have hnext := ih hms htail (some m.bytes) (t + m.terms) (by simpa using hfirst) (by omega)
    rw [Nat.add_assoc] at hnext
    exact hnext

theorem scanItems_frames {ms : List Node} (h : ∀ m ∈ ms, Scans limits scan m) (rest : Bytes) : ∀ t : Nat,
    t + (ms.map Node.terms).sum ≤ limits.maxTerms →
    scanItems scan ms.length (((ms.map Node.bytes).map fun item => 1 :: frame item).flatten ++ rest) t =
      .ok (rest, t + (ms.map Node.terms).sum) := by
  induction ms with
  | nil => exact fun _ _ => rfl
  | cons m ms ih =>
    intro t ht
    obtain ⟨hm, hms⟩ := forall_mem_cons.mp h
    simp only [map_cons, sum_cons] at ht ⊢
    simp only [flatten_cons, cons_append, append_assoc, length_cons, scanItems, if_true]
    refine bind_eq_ok.mpr ⟨_, t + m.terms, scanNested_frame hm _ _ t (by omega), ?_⟩
    have hnext := ih hms (t + m.terms) (by omega)
    rw [Nat.add_assoc] at hnext
    exact hnext

theorem scanCount_encode {count : Nat} (hshort : ShortInteger count) (harity : count ≤ limits.maxSequenceArity) (hroom
    : count ≤ data.length) :
    scanCount limits noun (encode count ++ data) = .ok (count, data) := by
  rw [scanCount, scanVarint_encode hshort]
  simp only [bind, Except.bind, reject, if_neg (not_lt.mpr harity), if_neg (not_lt.mpr hroom), pure, Except.pure]

theorem length_le_flatten {l : List Bytes} (h : ∀ x ∈ l, x ≠ []) : l.length ≤ l.flatten.length := by
  induction l with
  | nil => simp
  | cons x l ih =>
    obtain ⟨hx, hl⟩ := forall_mem_cons.mp h
    have hpos := length_pos_iff.mpr hx
    have hrest := ih hl
    simp only [length_cons, flatten_cons, length_append]
    omega

theorem scanScalar_encode (hnode : marker v ≠ 1) (hset : marker v ≠ 6) (hseq : marker v ≠ 7) (hint : ∀ i, v = .integer
    i → ShortInteger i) (hlen : (encodeComponent (v.map Node.bytes)).length ≤ maxsize) (rest : Bytes) :
    scanScalar (marker v) (encodePayload (v.map Node.bytes) ++ rest) = .ok rest := by
  rw [encodeComponent, marker_map] at hlen
  cases v with
  | node m => exact absurd rfl hnode
  | set ms => exact absurd rfl hset
  | sequence ms => exact absurd rfl hseq
  | none => rfl
  | text value =>
    simp [scanScalar, marker, Value.map, encodePayload, scanFrame_frame (payload_le hlen), utf8Decode_encode, reject,
      bind, Except.bind, pure, Except.pure]
  | bytes value =>
    simp [scanScalar, marker, Value.map, encodePayload, scanFrame_frame (payload_le hlen), reject, bind, Except.bind,
      pure, Except.pure]
  | integer value =>
    simp [scanScalar, marker, Value.map, encodePayload, scanVarint_encode (hint value rfl), Functor.map, Except.map]
  | enum value =>
    simp [scanScalar, marker, Value.map, encodePayload, scanFrame_frame (payload_le hlen), asciiDecode_value, reject,
      bind, Except.bind, pure, Except.pure]

/-- One component of a sound row is passed over, at the price of its nested values. -/
theorem scanComponent_encode {v : Value Node} (hscans : ∀ m ∈ v.nodes, Scans limits scan m)
    (harity : v.arity ≤ limits.maxSequenceArity) (hsorted : ∀ ms, v = .set ms → KeyedSet.Ascending Node.bytes ms)
    (hint : ∀ i, v = .integer i → ShortInteger i) (hlen : (encodeComponent (v.map Node.bytes)).length ≤ maxsize)
    (rest : Bytes) (t : Nat) (ht : t + (v.nodes.map Node.terms).sum ≤ limits.maxTerms) :
    scanComponent limits scan (encodeComponent (v.map Node.bytes) ++ rest) t =
      .ok (rest, t + (v.nodes.map Node.terms).sum) := by
  have hcount : ShortInteger v.arity := shortInteger_of_le_maxsize (le_trans (arity_le_length v) hlen)
  cases v with
  | node m =>
    have hm := hscans m (by simp)
    simp only [encodeComponent, marker, Value.map, encodePayload, cons_append, scanComponent, if_true]
    simp only [Value.nodes_node, map_cons, map_nil, sum_singleton] at ht ⊢
    exact scanNested_frame hm _ rest t ht
  | set ms =>
    simp only [Value.nodes_set] at ht hscans ⊢
    simp only [encodeComponent, marker, Value.map, encodePayload, cons_append, scanComponent,
      insertionSort_bytes (hsorted ms rfl), append_assoc, length_map]
    rw [if_neg (by decide), if_pos trivial]
    have hroom : ms.length ≤ (((ms.map Node.bytes).map frame).flatten ++ rest).length := by
      have hframes := @length_le_flatten ((ms.map Node.bytes).map frame) fun x hx => by
        obtain ⟨payload, -, rfl⟩ := mem_map.mp hx
        exact frame_ne_nil payload
      simp only [length_map] at hframes
      rw [length_append]
      omega
    refine bind_eq_ok.mpr ⟨(ms.length, _), t, free_eq_ok.mpr ⟨scanCount_encode hcount harity hroom, rfl⟩, ?_⟩
    exact scanMembers_frames hscans (hsorted ms rfl) rest none t (by simp) ht
  | sequence ms =>
    simp only [Value.nodes_sequence] at ht hscans ⊢
    simp only [encodeComponent, marker, Value.map, encodePayload, cons_append, scanComponent, append_assoc, length_map]
    rw [if_neg (by decide), if_neg (by decide), if_pos trivial]
    have hroom : ms.length ≤ (((ms.map Node.bytes).map fun item => 1 :: frame item).flatten ++ rest).length := by
      have hframes := @length_le_flatten ((ms.map Node.bytes).map fun item => 1 :: frame item) fun x hx => by
        obtain ⟨payload, -, rfl⟩ := mem_map.mp hx
        exact cons_ne_nil _ _
      simp only [length_map] at hframes
      rw [length_append]
      omega
    refine bind_eq_ok.mpr ⟨(ms.length, _), t, free_eq_ok.mpr ⟨scanCount_encode hcount harity hroom, rfl⟩, ?_⟩
    exact scanItems_frames hscans rest t ht
  | none | text _ | bytes _ | integer _ | enum _ =>
    simp only [encodeComponent, marker_map, cons_append, scanComponent]
    rw [if_neg (by simp [marker]), if_neg (by simp [marker]), if_neg (by simp [marker])]
    exact free_eq_ok.mpr
      ⟨scanScalar_encode (by simp [marker]) (by simp [marker]) (by simp [marker]) hint hlen rest, rfl⟩

theorem scanComponents_flatten {fields : List (Value Node)} (h : ∀ v ∈ fields, ∀ rest t,
      t + (v.nodes.map Node.terms).sum ≤ limits.maxTerms →
      scanComponent limits scan (encodeComponent (v.map Node.bytes) ++ rest) t =
        .ok (rest, t + (v.nodes.map Node.terms).sum)) (rest : Bytes) : ∀ t,
    t + (fields.map fun v => (v.nodes.map Node.terms).sum).sum ≤ limits.maxTerms →
    scanComponents limits scan fields.length ((fields.map fun v => encodeComponent (v.map Node.bytes)).flatten ++ rest) t =
      .ok (rest, t + (fields.map fun v => (v.nodes.map Node.terms).sum).sum) := by
  induction fields with
  | nil => exact fun _ _ => rfl
  | cons v fields ih =>
    intro t ht
    obtain ⟨hv, hfields⟩ := forall_mem_cons.mp h
    simp only [map_cons, sum_cons] at ht ⊢
    simp only [flatten_cons, append_assoc, length_cons, scanComponents]
    refine bind_eq_ok.mpr ⟨_, _, hv _ t (by omega), ?_⟩
    have hnext := ih hfields (t + (v.nodes.map Node.terms).sum) (by omega)
    rw [Nat.add_assoc] at hnext
    exact hnext

end

theorem scanEnter_run (hdepth : depth ≤ limits.maxNestingDepth) (ht : t + 1 ≤ limits.maxTerms) :
    scanEnter limits depth t = .ok ((), t + 1) := by
  refine bind_eq_ok.mpr ⟨(), t + 1, rfl, ?_⟩
  refine bind_eq_ok.mpr ⟨(), t + 1, free_eq_ok.mpr ⟨reject_eq_ok.mpr (not_lt.mpr hdepth), rfl⟩, ?_⟩
  refine bind_eq_ok.mpr ⟨t + 1, t + 1, rfl, ?_⟩
  exact free_eq_ok.mpr ⟨reject_eq_ok.mpr (not_lt.mpr ht), rfl⟩

/-- The bytes of a value, with anything behind them, scan to its constructor. -/
theorem scanNode_bytes {n : Node} (hn : Constructible n) (hshort : n.Everywhere Node.ShortIntegers) :
    ∀ (fuel depth : Nat) (rest : Bytes) (t : Nat), n.bytes.length < fuel → n.bytes.length ≤ maxsize →
      n.Fits limits depth → t + n.terms ≤ limits.maxTerms →
      scanNode limits fuel depth (n.bytes ++ rest) t = .ok ((n.constructor, rest), t + n.terms) := by
  induction n using Node.induct with
  | step n ih =>
    intro fuel depth rest t hfuel hmax hfits ht
    obtain ⟨fuel, rfl⟩ : ∃ k, fuel = k + 1 := ⟨fuel - 1, by omega⟩
    obtain ⟨hdepth, hfields⟩ := Node.fits_iff.mp hfits
    rw [Node.terms_eq] at ht ⊢
    have hscans : ∀ v ∈ n.fields, ∀ m ∈ v.nodes, Scans limits (scanNode limits fuel (depth + 1)) m := by
      intro v hv m hm
      have hchild := Node.mem_children.mpr ⟨v, hv, hm⟩
      have hlt := child_lt_length hchild
      refine ⟨by omega, fun s hs => ?_⟩
      have hrun := ih m hchild (hn.child hchild) (hshort.child hchild) fuel (depth + 1) [] s (by omega)
        (by omega) ((hfields v hv).2 m hm) hs
      simpa using hrun
    have hrow := scanComponents_flatten (fun v hv rest s hs => scanComponent_encode (hscans v hv)
      (hfields v hv).1 (fun ms hms => hn.sound.shape.ascending ms (hms ▸ hv))
      (fun i hi => hshort.here i (hi ▸ hv)) (le_trans (component_le_length hv) hmax) rest s hs) rest (t + 1)
      (show t + 1 + (n.fields.map fun v => (v.nodes.map Node.terms).sum).sum ≤ limits.maxTerms by omega)
    rw [hn.sound.shape.arity] at hrow
    have htag : ShortInteger n.constructor.tag := by
      refine shortInteger_of_le_maxsize ?_
      cases n.constructor <;> decide
    rw [Node.bytes_eq, append_assoc, scanNode]
    refine bind_eq_ok.mpr ⟨(), t + 1, scanEnter_run hdepth (by omega), ?_⟩
    refine bind_eq_ok.mpr ⟨(n.constructor.tag, _), t + 1, free_eq_ok.mpr ⟨scanVarint_encode htag _, rfl⟩, ?_⟩
    simp only [Constructor.ofTag_tag]
    refine bind_eq_ok.mpr ⟨rest, _, hrow, ?_⟩
    exact pure_eq_ok.mpr ⟨rfl, by omega⟩

theorem scanCanonical_of_decode (h : decodeCanonical limits row = .ok v) :
    scanCanonical limits row = .ok v.constructor := by
  obtain ⟨⟨⟨hv, -⟩, hshort⟩, hrow⟩ := decodeCanonical_decodes h
  obtain ⟨henc, rfl⟩ := canonicalBytes_ok_iff.mp hrow
  have hrun := scanNode_bytes hv hshort (v.bytes.length + 1) 0 [] 0 (by omega) henc.memory henc.fits
    (by simpa using henc.terms)
  rw [append_nil] at hrun
  simp [scanCanonical, hrun, reject, bind, Except.bind, pure, Except.pure]

section

variable {limits : ParseLimits}

inductive RowClass where
  | iri
  | entity
  | literal
  | anonymousIndividual
  | annotationNode
  | axiomNode
  deriving DecidableEq

def RowClass.subclasses : RowClass → List Constructor
  | .iri => [.iri]
  | .entity => [.entity]
  | .literal => [.literal]
  | .anonymousIndividual => [.anonymousIndividual]
  | .annotationNode => [.annotationNode]
  | .axiomNode => axiomTypes

def constructorMatches (c : Constructor) (expected : RowClass) : Bool :=
  if expected = .entity then c = .entity else c ∈ expected.subclasses

/-- The classes of values that are instances of the class; every typed entity is an `Entity`. -/
def RowClass.classes : RowClass → List NodeClass
  | .iri => [Schema.iriClass]
  | .entity => [.anyEntity]
  | .literal => [Schema.literalClass]
  | .anonymousIndividual => [.ofConstructor .anonymousIndividual]
  | .annotationNode => [Schema.annotationClass]
  | .axiomNode => axiomTypes.map .ofConstructor

theorem constructorMatches_eq (v : Node) (expected : RowClass) :
    constructorMatches v.constructor expected = v.isInstance expected.classes := by
  rw [Bool.eq_iff_iff]
  cases expected with
  | axiomNode =>
    have hmatches : constructorMatches v.constructor .axiomNode = decide (v.constructor ∈ axiomTypes) := rfl
    rw [hmatches, decide_eq_true_iff]
    simp [RowClass.classes, Node.isInstance, Node.hasClass]
  | _ => simp [constructorMatches, RowClass.subclasses, RowClass.classes, Node.isInstance, Node.hasClass,
      Schema.iriClass, Schema.literalClass, Schema.annotationClass]

theorem decodeModel_ok (h : decodeModel limits row = .ok v) :
    decodeCanonical limits row = .ok v := by
  unfold decodeModel at h
  split at h
  · rename_i hv
    rw [hv, Except.ok.inj h]
  · cases h
  · split at h <;> cases h

/-- A table that passes when its rows are decoded passes when they are scanned. -/
theorem validateRows_lazily (h : validateRows limits false section_ accepts table = .ok ()) :
    validateRows limits true section_ accepts table = .ok () := by
  obtain ⟨rows, hrows, h⟩ := bind_eq_ok.mp h
  refine bind_eq_ok.mpr ⟨rows, hrows, ?_⟩
  rw [forM_eq_ok] at h ⊢
  intro row hrow
  obtain ⟨⟨c, name⟩, hc, haccepts⟩ := bind_eq_ok.mp (h row hrow)
  obtain ⟨v, hv, hpair⟩ := map_eq_ok.mp hc
  obtain ⟨rfl, -⟩ := Prod.mk.inj hpair
  have hscan := scanCanonical_of_decode (decodeModel_ok hv)
  refine bind_eq_ok.mpr ⟨(v.constructor, v.constructor.name), ?_, ?_⟩
  · exact map_eq_ok.mpr ⟨v.constructor, hscan, rfl⟩
  · exact reject_eq_ok.mpr (reject_eq_ok.mp haccepts)

/-- What the decoder accepts the scan accepts, with the constructor of the decoded value and the same
answers about its class, and the tables that pass when decoded pass when scanned. -/
theorem scan_agrees (limits : ParseLimits) :
    (∀ row v, decodeCanonical limits row = .ok v → scanCanonical limits row = .ok v.constructor ∧
      ∀ expected : RowClass, constructorMatches v.constructor expected = v.isInstance expected.classes) ∧
    ∀ image : WireImage, validateTables limits image false = .ok () → validateTables limits image true = .ok () := by
  refine ⟨fun row v h => ⟨scanCanonical_of_decode h, constructorMatches_eq v⟩, fun image h => ?_⟩
  have hrows : ∀ (section_ : String) (accepts : Constructor → Bool) (table : TableView) (u : Unit),
      validateRows limits false section_ accepts table = .ok u →
      validateRows limits true section_ accepts table = .ok u := fun _ _ _ _ => validateRows_lazily
  unfold validateTables at h ⊢
  refine bind_mono (fun _ => id) (fun _ => bind_mono (fun _ => id) fun _ => bind_mono (fun _ => id) fun _ => ?_) h
  refine bind_mono (fun _ => id) fun _ => bind_mono (hrows _ _ _) fun _ => ?_
  refine bind_mono (fun _ => id) fun _ => bind_mono (hrows _ _ _) fun _ => ?_
  refine bind_mono (fun _ => id) fun _ => bind_mono (hrows _ _ _) fun _ => ?_
  refine bind_mono (fun _ => id) fun _ => bind_mono (hrows _ _ _) fun _ => ?_
  refine bind_mono (fun _ => id) fun _ => bind_mono (fun _ => id) fun _ => ?_
  refine bind_mono (fun _ => id) fun _ => bind_mono (hrows _ _ _) fun _ => ?_
  refine bind_mono (fun _ => id) fun _ => bind_mono (hrows _ _ _) fun _ => ?_
  refine bind_mono (fun _ => id) fun _ => bind_mono (hrows _ _ _) fun _ => ?_
  cases image.table .swrl with
  | none => exact id
  | some swrl => exact hrows _ _ _ ()

/-- The row of an IRI is scanned. -/
theorem scan_agrees_iri : scanCanonical defaultLimits xsdStringIri.bytes = .ok .iri :=
  ((scan_agrees defaultLimits).1 xsdStringIri.bytes xsdStringIri (by decide +kernel)).1

end

end OwlCore
