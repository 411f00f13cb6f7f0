import OwlCore.Model.RoundTrip

/-!
# The codec as a whole

What the decoder can return at all, and from it the exact condition under which a
value survives encoding and decoding.
-/
namespace OwlCore

open Metered Node Varint

section

/-- What the decoder builds: constructible, and with plain text in every literal. -/
def Accepted (n : Node) : Prop := Constructible n ∧ n.Everywhere Node.PlainText

def Arg.Decoded (a : Arg) : Prop := (∀ kind, a ≠ .enum kind) ∧ ∀ m ∈ a.nodes, Accepted m

def ShortInteger (i : Nat) : Prop := 7 * ((encode i).length - 1) ≤ 1000000

/-- An argument as the decoder produces it from nested values with a property. -/
structure Arg.ReadFrom (P : Node → Prop) (a : Arg) : Prop where
  noEnum : ∀ kind, a ≠ .enum kind
  short : ∀ i : Int, a = .integer i → ShortInteger i.toNat
  nodes : ∀ m ∈ a.nodes, P m

theorem Arg.ReadFrom.decoded {a : Arg} (h : a.ReadFrom Accepted) : a.Decoded := ⟨h.noEnum, h.nodes⟩

theorem decodeVarintFrom_short (data : Bytes) : ∀ (shift acc : Nat) (consumed rest : Bytes) (v : Nat),
    shift = 7 * consumed.length → shift ≤ 1000000 →
    decodeVarintFrom shift acc consumed data = .ok (v, rest) → ShortInteger v := by
  induction data with
  | nil => exact fun _ _ _ _ _ _ _ h => nomatch h
  | cons byte data ih =>
    intro shift acc consumed rest v hshift hlong h
    simp only [decodeVarintFrom] at h
    split at h
    · split at h
      · cases h
      · rename_i hminimal
        obtain ⟨rfl, -⟩ := Prod.mk.inj (Except.ok.inj h)
        rw [ShortInteger, ← not_not.mp hminimal]
        simpa [← hshift] using hlong
    · split at h
      · cases h
      · rename_i hmore
        exact ih _ _ _ _ _ (by simp; omega) (not_lt.mp hmore) h

variable {data : Bytes}

theorem decodeVarint_short (h : decodeVarint data = .ok (v, rest)) : ShortInteger v :=
  decodeVarintFrom_short data 0 0 [] rest v rfl (Nat.zero_le _) h

theorem readFrom_of_scalar {a : Arg} (henum : ∀ kind, a ≠ .enum kind) (hint : ∀ i, a ≠ .integer i)
    (hnodes : a.nodes = []) : a.ReadFrom P := ⟨henum, fun i hi => absurd hi (hint i), by simp [hnodes]⟩

theorem decodeText_readFrom {decoded : Option String} {a : Arg} (h : decodeText decoded = .ok a) :
    a.ReadFrom P := by
  unfold decodeText at h
  split at h
  · obtain rfl := Except.ok.inj h
    exact readFrom_of_scalar (by simp) (by simp) rfl
  · cases h

theorem decodeScalarComponent_readFrom {mark : UInt8} {data rest : Bytes} {a : Arg}
    (h : decodeScalarComponent mark data = .ok (a, rest)) : a.ReadFrom P := by
  unfold decodeScalarComponent at h
  split at h
  · obtain ⟨rfl, -⟩ := Prod.mk.inj (Except.ok.inj h)
    exact readFrom_of_scalar (by simp) (by simp) rfl
  · split at h
    · obtain ⟨p, _, h⟩ := Fallible.bind_eq_ok.mp h
      obtain ⟨rfl, -⟩ := Prod.mk.inj (Except.ok.inj h)
      exact readFrom_of_scalar (by simp) (by simp) rfl
    · split at h
      · obtain ⟨p, _, h⟩ := Fallible.bind_eq_ok.mp h
        obtain ⟨text, htext, h⟩ := Fallible.bind_eq_ok.mp h
        obtain ⟨rfl, -⟩ := Prod.mk.inj (Except.ok.inj h)
        exact decodeText_readFrom htext
      · split at h
        · obtain ⟨p, _, h⟩ := Fallible.bind_eq_ok.mp h
          obtain ⟨text, htext, h⟩ := Fallible.bind_eq_ok.mp h
          obtain ⟨rfl, -⟩ := Prod.mk.inj (Except.ok.inj h)
          exact decodeText_readFrom htext
        · split at h
          · obtain ⟨⟨v, left⟩, hv, h⟩ := Fallible.bind_eq_ok.mp h
            obtain ⟨rfl, -⟩ := Prod.mk.inj (Except.ok.inj h)
            refine ⟨by simp, fun i hi => ?_, by simp [Arg.nodes]⟩
            obtain rfl := Arg.integer.inj hi
            exact decodeVarint_short hv
          · cases h

theorem readMany_all {α : Type} {P : α → Prop} {read : Bytes → Metered Error (α × Bytes)}
    (hread : ∀ data t a rest s, read data t = .ok ((a, rest), s) → P a) :
    ∀ (count : Nat) (data : Bytes) (t : Nat) (l : List α) (rest : Bytes) (s : Nat),
      readMany read count data t = .ok ((l, rest), s) → ∀ a ∈ l, P a := by
  intro count
  induction count with
  | zero =>
    intro data t l rest s h
    obtain ⟨h, -⟩ := pure_eq_ok.mp h
    obtain ⟨rfl, -⟩ := Prod.mk.inj h
    simp
  | succ count ih =>
    intro data t l rest s h
    obtain ⟨⟨a, data'⟩, t', ha, h⟩ := bind_eq_ok.mp h
    obtain ⟨⟨as, data''⟩, t'', has, h⟩ := bind_eq_ok.mp h
    obtain ⟨h, -⟩ := pure_eq_ok.mp h
    obtain ⟨rfl, -⟩ := Prod.mk.inj h
    exact List.forall_mem_cons.mpr ⟨hread data t a data' t' ha, ih data' t' as data'' t'' has⟩

section

variable {P : Node → Prop} {decode : Bytes → Metered Error (Node × Bytes)} (hdecode : ∀ data t n rest s, decode data t
  = .ok ((n, rest), s) → P n)

include hdecode

theorem readNested_all (data : Bytes) (t : Nat) (n : Node) (rest : Bytes) (s : Nat) (h : readNested decode trailing
    data t = .ok ((n, rest), s)) : P n := by
  obtain ⟨p, t', _, h⟩ := bind_eq_ok.mp h
  obtain ⟨⟨m, left⟩, t'', hm, h⟩ := bind_eq_ok.mp h
  obtain ⟨-, h⟩ := guard_eq_ok.mp h
  obtain ⟨h, -⟩ := pure_eq_ok.mp h
  obtain ⟨rfl, -⟩ := Prod.mk.inj h
  exact hdecode _ _ _ _ _ hm

theorem readItem_readFrom (data : Bytes) (t : Nat) (a : Arg) (rest : Bytes) (s : Nat)
    (h : readItem decode data t = .ok ((a, rest), s)) : a.ReadFrom P := by
  unfold readItem at h
  split at h
  · exact absurd h throw_ne_ok
  · split at h
    · obtain ⟨⟨m, data'⟩, t', hm, h⟩ := bind_eq_ok.mp h
      obtain ⟨h, -⟩ := pure_eq_ok.mp h
      obtain ⟨rfl, -⟩ := Prod.mk.inj h
      exact ⟨by simp, by simp, by simpa using readNested_all hdecode _ _ _ _ _ hm⟩
    · exact decodeScalarComponent_readFrom (free_eq_ok.mp h).1

theorem readComponent_readFrom (data : Bytes) (t : Nat) (a : Arg) (rest : Bytes) (s : Nat)
    (h : readComponent limits decode data t = .ok ((a, rest), s)) : a.ReadFrom P := by
  unfold readComponent at h
  split at h
  · exact absurd h throw_ne_ok
  · split at h
    · obtain ⟨⟨m, data'⟩, t', hm, h⟩ := bind_eq_ok.mp h
      obtain ⟨h, -⟩ := pure_eq_ok.mp h
      obtain ⟨rfl, -⟩ := Prod.mk.inj h
      exact ⟨by simp, by simp, by simpa using readNested_all hdecode _ _ _ _ _ hm⟩
    · split at h
      · obtain ⟨⟨count, data₁⟩, t₁, _, h⟩ := bind_eq_ok.mp h
        obtain ⟨_, t₂, _, h⟩ := bind_eq_ok.mp h
        obtain ⟨⟨members, data₂⟩, t₃, hmembers, h⟩ := bind_eq_ok.mp h
        obtain ⟨set, t₄, hset, h⟩ := bind_eq_ok.mp h
        obtain ⟨h, -⟩ := pure_eq_ok.mp h
        obtain ⟨rfl, -⟩ := Prod.mk.inj h
        have hall := readMany_all (readNested_all hdecode) _ _ _ _ _ _ hmembers
        obtain ⟨-, rfl⟩ := canonicalSetOf_ok_iff.mp (free_eq_ok.mp hset).1
        exact ⟨by simp, by simp, fun m hm => hall m (KeyedSet.mem_of_mem_ofList hm)⟩
      · split at h
        · obtain ⟨⟨count, data₁⟩, t₁, _, h⟩ := bind_eq_ok.mp h
          obtain ⟨_, t₂, _, h⟩ := bind_eq_ok.mp h
          obtain ⟨⟨items, data₂⟩, t₃, hitems, h⟩ := bind_eq_ok.mp h
          obtain ⟨h, -⟩ := pure_eq_ok.mp h
          obtain ⟨rfl, -⟩ := Prod.mk.inj h
          have hall := readMany_all (readItem_readFrom hdecode) _ _ _ _ _ _ hitems
          exact ⟨by simp, by simp, fun m hm => (hall _ (Arg.mem_nodes_tuple.mp hm)).nodes m (by simp)⟩
        · exact decodeScalarComponent_readFrom (free_eq_ok.mp h).1

end

/-- What every call of `_construct` on decoded arguments returns, the decoder returns. -/
theorem decodeNode_all {limits : ParseLimits} {P : Node → Prop}
    (hcall : ∀ c args n, constructDecoded c args = .ok n → (∀ a ∈ args, a.ReadFrom P) → P n) (fuel : Nat) :
    ∀ (depth : Nat) (data : Bytes) (t : Nat) (n : Node) (rest : Bytes) (s : Nat),
      decodeNode limits fuel depth data t = .ok ((n, rest), s) → P n := by
  induction fuel with
  | zero => exact fun depth data t n rest s h => absurd h throw_ne_ok
  | succ fuel ih =>
    intro depth data t n rest s h
    obtain ⟨_, t₁, _, h⟩ := bind_eq_ok.mp h
    obtain ⟨⟨tag, data₁⟩, t₂, _, h⟩ := bind_eq_ok.mp h
    cases htag : Constructor.ofTag tag with
    | none =>
      simp only [htag] at h
      exact absurd h throw_ne_ok
    | some c =>
      simp only [htag] at h
      obtain ⟨⟨args, data₂⟩, t₃, hargs, h⟩ := bind_eq_ok.mp h
      obtain ⟨m, t₄, hm, h⟩ := bind_eq_ok.mp h
      obtain ⟨h, -⟩ := pure_eq_ok.mp h
      obtain ⟨rfl, -⟩ := Prod.mk.inj h
      exact hcall c args m (free_eq_ok.mp hm).1
        (readMany_all (readComponent_readFrom (ih (depth + 1))) _ _ _ _ _ _ hargs)

theorem decodeCanonical_all (hcall : ∀ c args n, constructDecoded c args = .ok n → (∀ a ∈ args, a.ReadFrom P) → P n)
    (h : decodeCanonical limits data = .ok n) : P n ∧ canonicalBytes limits n = .ok data := by
  obtain ⟨_, _, h⟩ := Fallible.bind_eq_ok.mp h
  obtain ⟨⟨⟨m, rest⟩, s⟩, hm, h⟩ := Fallible.bind_eq_ok.mp h
  obtain ⟨-, h⟩ := Fallible.guard_eq_ok.mp h
  obtain ⟨encoded, hencoded, h⟩ := Fallible.bind_eq_ok.mp h
  obtain ⟨hsame, h⟩ := Fallible.guard_eq_ok.mp h
  obtain rfl := Except.ok.inj h
  exact ⟨decodeNode_all hcall _ _ _ _ _ _ _ hm, not_not.mp hsame ▸ hencoded⟩

theorem plainText_of_call (h : construct c args = .ok n) (hargs : ∀ a ∈ args, a.Decoded) (hc : n.constructor = c) :
    n.PlainText := by
  intro hliteral kind hhead
  rw [hc] at hliteral
  subst hliteral
  unfold construct at h
  split at h
  all_goals first | contradiction | skip
  · rename_i lexical datatype language _
    obtain ⟨text, d, v, -, -, -, -, -, rfl⟩ := constructLiteral_ok h
    have hfield : textField lexical = .enum kind := by simpa using hhead
    refine (hargs lexical (by simp)).1 kind ?_
    cases lexical <;> simp_all [textField]

theorem accepted_of_call (h : construct c args = .ok n) (hplain : n.PlainText)
    (hargs : ∀ a ∈ args, ∀ m ∈ a.nodes, Accepted m) : Accepted n := by
  obtain ⟨-, hbuilt⟩ := construct_sound h fun a ha m hm => (hargs a ha m hm).1.sound
  refine ⟨.intro (fun a ha m hm => (hargs a ha m hm).1) h, .intro hplain fun m hm => ?_⟩
  obtain ⟨a, ha, k, hk, rfl | hmk⟩ := hbuilt.children m hm
  · exact (hargs a ha m hk).2
  · exact (hargs a ha k hk).2.child hmk

theorem construct_constructor (h : construct c args = .ok n) (hargs : ∀ a ∈ args, ∀ m ∈ a.nodes, Accepted m) :
    n.constructor = c :=
  (construct_sound h fun a ha m hm => (hargs a ha m hm).1.sound).2.constructor_eq

theorem constructDecoded_accepted
    (h : constructDecoded c args = .ok n) (hargs : ∀ a ∈ args, a.Decoded) : Accepted n := by
  unfold constructDecoded at h
  split at h
  · rename_i m hcall
    obtain rfl := Except.ok.inj h
    unfold constructorCall at hcall
    split at hcall
    · rename_i kind iri
      split at hcall
      · rename_i k _
        have hnodes : ∀ a ∈ [Arg.enum k, iri], ∀ m ∈ a.nodes, Accepted m := by
          intro a ha
          rcases List.mem_pair.mp ha with rfl | rfl
          · simp [Arg.nodes]
          · exact (hargs a (by simp)).2
        have hc := construct_constructor hcall hnodes
        exact accepted_of_call hcall (fun hliteral => by rw [hc] at hliteral; cases hliteral) hnodes
      · cases hcall
    · have hnodes : ∀ a ∈ args, ∀ m ∈ a.nodes, Accepted m := fun a ha => (hargs a ha).2
      have hc := construct_constructor hcall hnodes
      exact accepted_of_call hcall (plainText_of_call hcall hargs hc) hnodes
  · split at h <;> cases h

theorem decodeCanonical_accepted {limits : ParseLimits} (h : decodeCanonical limits data = .ok n) : Accepted n :=
  (decodeCanonical_all (fun _ _ _ hcall hargs =>
    constructDecoded_accepted hcall fun a ha => (hargs a ha).decoded) h).1

end

/-- The codec property of a value: its bytes decode to it, and no other value has them. -/
def RoundTrips (limits : ParseLimits) (v : Node) (encoded : Bytes) : Prop :=
  decodeCanonical limits encoded = .ok v ∧
    ∀ (other : ParseLimits) (w : Node), Constructible w → canonicalBytes other w = .ok encoded → w = v

def xsdStringIri : Node := .mk .iri [.text "http://www.w3.org/2001/XMLSchema#string"]

def xsdString : Node := .mk .entity [.enum .datatype, .node xsdStringIri]

theorem constructible_xsdStringIri : Constructible xsdStringIri := by
  have hcall : construct .iri [.text "http://www.w3.org/2001/XMLSchema#string"] = .ok xsdStringIri := by
    decide +kernel
  exact .intro (by simp [Arg.nodes]) hcall

theorem constructible_xsdString : Constructible xsdString := by
  have hcall : construct .entity [.enum .datatype, .node xsdStringIri] = .ok xsdString := by
    decide +kernel
  exact .intro (by simpa [Arg.nodes] using constructible_xsdStringIri) hcall

/-- The call `Literal(lexical, XSD_STRING)`. -/
def stringLiteral (lexical : Value Node) : Node := .mk .literal [lexical, .node xsdString, .none]

theorem constructible_stringLiteral (h : construct .literal [lexical, .node xsdString, .none] = .ok (stringLiteral
    (textField lexical))) (hnodes : lexical.nodes = []) : Constructible (stringLiteral (textField lexical)) :=
  .intro (by simpa [hnodes] using constructible_xsdString) h

/-- A property that trivially holds of IRIs and entities holds throughout such a literal. -/
theorem everywhere_stringLiteral (hlexical : lexical.nodes = []) (hliteral : P (stringLiteral lexical)) (hentity : P
    xsdString) (hiri : P xsdStringIri) :
    (stringLiteral lexical).Everywhere P := by
  refine .intro hliteral fun m hm => ?_
  obtain rfl : m = xsdString := by simpa [stringLiteral, Node.children, hlexical] using hm
  refine .intro hentity fun k hk => ?_
  obtain rfl : k = xsdStringIri := by simpa [xsdString, Node.children, Value.nodes] using hk
  exact .intro hiri fun j hj => by simp [xsdStringIri, Node.children, Value.nodes] at hj

end OwlCore
