import OwlCore.Wire.Reference

/-!
# The wire cache

A snapshot is written under its structural fingerprint and the digest of its image unless a
valid image is there, and the entry is then opened. `publish` compares the structural
fingerprint of what it finds, `open` the digest as well. No other writer runs, and no operation
on files fails.
-/
namespace OwlCore

open Fallible

/-- The contents of the recognized entries, by the digests in their names, and of the quarantine. -/
structure WireCache where
  entries : Bytes → Bytes → Option Bytes
  quarantined : List Bytes

/-- Subclasses of `WireError`. -/
def Error.isWireError : Error → Bool
  | .wireCorruption _ | .wireVersion _ | .wireLimit _ => true
  | _ => false

namespace WireCache

def setEntry (cache : WireCache) (structural wire : Bytes) (content : Option Bytes) : WireCache :=
  { cache with entries := fun s w => if s = structural ∧ w = wire then content else cache.entries s w }

def quarantine (cache : WireCache) (structural wire : Bytes) : WireCache :=
  { cache.setEntry structural wire none with
    quarantined := cache.quarantined ++ (cache.entries structural wire).toList }

section

variable (hash : Hash) (limits : ParseLimits) (columns : EncodedColumns) (decode : Bytes → Except Error Unit)

/-- `_publish_bytes`: the bytes replace the entry after they were validated twice; `decode` is
`open_snapshot` without mapping. -/
def publishBytes (cache : WireCache) (structural wire encoded : Bytes) : Except Error Bytes × WireCache :=
  match (do let _ ← validateReferenceBuffer hash encoded; decode encoded) with
  | .ok _ => (.ok wire, cache.setEntry structural wire (some encoded))
  | .error error => (.error error, cache)

/-- `publish`, with the digest of the entry. -/
def publish (cache : WireCache) (structural : Fingerprint) (source : WireSource) : Except Error Bytes × WireCache :=
  match encodeSnapshot hash limits columns source with
  | .error error => (.error error, cache)
  | .ok encoded =>
    let wire := slice encoded 56 88
    let replace := publishBytes hash decode (cache.quarantine structural.digest wire) structural.digest wire encoded
    match cache.entries structural.digest wire with
    | none => publishBytes hash decode cache structural.digest wire encoded
    | some content =>
      match validateBytes hash limits columns content true true with
      | .error error => if error.isWireError then replace else (.error error, cache)
      | .ok existing => if existing.summary.structural ≠ structural then replace else (.ok wire, cache)

/-- `open` with a wire fingerprint. -/
def openEntry (cache : WireCache) (structural : Fingerprint) (wire : Bytes) : Except Error InspectedWire × WireCache :=
  let missing := (.error (.keyError (hexdigest structural.digest)), cache.quarantine structural.digest wire)
  match cache.entries structural.digest wire with
  | none => missing
  | some content =>
    match validateBytes hash limits columns content true true with
    | .ok opened =>
      if opened.summary.structural ≠ structural ∨ opened.image.header.fileDigest ≠ wire then missing
      else (.ok opened, cache)
    | .error (.wireCorruption _) | .error (.wireVersion _) => missing
    | .error error => (.error error, cache)

def getOrPublish (cache : WireCache) (structural : Fingerprint) (source : WireSource) :
    Except Error InspectedWire × WireCache :=
  match publish hash limits columns decode cache structural source with
  | (.error error, cache) => (.error error, cache)
  | (.ok wire, cache) => openEntry hash limits columns cache structural wire

/-- The entry holds a valid image of the same structure under a digest that is not its own. -/
def Misnamed (cache : WireCache) (structural : Fingerprint) (wire : Bytes) : Prop :=
  ∃ content existing, cache.entries structural.digest wire = some content ∧
    validateBytes hash limits columns content true true = .ok existing ∧
    existing.summary.structural = structural ∧ existing.image.header.fileDigest ≠ wire

end

variable {hash : Hash} {limits : ParseLimits} {columns : EncodedColumns} {decode : Bytes → Except Error Unit}
  {cache : WireCache} {structural : Fingerprint} {source : WireSource} {encoded : Bytes}

@[simp] theorem entries_setEntry (wire : Bytes) (content : Option Bytes) :
    (cache.setEntry structural.digest wire content).entries structural.digest wire = content := by
  simp [setEntry]

/-- `publish` keeps a misnamed entry, and `open` moves it away and fails. -/
theorem Misnamed.getOrPublish_eq (hencode : encodeSnapshot hash limits columns source = .ok encoded)
    (h : Misnamed hash limits columns cache structural (slice encoded 56 88)) :
    getOrPublish hash limits columns decode cache structural source =
      (.error (.keyError (hexdigest structural.digest)), cache.quarantine structural.digest (slice encoded 56 88)) := by
  obtain ⟨content, existing, hentry, hvalid, hstructural, hdigest⟩ := h
  simp [getOrPublish, publish, openEntry, hencode, hentry, hvalid, hstructural, hdigest]

/-- The view was encoded to an image of itself that passes the validation of the publication. -/
structure Encodes (hash : Hash) (limits : ParseLimits) (columns : EncodedColumns) (decode : Bytes → Except Error Unit)
    (structural : Fingerprint) (source : WireSource) (encoded : Bytes) : Prop where
  encode : encodeSnapshot hash limits columns source = .ok encoded
  reference : (validateReferenceBuffer hash encoded).isOk
  decode : decode encoded = .ok ()
  opens : ∃ opened, validateBytes hash limits columns encoded true true = .ok opened ∧
    opened.summary.structural = structural

/-- What `open` returns is the image that was asked for. -/
def Serves (hash : Hash) (structural : Fingerprint) (encoded : Bytes) (result : Except Error InspectedWire) : Prop :=
  ∃ opened, result = .ok opened ∧ opened.summary.structural = structural ∧
    opened.image.header.fileDigest = hash.digest (zeroed encoded)

section

variable (h : Encodes hash limits columns decode structural source encoded)

include h

theorem Encodes.publishBytes_eq (cache : WireCache)
    (wire : Bytes) : publishBytes hash decode cache structural.digest wire encoded =
      (.ok wire, cache.setEntry structural.digest wire (some encoded)) := by
  obtain ⟨validation, hvalidation⟩ := exists_of_isOk h.reference
  simp [publishBytes, hvalidation, h.decode, bind, Except.bind]

theorem Encodes.fileDigest :
    slice encoded 56 88 = hash.digest (zeroed encoded) := by
  obtain ⟨opened, hopened, -⟩ := h.opens
  have haccepted := validateWire_eq_ok.mp (validateBytes_eq_ok.mp hopened).1
  rw [haccepted.digest rfl, haccepted.header_eq]
  rfl

theorem Encodes.openEntry_written (cache : WireCache) :
    ∃ opened, Serves hash structural encoded (.ok opened) ∧
      openEntry hash limits columns (cache.setEntry structural.digest (slice encoded 56 88) (some encoded)) structural
        (slice encoded 56 88) =
      (.ok opened, cache.setEntry structural.digest (slice encoded 56 88) (some encoded)) := by
  obtain ⟨opened, hopened, hstructural⟩ := h.opens
  have haccepted := validateWire_eq_ok.mp (validateBytes_eq_ok.mp hopened).1
  have hdigest : opened.image.header.fileDigest = slice encoded 56 88 := by rw [haccepted.header_eq]; rfl
  refine ⟨opened, ⟨opened, rfl, hstructural, hdigest.trans h.fileDigest⟩, ?_⟩
  simp [openEntry, hopened, hstructural, hdigest]

end

end WireCache

/-- The image of the ontology without axioms is accepted, and a snapshot mapped from it is encoded. -/
theorem exists_countedImage_zero : ∃ inspected,
    validateBytes sha256 defaultLimits noColumns (countedImage 0) true true = .ok inspected ∧
      inspected.summary.structural = ⟨1, zeros 32⟩ ∧
      encodeSnapshot sha256 defaultLimits noColumns (.mapped (countedImage 0)) = .ok (countedImage 0) ∧
      (validateReferenceBuffer sha256 (countedImage 0)).isOk := by
  have hframable := framable_countedSections (.inl rfl : 0 = 0 ∨ 0 = 1)
  obtain ⟨data, inspected, hassemble, hvalid, htest⟩ := hframable.exists_inspected
    (p := fun inspected => decide (inspected.summary.structural = ⟨1, zeros 32⟩))
    (show (inspectImage defaultLimits (assembledImage sha256 (countedSections 0) 0 2) noColumns true).toOption.any _ by
      decide +kernel)
  have hdata : countedImage 0 = data := by rw [countedImage, hassemble]; rfl
  have htemporary : data.length ≤ defaultLimits.maxTemporaryBytes := by
    have hbytes := (validateWire_eq_ok.mp (validateBytes_eq_ok.mp hvalid).1).bytes_le
    exact hbytes
  rw [hdata]
  refine ⟨inspected, hvalid, of_decide_eq_true htest, ?_, (hframable.reference_isOk hassemble).1⟩
  exact encodeSnapshot_mapped hvalid htemporary

def oneEntry (structural wire content : Bytes) : WireCache := WireCache.setEntry ⟨fun _ _ => none, []⟩ structural wire (some content)

end OwlCore
