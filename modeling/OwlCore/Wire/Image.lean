import OwlCore.Anonymous.Graph
import OwlCore.Wire.Table

/-!
# Wire images

An image is a header of 96 octets, a directory with 72 octets for each section, and the sections
at multiples of eight. `_assemble` writes an image, `validate_wire` checks the framing and
digests of any byte string. Deadlines and cancellation are left out.
-/
namespace OwlCore

inductive SectionKind where
  | strings | iris | entities | literals | anonymous | sequences | annotations | terms | axioms | documents
  | imports | view | origins | footer | swrl | viewProvenance | encodedStructuralV1 | encodedStructuralV2
  deriving DecidableEq, Repr

namespace SectionKind

def code : SectionKind → Nat
  | .strings => 1
  | .iris => 2
  | .entities => 3
  | .literals => 4
  | .anonymous => 5
  | .sequences => 6
  | .annotations => 7
  | .terms => 8
  | .axioms => 9
  | .documents => 10
  | .imports => 11
  | .view => 12
  | .origins => 13
  | .footer => 14
  | .swrl => 0x8001
  | .viewProvenance => 0x8002
  | .encodedStructuralV1 => 0x8003
  | .encodedStructuralV2 => 0x8004

/-- `REQUIRED_SECTIONS`. -/
def required : List SectionKind :=
  [.strings, .iris, .entities, .literals, .anonymous, .sequences, .annotations, .terms, .axioms, .documents,
    .imports, .view, .origins, .footer]

/-- `KNOWN_OPTIONAL_SECTIONS`. -/
def knownOptional : List SectionKind := [.swrl, .viewProvenance, .encodedStructuralV1, .encodedStructuralV2]

def all : List SectionKind := required ++ knownOptional

def ofCode? (value : Nat) : Option SectionKind := all.find? fun kind => kind.code = value

/-- `SECTION_SCHEMAS`. -/
def schema : SectionKind → Nat
  | .encodedStructuralV2 => 2
  | _ => 1

end SectionKind

/-- `MAGIC`: the text PYOCORE and a zero octet. -/
def wireMagic : Bytes := [0x50, 0x59, 0x4f, 0x43, 0x4f, 0x52, 0x45, 0]

def wireMajor : Nat := 1

def wireMinor : Nat := 2

def modelSchema : Nat := 2

def canonicalProfile : Nat := 1

def headerSize : Nat := 96

def directoryEntrySize : Nat := 72

def sectionRequired : Nat := 1

def sectionOptional : Nat := 2

/-- `KNOWN_FEATURE_FLAGS`: the flag of SWRL rules only. -/
def knownFeatureFlags : Nat := 1

def maxTableId : Nat := 0xFFFFFFFF

def zeros (size : Nat) : Bytes := List.replicate size 0

def crcShift (crc : Nat) : Nat := (crc >>> 1) ^^^ (if crc &&& 1 = 1 then 0x82F63B78 else 0)

def crc32c (data : Bytes) : Nat :=
  (data.foldl (fun crc byte => crcShift^[8] (crc ^^^ byte.toNat)) 0xFFFFFFFF) ^^^ 0xFFFFFFFF

/-- The fields of `HEADER_STRUCT`. -/
structure RawHeader where
  magic : Bytes
  major : Nat
  minor : Nat
  headerLength : Nat
  featureFlags : Nat
  sectionCount : Nat
  modelSchema : Nat
  canonicalProfile : Nat
  totalLength : Nat
  directoryOffset : Nat
  directoryLength : Nat
  fileDigest : Bytes
  headerCrc : Nat
  reserved : Nat

namespace RawHeader

def leading (header : RawHeader) : List (Nat × Nat) :=
  [(2, header.major), (2, header.minor), (4, header.headerLength), (4, header.featureFlags),
    (4, header.sectionCount), (4, header.modelSchema), (4, header.canonicalProfile), (8, header.totalLength),
    (8, header.directoryOffset), (8, header.directoryLength)]

def pack (header : RawHeader) : Bytes :=
  header.magic ++ packUints header.leading ++ header.fileDigest ++
    packUints [(4, header.headerCrc), (4, header.reserved)]

def unpack (data : Bytes) : RawHeader where
  magic := slice data 0 8
  major := uintAt data 8 2
  minor := uintAt data 10 2
  headerLength := uintAt data 12 4
  featureFlags := uintAt data 16 4
  sectionCount := uintAt data 20 4
  modelSchema := uintAt data 24 4
  canonicalProfile := uintAt data 28 4
  totalLength := uintAt data 32 8
  directoryOffset := uintAt data 40 8
  directoryLength := uintAt data 48 8
  fileDigest := slice data 56 88
  headerCrc := uintAt data 88 4
  reserved := uintAt data 92 4

end RawHeader

namespace DirectoryEntry

/-- The integers of `DIRECTORY_STRUCT`. -/
def leading (entry : DirectoryEntry) : List (Nat × Nat) :=
  [(2, entry.kind), (2, entry.flags), (4, entry.schema), (8, entry.offset), (8, entry.storedLength),
    (8, entry.decodedLength), (8, entry.rowCount)]

def pack (entry : DirectoryEntry) : Bytes := packUints entry.leading ++ entry.digest

def unpack (data : Bytes) (position : Nat) : DirectoryEntry where
  kind := uintAt data position 2
  flags := uintAt data (position + 2) 2
  schema := uintAt data (position + 4) 4
  offset := uintAt data (position + 8) 8
  storedLength := uintAt data (position + 16) 8
  decodedLength := uintAt data (position + 24) 8
  rowCount := uintAt data (position + 32) 8
  digest := slice data (position + 40) (position + 72)

end DirectoryEntry

/-- The data with its file digest and header checksum set to zero. -/
def zeroed (data : Bytes) : Bytes := data.take 56 ++ zeros 36 ++ data.drop 92

section

variable (hash : Hash)

def align (value : Nat) : Nat := (value + 7) / 8 * 8

def sectionEntry (offset : Nat) (kind : SectionKind) (section_ : Bytes) : DirectoryEntry where
  kind := kind.code
  flags := if kind ∈ SectionKind.required then sectionRequired else sectionOptional
  schema := kind.schema
  offset := offset
  storedLength := section_.length
  decodedLength := section_.length
  rowCount := uintAt section_ 0 8
  digest := hash.digest section_

/-- The directory of sections that are laid out from `cursor` on. -/
def layoutEntries : Nat → List (SectionKind × Bytes) → List DirectoryEntry
  | _, [] => []
  | cursor, (kind, section_) :: rest =>
    sectionEntry hash (align cursor) kind section_ :: layoutEntries (align cursor + section_.length) rest

def layoutEnd : Nat → List (SectionKind × Bytes) → Nat
  | cursor, [] => cursor
  | cursor, (_, section_) :: rest => layoutEnd (align cursor + section_.length) rest

/-- What follows position `cursor`: the sections with zeros in front of them. -/
def layoutBody : Nat → List (SectionKind × Bytes) → Bytes
  | _, [] => []
  | cursor, (_, section_) :: rest =>
    zeros (align cursor - cursor) ++ section_ ++ layoutBody (align cursor + section_.length) rest

/-- The header before the checksum and the digest are known. -/
def plainHeader (featureFlags minor sectionCount totalLength : Nat) : RawHeader where
  magic := wireMagic
  major := wireMajor
  minor := minor
  headerLength := headerSize
  featureFlags := featureFlags
  sectionCount := sectionCount
  modelSchema := modelSchema
  canonicalProfile := canonicalProfile
  totalLength := totalLength
  directoryOffset := headerSize
  directoryLength := sectionCount * directoryEntrySize
  fileDigest := zeros 32
  headerCrc := 0
  reserved := 0

/-- `_assemble` of the sections in the order of their codes; the buffer with the parts written into it
is their concatenation with zeros between them. -/
def assemble (limits : ParseLimits) (ordered : List (SectionKind × Bytes)) (featureFlags minor : Nat) :
    Except Error Bytes := do
  if wireMinor < minor then .error (.valueError "wire minor must be supported by this encoder")
  else
    let directoryEnd := headerSize + ordered.length * directoryEntrySize
    let cursor := align directoryEnd
    let total := layoutEnd cursor ordered
    enforceLimit "max_wire_bytes" total limits.maxWireBytes
    enforceLimit "max_temporary_bytes" total limits.maxTemporaryBytes
    if maxsize < total then .error .memoryError
    else
      let plain := plainHeader featureFlags minor ordered.length total
      let body := (layoutEntries hash cursor ordered).flatMap DirectoryEntry.pack ++
        zeros (cursor - directoryEnd) ++ layoutBody cursor ordered
      let checked := { plain with headerCrc := crc32c (zeroed plain.pack) }
      .ok ({ checked with fileDigest := hash.digest (zeroed (checked.pack ++ body)) }.pack ++ body)

/-- The sections of a map from kinds to row lists as `_assemble` orders them. -/
def orderedSections (sections : SectionKind → Option (List Bytes)) : List (SectionKind × Bytes) :=
  SectionKind.all.filterMap fun kind => (sections kind).map fun rows => (kind, encodeTable rows)

end

structure WireImage where
  header : RawHeader
  entries : List DirectoryEntry
  tables : List TableView

def WireImage.table (image : WireImage) (kind : SectionKind) : Option TableView :=
  image.tables.find? fun table => table.kind = kind.code

section

variable (hash : Hash) (limits : ParseLimits) (data : Bytes)

def checkHeader (header : RawHeader) : Except Error Unit := do
  reject (header.magic ≠ wireMagic) (corrupt "invalid PYOCORE magic")
  reject (header.major ≠ wireMajor) (.wireVersion "unsupported PYOCORE major version")
  reject (header.headerLength ≠ headerSize) (.wireVersion "unsupported PYOCORE header layout")
  reject (header.modelSchema ≠ modelSchema) (.wireVersion "unsupported model schema")
  reject (header.canonicalProfile ≠ canonicalProfile) (.wireVersion "unsupported canonical profile")
  reject (header.featureFlags ||| knownFeatureFlags ≠ knownFeatureFlags)
    (.wireVersion "unknown required wire feature flag")
  reject (header.reserved ≠ 0) (.wireVersion "nonzero reserved wire header field")
  reject (header.totalLength ≠ data.length) (corrupt "wire total length does not match the source")
  reject (limits.maxWireRows < header.sectionCount ∨ maxTableId < header.sectionCount)
    (.wireLimit "wire section count exceeds limits")
  reject (header.sectionCount * directoryEntrySize ≠ header.directoryLength)
    (corrupt "wire directory length/count mismatch")
  reject (header.directoryOffset ≠ headerSize) (corrupt "wire directory is not immediately after the header")
  reject (header.totalLength < header.directoryOffset + header.directoryLength)
    (corrupt "wire directory exceeds file bounds")
  reject (crc32c (zeroed (data.take headerSize)) ≠ header.headerCrc) (corrupt "wire header CRC32C mismatch")

def checkKnownKind (minor : Nat) (entry : DirectoryEntry) : Option SectionKind → Except Error Unit
  | none => .ok ()
  | some kind => do
    reject (entry.schema ≠ kind.schema ∧ (entry.flags = sectionRequired ∨ kind ∈ SectionKind.knownOptional))
      (.wireVersion "unsupported wire section schema")
    reject ((kind = .viewProvenance ∨ kind = .encodedStructuralV1) ∧ minor < 1)
      (.wireVersion "optional wire section requires minor 1")
    reject (kind = .encodedStructuralV2 ∧ minor < 2) (.wireVersion "ENCODED_STRUCTURAL_V2 requires wire minor 2")
    reject (kind = .encodedStructuralV1) (.wireVersion "ENCODED_STRUCTURAL_V1 is incompatible with model schema 2")

def checkEntry (header : RawHeader) (entry : DirectoryEntry) : Except Error Unit := do
  reject (entry.flags ≠ sectionRequired ∧ entry.flags ≠ sectionOptional) (.wireVersion "unknown section flags")
  let known := SectionKind.ofCode? entry.kind
  reject (entry.flags = sectionRequired ∧ ¬known.any (· ∈ SectionKind.required) = true)
    (.wireVersion "unknown required wire section")
  reject (entry.flags ≠ sectionRequired ∧ known.any (· ∈ SectionKind.required) = true)
    (.wireVersion "required section marked optional")
  checkKnownKind header.minor entry known
  reject (entry.decodedLength ≠ entry.storedLength)
    (.wireVersion "compressed required data is unsupported in wire v1")
  reject (entry.offset % 8 ≠ 0) (corrupt "wire section offset is not 8-byte aligned")
  reject (entry.offset < header.directoryOffset + header.directoryLength)
    (corrupt "wire section overlaps header or directory")
  reject (header.totalLength < entry.stop) (corrupt "wire section exceeds file bounds")
  reject (limits.maxWireRows < entry.rowCount ∨ maxTableId < entry.rowCount)
    (.wireLimit "wire row count exceeds limits")

def checkEntries (header : RawHeader) : Int → List DirectoryEntry → Except Error Unit
  | _, [] => .ok ()
  | previousKind, entry :: rest => do
    reject ((entry.kind : Int) ≤ previousKind) (corrupt "wire section directory is not in strict kind order")
    checkEntry limits header entry
    checkEntries header entry.kind rest

def requiredSeen (entries : List DirectoryEntry) : Bool :=
  SectionKind.required.all fun kind =>
    entries.any fun entry => entry.flags = sectionRequired && entry.kind = kind.code

/-- The loop over the entries in the order of their offsets. -/
def checkGaps : Nat → List DirectoryEntry → Except Error Unit
  | cursor, [] => reject ((data.drop cursor).any (· ≠ 0) = true) (corrupt "wire trailing padding is not zero")
  | cursor, entry :: rest => do
    reject (entry.offset < cursor) (corrupt "wire sections overlap")
    reject ((slice data cursor entry.offset).any (· ≠ 0) = true) (corrupt "wire alignment padding is not zero")
    checkGaps entry.stop rest

/-- The digest and the table of a section; a section of an unknown kind has no table. -/
def validateSection (entry : DirectoryEntry) : Except Error (Option TableView) := do
  let section_ := slice data entry.offset entry.stop
  reject (hash.digest section_ ≠ entry.digest) (corrupt "wire section SHA-256 mismatch")
  match SectionKind.ofCode? entry.kind with
  | none => .ok none
  | some _ => do
    validateTable section_ entry.rowCount
    .ok (some (.ofEntry data entry))

def validateWire (verify : Bool) : Except Error WireImage := do
  reject (data.length < headerSize) (corrupt "wire file is shorter than the fixed header")
  reject (limits.maxWireBytes < data.length) (.wireLimit "wire file exceeds max_wire_bytes")
  let header := RawHeader.unpack data
  checkHeader limits data header
  let entries := (List.range header.sectionCount).map fun index =>
    DirectoryEntry.unpack data (header.directoryOffset + index * directoryEntrySize)
  checkEntries limits header (-1) entries
  reject (requiredSeen entries = false) (.wireVersion "missing required wire section")
  checkGaps data (header.directoryOffset + header.directoryLength)
    (entries.insertionSort fun a b => a.offset ≤ b.offset)
  let tables ← entries.mapM (validateSection hash data)
  reject (verify = true ∧ hash.digest (zeroed data) ≠ header.fileDigest) (corrupt "wire file SHA-256 mismatch")
  .ok { header, entries, tables := tables.filterMap id }

end

end OwlCore
