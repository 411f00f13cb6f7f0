import OwlCore.Wire.Inspect

/-!
# Publication of encoded snapshots

`validate_reference_buffer` checks the framing of an image a second time with rules of its own.
It accepts what `validate_wire` accepts exactly if the last section ends the file. A mapped
snapshot is encoded by copying its image, zeros behind the last section included.
-/
namespace OwlCore

open Fallible List

/-- `_REQUIRED`. -/
def referenceRequired : List Nat := [1, 2, 3, 4, 5, 6, 7, 8, 9, 10, 11, 12, 13, 14]

/-- `_KNOWN_TABLES`. -/
def referenceTables : List Nat := referenceRequired ++ [0x8001, 0x8002, 0x8003]

structure ReferenceValidation where
  length : Nat
  fileDigest : Bytes
  sectionCount : Nat

section

variable (hash : Hash) (data : Bytes)

/-- One round of the loop of `_validate_table`; it compares single rows too, with nothing. -/
def referenceRow (count : Nat) (state : Nat × Option Bytes) (index : Nat) : Except Error (Nat × Option Bytes) := do
  let offset := TableView.rowOffset data index
  reject (offset < state.1 ∨ data.length - 8 * (count + 2) < offset ∨ index = 0 ∧ offset ≠ 0)
    (corrupt "reference validator table offsets mismatch")
  if index < count then
    let row := storedRow data count index
    reject (state.2.any (row ≤ ·) = true) (corrupt "reference validator table order mismatch")
    .ok (offset, some row)
  else .ok (offset, state.2)

/-- `_validate_table` of the second validator. -/
def referenceTable (count : Nat) : Except Error Unit := do
  reject (data.length < 16) (corrupt "reference validator found a truncated table")
  reject (uintAt data 0 8 ≠ count ∨ data.length < 8 * (count + 2)) (corrupt "reference validator table count mismatch")
  let state ← (List.range (count + 1)).foldlM (referenceRow data count) (0, none)
  reject (state.1 ≠ data.length - 8 * (count + 2)) (corrupt "reference validator table coverage mismatch")

def referenceEntry (directoryEnd : Nat) (entry : DirectoryEntry) : Except Error Unit := do
  reject (entry.flags ≠ 1 ∧ entry.flags ≠ 2) (corrupt "reference validator found a noncanonical directory")
  reject (entry.flags = 1 ∧ entry.kind ∉ referenceRequired)
    (.wireVersion "reference validator found unknown required section")
  reject (entry.schema ≠ 1 ∧ (entry.flags = 1 ∨ entry.kind ∈ referenceTables))
    (.wireVersion "reference validator found unsupported section schema")
  reject (entry.offset % 8 ≠ 0 ∨ entry.offset < directoryEnd ∨ data.length < entry.stop ∨
    entry.decodedLength ≠ entry.storedLength) (corrupt "reference validator found invalid section bounds")
  let section_ := slice data entry.offset entry.stop
  reject (hash.digest section_ ≠ entry.digest) (corrupt "reference validator section digest mismatch")
  if entry.kind ∈ referenceTables then referenceTable section_ entry.rowCount else .ok ()

def referenceEntries (directoryEnd : Nat) : Int → List DirectoryEntry → Except Error Unit
  | _, [] => .ok ()
  | previousKind, entry :: rest => do
    reject ((entry.kind : Int) ≤ previousKind) (corrupt "reference validator found a noncanonical directory")
    referenceEntry hash data directoryEnd entry
    referenceEntries directoryEnd entry.kind rest

def referenceGaps : Nat → List (Nat × Nat) → Except Error Unit
  | cursor, [] => reject (cursor ≠ data.length) (corrupt "reference validator trailing bytes")
  | cursor, (offset, stop) :: rest => do
    reject (offset < cursor ∨ (slice data cursor offset).any (· ≠ 0) = true)
      (corrupt "reference validator overlap/nonzero padding")
    referenceGaps stop rest

/-- `validate_reference_buffer`. Only the first two components of the sorted tuples are read. -/
def validateReferenceBuffer : Except Error ReferenceValidation := do
  reject (data.length < 96) (corrupt "reference validator found a truncated header")
  let header := RawHeader.unpack data
  reject (header.magic ≠ wireMagic) (corrupt "reference validator found invalid magic")
  reject (header.major ≠ 1 ∨ header.headerLength ≠ 96 ∨ header.modelSchema ≠ 2 ∨ header.canonicalProfile ≠ 1 ∨
    header.reserved ≠ 0) (.wireVersion "reference validator found unsupported wire metadata")
  reject (header.totalLength ≠ data.length) (corrupt "reference validator total length mismatch")
  reject (header.directoryOffset ≠ 96 ∨ header.directoryLength ≠ header.sectionCount * 72)
    (corrupt "reference validator directory mismatch")
  reject (data.length < 96 + header.directoryLength) (corrupt "reference validator found a truncated directory")
  reject (crc32c (zeroed (data.take 96)) ≠ header.headerCrc) (corrupt "reference validator header CRC mismatch")
  let entries := directory data header
  referenceEntries hash data (96 + header.directoryLength) (-1) entries
  reject ((referenceRequired.all fun kind => entries.any fun entry => entry.flags = 1 && entry.kind = kind) = false)
    (.wireVersion "reference validator required-section mismatch")
  referenceGaps data (96 + header.directoryLength)
    ((entries.map fun entry => (entry.offset, entry.stop)).insertionSort fun a b => toLex a ≤ toLex b)
  reject (hash.digest (zeroed data) ≠ header.fileDigest) (corrupt "reference validator file digest mismatch")
  .ok ⟨data.length, header.fileDigest, header.sectionCount⟩

end

section

variable {hash : Hash} {limits : ParseLimits} {data : Bytes} {count : Nat}

def referenceState (data : Bytes) (count : Nat) : Nat → Nat × Option Bytes
  | 0 => (0, none)
  | i + 1 => (TableView.rowOffset data i, if count = 0 then none else some (storedRow data count (min i (count - 1))))

theorem Tiled.referenceRow_eq (h : Tiled data count) (hi : i < count + 1) :
    referenceRow data count (referenceState data count i) i = .ok (referenceState data count (i + 1)) := by
  have hle := h.rowOffset_le (Nat.lt_succ_iff.mp hi)
  have hoffsets : ¬(TableView.rowOffset data i < (referenceState data count i).1 ∨
      data.length - 8 * (count + 2) < TableView.rowOffset data i ∨ i = 0 ∧ TableView.rowOffset data i ≠ 0) := by
    cases i with
    | zero => simpa [referenceState] using ⟨hle, h.first⟩
    | succ i => simpa [referenceState] using ⟨h.mono i (by omega), hle⟩
  have hordered : i < count → (referenceState data count i).2.any (storedRow data count i ≤ ·) = false := by
    intro hi
    cases i with
    | zero => rfl
    | succ i =>
      have hmin : min i (count - 1) = i := by omega
      simpa [referenceState, show count ≠ 0 by omega, hmin] using h.ascending i hi
  rw [referenceRow, reject, if_neg hoffsets]
  change (if i < count then _ else _) = _
  split
  · rename_i hi
    have hmin : min i (count - 1) = i := by omega
    rw [reject, hordered hi, if_neg Bool.false_ne_true]
    change Except.ok _ = _
    simp [referenceState, show count ≠ 0 by omega, hmin]
  · obtain rfl : i = count := by omega
    cases i with
    | zero => rfl
    | succ i => simp [referenceState]

theorem Tiled.referenceTable_eq (h : Tiled data count) : referenceTable data count = .ok () := by
  have hheader := h.header
  have hround : ∀ i < count + 1, ∀ s, referenceRow data count (referenceState data count i) i = .ok s ↔
      True ∧ s = referenceState data count (i + 1) := fun i hi s => by simp [h.referenceRow_eq hi, eq_comm]
  have hloop := (foldlM_range_eq_ok hround).mpr ⟨fun _ _ => trivial, rfl⟩
  refine check_bind_eq_ok.mpr ⟨reject_eq_ok.mpr (by omega), check_bind_eq_ok.mpr ⟨reject_eq_ok.mpr ?_, ?_⟩⟩
  · simpa using ⟨h.count_eq, hheader⟩
  · exact bind_eq_ok.mpr ⟨_, hloop, reject_eq_ok.mpr (not_not.mpr h.last)⟩

theorem SectionKind.of_ofCode? (h : SectionKind.ofCode? value = some kind) :
    kind ∈ SectionKind.all ∧ kind.code = value := by
  have hcode := find?_some h
  exact ⟨mem_of_find?_eq_some h, of_decide_eq_true hcode⟩

/-- An entry that the first validator accepts passes the checks of the second one. -/
theorem EntryValid.referenceEntry_eq (h : EntryValid limits header entry) (htotal : header.totalLength = data.length)
    (hsection : validateSection hash data entry = .ok table) :
    referenceEntry hash data (header.directoryOffset + header.directoryLength) entry = .ok () := by
  have hinside := htotal ▸ h.inside
  obtain ⟨hdigest, htable⟩ := validateSection_eq_ok.mp hsection
  have hrequired : entry.flags = 1 → entry.kind ∈ referenceRequired := by
    intro hflags
    obtain ⟨kind, hkind, hmem⟩ := (Option.any_eq_true _ _).mp (h.required.mp hflags)
    rw [← (SectionKind.of_ofCode? hkind).2]
    have hcodes : ∀ kind ∈ SectionKind.required, kind.code ∈ referenceRequired := by decide
    exact hcodes kind (of_decide_eq_true hmem)
  have hknown : entry.kind ∈ referenceTables →
      ∃ kind, SectionKind.ofCode? entry.kind = some kind ∧ kind.schema = 1 := by
    have hcodes : ∀ value ∈ referenceTables,
        (SectionKind.ofCode? value).any (fun kind => decide (kind.schema = 1)) = true := by decide
    intro hmem
    obtain ⟨kind, hkind, hschema⟩ := (Option.any_eq_true _ _).mp (hcodes _ hmem)
    exact ⟨kind, hkind, of_decide_eq_true hschema⟩
  have hschema : entry.flags = 1 ∨ entry.kind ∈ referenceTables → entry.schema = 1 := by
    intro hcases
    have hmem : entry.kind ∈ referenceTables :=
      hcases.elim (fun hflags => mem_append_left _ (hrequired hflags)) id
    obtain ⟨kind, hkind, hone⟩ := hknown hmem
    have hcheck := h.known
    have hiff := h.required
    simp only [hkind, checkKnownKind, check_bind_eq_ok, reject_eq_ok, Option.any_some, decide_eq_true_eq] at hcheck hiff
    by_contra hne
    refine hcheck.1 ⟨hone ▸ hne, ?_⟩
    exact (mem_append.mp (SectionKind.of_ofCode? hkind).1).imp_left hiff.mpr
  simp only [referenceEntry, check_bind_eq_ok, reject_eq_ok]
  refine ⟨?_, by simpa using hrequired, ?_, ?_, by simpa using hdigest, ?_⟩
  · rintro ⟨hone, htwo⟩
    exact h.flags.elim hone htwo
  · rintro ⟨hne, hcases⟩
    exact hne (hschema hcases)
  · simpa using ⟨h.aligned, h.after, hinside, h.decoded⟩
  · split
    · rename_i hmem
      obtain ⟨kind, hkind, -⟩ := hknown hmem
      rcases htable with ⟨hnone, -⟩ | ⟨-, htiled, -⟩
      · rw [hkind] at hnone
        cases hnone
      · exact htiled.referenceTable_eq
    · rfl

theorem referenceEntries_eq_ok (hprevious : ∀ e ∈ entries, previous < e.kind) (hkinds : entries.Pairwise fun a b =>
    a.kind < b.kind) (hentries : ∀ e ∈ entries, referenceEntry hash data directoryEnd e = .ok ()) :
    referenceEntries hash data directoryEnd previous entries = .ok () := by
  induction entries generalizing previous with
  | nil => rfl
  | cons e rest ih =>
    obtain ⟨hfirst, hrest⟩ := pairwise_cons.mp hkinds
    simp only [referenceEntries, check_bind_eq_ok, reject_eq_ok, not_le]
    refine ⟨hprevious e (.head _), hentries e (.head _), ih ?_ hrest fun e he => hentries e (.tail _ he)⟩
    exact fun e he => Int.ofNat_lt.mpr (hfirst e he)

/-- Sections that pass the first loop over the gaps pass the second one if one of them ends with the data. -/
theorem referenceGaps_eq_ok (h : checkGaps data cursor entries = .ok ()) (hinside : ∀ e ∈ entries, e.stop ≤
    data.length) :
    referenceGaps data cursor (entries.map fun entry => (entry.offset, entry.stop)) = .ok () ↔
      entries = [] ∧ cursor = data.length ∨ ∃ e ∈ entries, e.stop = data.length := by
  induction entries generalizing cursor with
  | nil => simp [referenceGaps]
  | cons e rest ih =>
    simp only [checkGaps, check_bind_eq_ok, reject_eq_ok] at h
    obtain ⟨hcursor, hzero, h⟩ := h
    simp only [map_cons, referenceGaps, check_bind_eq_ok, reject_eq_ok, hcursor, hzero, not_false_eq_true,
      true_and, ih h fun e he => hinside e (.tail _ he), reduceCtorEq, false_and, false_or, mem_cons,
      exists_eq_or_imp]
    constructor
    · rintro (⟨-, hstop⟩ | hrest)
      · exact .inl hstop
      · exact .inr hrest
    · rintro (hstop | hrest)
      · cases rest with
        | nil => exact .inl ⟨rfl, hstop⟩
        | cons e' rest =>
          -- nothing but empty sections can follow the end of the data
          have hafter := (pairwise_of_checkGaps h).1 e' (.head _)
          have hle := hinside e' (.tail _ (.head _))
          have hoffset : e'.offset ≤ e'.stop := Nat.le_add_right _ _
          exact .inr ⟨e', .head _, by omega⟩
      · exact .inr hrest

theorem insertionSort_bounds {cursor : Nat} {entries : List DirectoryEntry}
    (h : checkGaps data cursor (entries.insertionSort fun a b => a.offset ≤ b.offset) = .ok ()) :
    ((entries.map fun entry => (entry.offset, entry.stop)).insertionSort fun a b => toLex a ≤ toLex b) =
      (entries.insertionSort fun a b => a.offset ≤ b.offset).map fun entry => (entry.offset, entry.stop) := by
  have hantisymm : ∀ a b : Nat × Nat, toLex a ≤ toLex b → toLex b ≤ toLex a → a = b :=
    fun a b hab hba => toLex.injective (le_antisymm hab hba)
  refine List.Perm.eq_of_pairwise (fun a b _ _ => hantisymm a b) (pairwise_insertionSort _ _) ?_ ?_
  · rw [pairwise_map]
    refine (pairwise_of_checkGaps h).2.imp fun {a b} hab => Prod.Lex.toLex_mono ⟨?_, ?_⟩
    · exact (Nat.le_add_right _ _).trans hab
    · exact hab.trans (Nat.le_add_right _ _)
  · exact (perm_insertionSort _ _).trans ((perm_insertionSort _ _).symm.map _)

/-- The second validator accepts an accepted image exactly if one of its sections ends the file. -/
theorem AcceptedImage.reference_iff {image : WireImage} (h : AcceptedImage hash limits data true image) :
    (validateReferenceBuffer hash data).isOk ↔ ∃ entry ∈ image.entries, entry.stop = data.length := by
  have hoffset := h.header.directoryOffset
  have hlength := h.header.directoryLength
  have hend := h.header.directoryEnd
  have htotal := h.header.totalLength
  obtain ⟨tables, htables, -⟩ := h.tables
  have hentries : referenceEntries hash data (96 + image.header.directoryLength) (-1) image.entries = .ok () := by
    refine referenceEntries_eq_ok (fun e _ => by omega) h.kinds fun e he => ?_
    obtain ⟨table, -, hsection⟩ := exists_of_mem_left htables he
    have hentry := (h.entries e he).referenceEntry_eq htotal hsection
    rwa [hoffset] at hentry
  have hrequired : (referenceRequired.all fun kind => image.entries.any fun entry =>
      entry.flags = 1 && entry.kind = kind) = true := h.required
  have hgaps := h.gaps
  rw [hoffset] at hgaps
  have hinside : ∀ e ∈ image.entries.insertionSort (fun a b => a.offset ≤ b.offset), e.stop ≤ data.length :=
    fun e he => htotal ▸ (h.entries e ((mem_insertionSort _).mp he)).inside
  have hne : image.entries.insertionSort (fun a b => a.offset ≤ b.offset) ≠ [] := by
    intro hnil
    have hperm := (perm_insertionSort (fun a b => a.offset ≤ b.offset) image.entries).symm
    rw [hnil, perm_nil] at hperm
    rw [hperm] at hrequired
    exact absurd hrequired (by decide)
  have hiff := referenceGaps_eq_ok hgaps hinside
  rw [← insertionSort_bounds hgaps] at hiff
  simp only [hne, false_and, false_or, mem_insertionSort] at hiff
  rw [← hiff]
  constructor
  · intro hok
    obtain ⟨validation, hvalidation⟩ := exists_of_isOk hok
    simp only [validateReferenceBuffer, check_bind_eq_ok, ← h.header_eq, ← h.entries_eq] at hvalidation
    exact hvalidation.2.2.2.2.2.2.2.2.2.1
  · intro hsorted
    have hvalid : validateReferenceBuffer hash data =
        .ok ⟨data.length, image.header.fileDigest, image.header.sectionCount⟩ := by
      simp only [validateReferenceBuffer, check_bind_eq_ok, reject_eq_ok, ← h.header_eq, ← h.entries_eq]
      refine ⟨Nat.not_lt.mpr h.header_le, by simpa using h.header.magic, ?_, by simpa using htotal, ?_, ?_,
        not_not.mpr h.header.headerCrc, hentries, by simpa using hrequired, hsorted, by simpa using h.digest rfl, trivial⟩
      · simpa using ⟨h.header.major, h.header.headerLength, h.header.modelSchema, h.header.canonicalProfile,
          h.header.reserved⟩
      · simpa using ⟨hoffset, hlength.symm⟩
      · rwa [Nat.not_lt, ← htotal, ← show image.header.directoryOffset = 96 from hoffset]
    rw [hvalid]
    rfl

end

/-- What `encode_snapshot` collects from a view that is not mapped: the rows of each section are
`sorted(set(values))`. -/
structure CollectedSections where
  rows : SectionKind → Option (List Bytes)
  featureFlags : Nat
  required : ∀ kind ∈ SectionKind.required, (rows kind).isSome = true
  ascending : ∀ kind values, rows kind = some values → values.Pairwise (· < ·)
  encodedStructuralV1 : rows .encodedStructuralV1 = none
  known_flags : featureFlags ||| knownFeatureFlags = knownFeatureFlags

/-- A view as `encode_snapshot` finds it. -/
inductive WireSource where
  | collected (sections : CollectedSections)
  | mapped (image : Bytes)

section

variable {hash : Hash} {limits : ParseLimits} {columns : EncodedColumns}

/-- `encode_snapshot`; the image of a mapped snapshot is validated and copied. -/
def encodeSnapshot (hash : Hash) (limits : ParseLimits) (columns : EncodedColumns) : WireSource → Except Error Bytes
  | .collected sections => assemble hash limits (orderedSections sections.rows) sections.featureFlags wireMinor
  | .mapped image => do
    enforceLimit "max_wire_bytes" image.length limits.maxWireBytes
    enforceLimit "max_temporary_bytes" image.length limits.maxTemporaryBytes
    let _ ← validateBytes hash limits columns image true true
    .ok image

theorem encodeSnapshot_mapped (h : validateBytes hash limits columns image true true = .ok inspected) (htemporary :
    image.length ≤ limits.maxTemporaryBytes) :
    encodeSnapshot hash limits columns (.mapped image) = .ok image := by
  have hbytes := (validateWire_eq_ok.mp (validateBytes_eq_ok.mp h).1).bytes_le
  refine check_bind_eq_ok.mpr ⟨enforceLimit_ok.mpr hbytes, check_bind_eq_ok.mpr ⟨enforceLimit_ok.mpr htemporary, ?_⟩⟩
  exact bind_eq_ok.mpr ⟨inspected, h, rfl⟩

/-- The number of rows of every collected section can be written as a table id. -/
def WireSource.Numbered : WireSource → Prop
  | .collected sections => ∀ kind values, sections.rows kind = some values → values.length ≤ maxTableId
  | .mapped _ => True

def EndsWithSection (data : Bytes) : Prop := ∃ entry ∈ directory data (RawHeader.unpack data), entry.stop = data.length

instance decidableEndsWithSection (data : Bytes) : Decidable (EndsWithSection data) :=
  inferInstanceAs (Decidable (∃ entry ∈ directory data (RawHeader.unpack data), _))

theorem exists_stop_layoutEntries (hash : Hash) (cursor : Nat) (h : ordered ≠ []) :
    ∃ entry ∈ layoutEntries hash cursor ordered, entry.stop = layoutEnd cursor ordered := by
  induction ordered generalizing cursor with
  | nil => exact absurd rfl h
  | cons item rest ih =>
    cases rest with
    | nil => exact ⟨_, .head _, rfl⟩
    | cons next rest =>
      obtain ⟨entry, hentry, hstop⟩ := ih (align cursor + item.2.length) (by simp)
      exact ⟨entry, .tail _ hentry, hstop⟩

def ParseLimits.withAllRows (limits : ParseLimits) : ParseLimits :=
  { limits with
    maxWireRows := maxTableId
    positive := by
      obtain ⟨h₁, h₂, h₃, h₄, h₅, h₆, h₇, -, hrest⟩ := limits.positive
      exact ⟨h₁, h₂, h₃, h₄, h₅, h₆, h₇, by decide, hrest⟩ }

theorem CollectedSections.framable {sections : CollectedSections} (hrows : (WireSource.collected sections).Numbered)
    {data : Bytes} (h : encodeSnapshot hash limits columns (.collected sections) = .ok data) :
    Framable limits.withAllRows sections.rows sections.featureFlags wireMinor := by
  simp only [encodeSnapshot, assemble, wireMinor, lt_irrefl, if_false, check_bind_eq_ok, guard_eq_ok,
    enforceLimit_ok] at h
  refine ⟨sections.required, sections.ascending, sections.known_flags, le_rfl, .inr (by decide),
    sections.encodedStructuralV1, .inr le_rfl, ⟨h.1, h.2.1, Nat.not_lt.mp h.2.2.1⟩, ?_, fun kind values hvalues =>
    ⟨hrows kind values hvalues, hrows kind values hvalues⟩⟩
  exact (length_orderedSections_le _).trans (show 18 ≤ maxTableId by decide)

theorem Framable.reference_isOk {sections : SectionKind → Option (List Bytes)} {featureFlags minor : Nat} {data : Bytes}
    (h : Framable limits sections featureFlags minor)
    (hassemble : assemble hash limits (orderedSections sections) featureFlags minor = .ok data) :
    (validateReferenceBuffer hash data).isOk ∧ EndsWithSection data := by
  obtain ⟨data', image, hassemble', haccepted, -, -, himage⟩ := h.accepted hash
  obtain rfl : data' = data := Except.ok.inj (hassemble'.symm.trans hassemble)
  have hne : orderedSections sections ≠ [] := by
    obtain ⟨rows, hstrings⟩ := Option.isSome_iff_exists.mp (h.required .strings (.head _))
    have hmem : (SectionKind.strings, encodeTable rows) ∈ orderedSections sections :=
      mem_orderedSections.mpr ⟨rows, hstrings, rfl⟩
    exact ne_nil_of_mem hmem
  have hend : ∃ entry ∈ image.entries, entry.stop = data'.length := by
    rw [← haccepted.header.totalLength, himage]
    obtain ⟨entry, hentry, hstop⟩ := exists_stop_layoutEntries hash
      (headerSize + (orderedSections sections).length * directoryEntrySize) hne
    refine ⟨entry, hentry, hstop.trans ?_⟩
    change _ = imageLength sections
    rw [imageLength, align_directoryEnd]
  refine ⟨haccepted.reference_iff.mpr hend, ?_⟩
  rwa [haccepted.entries_eq, haccepted.header_eq] at hend

/-- What `encode_snapshot` returns passes the validator of the publication exactly if a section ends
the data, and what it assembles itself always does. -/
theorem encodeSnapshot_reference_iff {source : WireSource} {data : Bytes} (hrows : source.Numbered)
    (h : encodeSnapshot hash limits columns source = .ok data) :
    ((validateReferenceBuffer hash data).isOk ↔ EndsWithSection data) ∧
      ∀ sections, source = .collected sections → EndsWithSection data := by
  cases source with
  | mapped image =>
    simp only [encodeSnapshot, bind_eq_ok, Except.ok.injEq] at h
    obtain ⟨_, -, _, -, inspected, hvalid, rfl⟩ := h
    have haccepted := validateWire_eq_ok.mp (validateBytes_eq_ok.mp hvalid).1
    refine ⟨?_, fun sections hsections => by cases hsections⟩
    rw [haccepted.reference_iff, haccepted.entries_eq, haccepted.header_eq]
    rfl
  | collected sections =>
    obtain ⟨hok, hend⟩ := (CollectedSections.framable hrows h).reference_isOk h
    exact ⟨iff_of_true hok hend, fun _ _ => hend⟩

end

/-- The image of an ontology without axioms, with eight zeros behind the last section. -/
def paddedImage : Bytes :=
  let ordered := orderedSections (countedSections 0)
  let body := assembledBody sha256 ordered ++ zeros 8
  (assembledHeader sha256 0 2 ordered.length (imageLength (countedSections 0) + 8) body).pack ++ body

/-- The image is accepted; its digest is not the one of the image without the zeros. -/
theorem exists_paddedImage : ∃ inspected,
    validateBytes sha256 defaultLimits noColumns paddedImage true true = .ok inspected ∧
      encodeSnapshot sha256 defaultLimits noColumns (.mapped paddedImage) = .ok paddedImage ∧
      inspected.summary.structural = ⟨1, zeros 32⟩ ∧
      inspected.image.header.fileDigest ≠ slice (countedImage 0) 56 88 ∧ ¬EndsWithSection paddedImage := by
  have hrun : ((validateBytes sha256 defaultLimits noColumns paddedImage true true).toOption.any fun inspected =>
      decide (inspected.summary.structural = ⟨1, zeros 32⟩) &&
        decide (inspected.image.header.fileDigest ≠ slice (countedImage 0) 56 88)) &&
      (decide (paddedImage.length ≤ defaultLimits.maxTemporaryBytes) && !decide (EndsWithSection paddedImage)) := by
    decide +kernel
  rw [Bool.and_eq_true, Bool.and_eq_true, decide_eq_true_eq, Bool.not_eq_true', decide_eq_false_iff_not] at hrun
  obtain ⟨hvalid, htemporary, hends⟩ := hrun
  obtain ⟨inspected, hvalid, htest⟩ := exists_of_toOption_any hvalid
  rw [Bool.and_eq_true, decide_eq_true_eq, decide_eq_true_eq] at htest
  refine ⟨inspected, hvalid, ?_, htest.1, htest.2, hends⟩
  exact encodeSnapshot_mapped hvalid htemporary

/-- A snapshot mapped from that image is encoded, but the result cannot be published. -/
theorem encodeSnapshot_paddedImage :
    encodeSnapshot sha256 defaultLimits noColumns (.mapped paddedImage) = .ok paddedImage ∧
      (validateReferenceBuffer sha256 paddedImage).isOk = false := by
  obtain ⟨inspected, hvalid, hencode, -, -, hends⟩ := exists_paddedImage
  have haccepted := validateWire_eq_ok.mp (validateBytes_eq_ok.mp hvalid).1
  refine ⟨hencode, Bool.not_eq_true _ ▸ fun hok => hends ?_⟩
  have hstop := haccepted.reference_iff.mp hok
  rwa [haccepted.entries_eq, haccepted.header_eq] at hstop

theorem encodeSnapshot_reference_iff_paddedImage : ∃ data,
    encodeSnapshot sha256 defaultLimits noColumns (.mapped paddedImage) = .ok data ∧
      ((validateReferenceBuffer sha256 data).isOk ↔ EndsWithSection data) := by
  obtain ⟨-, -, hencode, -⟩ := exists_paddedImage
  have hnumbered : (WireSource.mapped paddedImage).Numbered := trivial
  exact ⟨_, hencode, (encodeSnapshot_reference_iff hnumbered hencode).1⟩

end OwlCore
