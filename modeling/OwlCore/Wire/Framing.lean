import OwlCore.Wire.Image

/-!
# Framing of accepted images

Every byte string that `validate_wire` accepts has sections behind the directory that do
not overlap, and tables whose rows tile their payload.
-/
namespace OwlCore

open Fallible List

/-- The rows of a table are slices of its payload, in order and without gaps. -/
structure TableView.Covered (table : TableView) (rows : List Bytes) : Prop where
  length : rows.length = table.count
  row : ∀ i row, rows[i]? = some row → table.row i = .ok row
  flatten : rows.flatten = table.data.drop table.payload
  payload : table.payload ≤ table.data.length
  bounds : ∀ i < table.count, TableView.rowOffset table.data i ≤ TableView.rowOffset table.data (i + 1) ∧
    table.payload + TableView.rowOffset table.data (i + 1) ≤ table.data.length

/-- The sections of an image lie behind the directory and apart from each other, and the rows of
every table tile its payload. -/
structure WellFramed (data : Bytes) (image : WireImage) : Prop where
  inBounds : ∀ entry ∈ image.entries,
    headerSize + image.entries.length * directoryEntrySize ≤ entry.offset ∧ entry.stop ≤ data.length
  disjoint : image.entries.Pairwise fun a b => a.stop ≤ b.offset ∨ b.stop ≤ a.offset
  tables : ∀ table ∈ image.tables, ∃ entry ∈ image.entries, table = .ofEntry data entry ∧ ∃ rows, table.Covered rows
  complete : ∀ entry ∈ image.entries, (SectionKind.ofCode? entry.kind).isSome = true →
    TableView.ofEntry data entry ∈ image.tables

section

variable {count : Nat}

theorem Tiled.rowOffset_le (h : Tiled data count) (hi : i ≤ count) :
    TableView.rowOffset data i ≤ data.length - 8 * (count + 2) := by
  induction hi using Nat.decreasingInduction with
  | self => exact h.last.le
  | of_succ i hi ih => exact (h.mono i hi).trans ih

theorem Tiled.flatten_storedRow (h : Tiled data count) (hn : n ≤ count) :
    ((List.range n).map (storedRow data count)).flatten =
      slice data (8 * (count + 2)) (8 * (count + 2) + TableView.rowOffset data n) := by
  induction n with
  | zero => simp [h.first, slice_self]
  | succ n ih =>
    rw [range_succ, map_append, flatten_append, ih (by omega)]
    have hmono := h.mono n hn
    simp only [map_cons, map_nil, flatten_cons, flatten_nil, append_nil, storedRow]
    exact slice_append_slice (Nat.le_add_right _ _) (by omega)

theorem Tiled.covered (h : Tiled data count) :
    (TableView.mk kind count data (8 * (count + 2))).Covered ((List.range count).map (storedRow data count)) where
  length := by simp
  row := by
    intro i row hrow
    obtain ⟨hi, hrow⟩ := List.getElem?_eq_some_iff.mp hrow
    have hi' : ¬count ≤ i := by simpa using hi
    rw [TableView.row, if_neg hi', ← hrow]
    simp [storedRow]
  flatten := by
    have hend : 8 * (count + 2) + (data.length - 8 * (count + 2)) = data.length := Nat.add_sub_cancel' h.header
    rw [h.flatten_storedRow le_rfl, h.last, hend, slice_length]
  payload := h.header
  bounds := by
    intro i hi
    have hle : TableView.rowOffset data (i + 1) ≤ data.length - 8 * (count + 2) := h.rowOffset_le hi
    have hheader := h.header
    refine ⟨h.mono i hi, ?_⟩
    change 8 * (count + 2) + TableView.rowOffset data (i + 1) ≤ data.length
    omega

end

section

variable {hash : Hash} {limits : ParseLimits} {data : Bytes} {header : RawHeader}

/-- What `validate_wire` asks of a directory entry. -/
structure EntryValid (limits : ParseLimits) (header : RawHeader) (entry : DirectoryEntry) : Prop where
  flags : entry.flags = sectionRequired ∨ entry.flags = sectionOptional
  required : entry.flags = sectionRequired ↔ (SectionKind.ofCode? entry.kind).any (· ∈ SectionKind.required) = true
  known : checkKnownKind header.minor entry (SectionKind.ofCode? entry.kind) = .ok ()
  decoded : entry.decodedLength = entry.storedLength
  aligned : entry.offset % 8 = 0
  after : header.directoryOffset + header.directoryLength ≤ entry.offset
  inside : entry.stop ≤ header.totalLength
  rows : entry.rowCount ≤ limits.maxWireRows ∧ entry.rowCount ≤ maxTableId

theorem checkEntry_eq_ok :
    checkEntry limits header entry = .ok () ↔ EntryValid limits header entry := by
  simp only [checkEntry, check_bind_eq_ok, reject_eq_ok, not_and, not_or, not_not, not_lt, ne_eq]
  constructor
  · rintro ⟨hflags, hrequired, hoptional, hknown, hdecoded, haligned, hafter, hinside, hrows⟩
    refine ⟨?_, ⟨hrequired, ?_⟩, hknown, hdecoded, haligned, hafter, hinside, hrows⟩
    · by_cases h : entry.flags = sectionRequired
      · exact .inl h
      · exact .inr (hflags h)
    · intro h
      by_contra hne
      exact hoptional hne h
  · intro h
    exact ⟨fun hne => h.flags.resolve_left hne, h.required.mp, fun hne hany => hne (h.required.mpr hany), h.known,
      h.decoded, h.aligned, h.after, h.inside, h.rows⟩

variable {entries : List DirectoryEntry}

theorem checkEntries_eq_ok :
    checkEntries limits header previous entries = .ok () ↔ (∀ e ∈ entries, previous < e.kind) ∧
      entries.Pairwise (fun a b => a.kind < b.kind) ∧ ∀ e ∈ entries, EntryValid limits header e := by
  induction entries generalizing previous with
  | nil => simp [checkEntries]
  | cons e rest ih =>
    simp only [checkEntries, check_bind_eq_ok, reject_eq_ok, checkEntry_eq_ok, ih, pairwise_cons,
      mem_cons, forall_eq_or_imp, not_le, Int.ofNat_lt]
    constructor
    · rintro ⟨hfirst, hvalid, hlater, hpairwise, hrest⟩
      exact ⟨⟨hfirst, fun e' he' => hfirst.trans (Int.ofNat_lt.mpr (hlater e' he'))⟩, ⟨hlater, hpairwise⟩,
        hvalid, hrest⟩
    · rintro ⟨⟨hfirst, -⟩, ⟨hlater, hpairwise⟩, hvalid, hrest⟩
      exact ⟨hfirst, hvalid, hlater, hpairwise, hrest⟩

theorem pairwise_of_checkGaps (h : checkGaps data cursor entries = .ok ()) :
    (∀ e ∈ entries, cursor ≤ e.offset) ∧ entries.Pairwise fun a b => a.stop ≤ b.offset := by
  induction entries generalizing cursor with
  | nil => simp
  | cons e rest ih =>
    simp only [checkGaps, check_bind_eq_ok, reject_eq_ok, not_lt] at h
    obtain ⟨hcursor, -, hrest⟩ := h
    obtain ⟨hlater, hpairwise⟩ := ih hrest
    have hstop : e.offset ≤ e.stop := Nat.le_add_right _ _
    refine ⟨?_, pairwise_cons.mpr ⟨hlater, hpairwise⟩⟩
    intro e' he'
    rcases mem_cons.mp he' with rfl | he'
    · exact hcursor
    · exact (hcursor.trans hstop).trans (hlater e' he')

theorem validateSection_eq_ok :
    validateSection hash data entry = .ok table ↔ hash.digest (slice data entry.offset entry.stop) = entry.digest ∧
      ((SectionKind.ofCode? entry.kind = none ∧ table = none) ∨
        ((SectionKind.ofCode? entry.kind).isSome = true ∧ Tiled (slice data entry.offset entry.stop) entry.rowCount ∧
          table = some (.ofEntry data entry))) := by
  simp only [validateSection, check_bind_eq_ok, reject_eq_ok, ne_eq, not_not]
  cases SectionKind.ofCode? entry.kind with
  | none => simp [eq_comm]
  | some kind => simp [check_bind_eq_ok, validateTable_eq_ok, eq_comm (a := table)]

/-- What `validate_wire` asks of the header. -/
structure HeaderValid (limits : ParseLimits) (data : Bytes) (header : RawHeader) : Prop where
  magic : header.magic = wireMagic
  major : header.major = wireMajor
  headerLength : header.headerLength = headerSize
  modelSchema : header.modelSchema = OwlCore.modelSchema
  canonicalProfile : header.canonicalProfile = OwlCore.canonicalProfile
  featureFlags : header.featureFlags ||| knownFeatureFlags = knownFeatureFlags
  reserved : header.reserved = 0
  totalLength : header.totalLength = data.length
  sectionCount : header.sectionCount ≤ limits.maxWireRows ∧ header.sectionCount ≤ maxTableId
  directoryLength : header.sectionCount * directoryEntrySize = header.directoryLength
  directoryOffset : header.directoryOffset = headerSize
  directoryEnd : header.directoryOffset + header.directoryLength ≤ header.totalLength
  headerCrc : crc32c (zeroed (data.take headerSize)) = header.headerCrc

theorem checkHeader_eq_ok : checkHeader limits data header = .ok () ↔ HeaderValid limits data header := by
  simp only [checkHeader, check_bind_eq_ok, reject_eq_ok, not_or, not_lt, ne_eq, not_not]
  constructor <;> rintro ⟨h1, h2, h3, h4, h5, h6, h7, h8, h9, h10, h11, h12, h13⟩
  all_goals exact ⟨h1, h2, h3, h4, h5, h6, h7, h8, h9, h10, h11, h12, h13⟩

/-- The directory of a byte string as its header describes it. -/
def directory (data : Bytes) (header : RawHeader) : List DirectoryEntry :=
  (List.range header.sectionCount).map fun index =>
    DirectoryEntry.unpack data (header.directoryOffset + index * directoryEntrySize)

/-- What `validate_wire` accepts, and with which image. -/
structure AcceptedImage (hash : Hash) (limits : ParseLimits) (data : Bytes) (verify : Bool) (image : WireImage) :
    Prop where
  header_le : headerSize ≤ data.length
  bytes_le : data.length ≤ limits.maxWireBytes
  header_eq : image.header = RawHeader.unpack data
  header : HeaderValid limits data image.header
  entries_eq : image.entries = directory data image.header
  kinds : image.entries.Pairwise fun a b => a.kind < b.kind
  entries : ∀ entry ∈ image.entries, EntryValid limits image.header entry
  required : requiredSeen image.entries = true
  gaps : checkGaps data (image.header.directoryOffset + image.header.directoryLength)
    (image.entries.insertionSort fun a b => a.offset ≤ b.offset) = .ok ()
  tables : ∃ tables, image.entries.mapM (validateSection hash data) = .ok tables ∧ image.tables = tables.filterMap id
  digest : verify = true → hash.digest (zeroed data) = image.header.fileDigest

theorem validateWire_eq_ok :
    validateWire hash limits data verify = .ok image ↔ AcceptedImage hash limits data verify image := by
  simp only [validateWire, check_bind_eq_ok, reject_eq_ok, not_lt, checkHeader_eq_ok, checkEntries_eq_ok,
    ne_eq, Bool.not_eq_false]
  constructor
  · rintro ⟨hsize, hbytes, hheader, ⟨-, hkinds, hentries⟩, hrequired, hgaps, h⟩
    obtain ⟨tables, htables, h⟩ := bind_eq_ok.mp h
    obtain ⟨hdigest, h⟩ := check_bind_eq_ok.mp h
    obtain rfl := Except.ok.inj h
    exact ⟨hsize, hbytes, rfl, hheader, rfl, hkinds, hentries, hrequired, hgaps, ⟨tables, htables, rfl⟩,
      by simpa using hdigest⟩
  · rintro ⟨hsize, hbytes, hheq, hheader, heeq, hkinds, hentries, hrequired, hgaps, ⟨tables, htables, hteq⟩, hdigest⟩
    obtain ⟨header, entries, imageTables⟩ := image
    simp only at hheq heeq hteq hkinds hentries hrequired hgaps htables hdigest hheader
    subst hheq heeq hteq
    have hnonneg : ∀ e ∈ directory data (RawHeader.unpack data), (-1 : Int) < e.kind := by
      intro e he
      omega
    refine ⟨hsize, hbytes, hheader, ⟨hnonneg, hkinds, hentries⟩, hrequired, hgaps, ?_⟩
    refine bind_eq_ok.mpr ⟨tables, htables, check_bind_eq_ok.mpr ⟨?_, rfl⟩⟩
    simpa using hdigest

theorem mem_tables (h : entries.mapM (validateSection hash data) = .ok tables) :
    table ∈ tables.filterMap id ↔ ∃ entry ∈ entries, (SectionKind.ofCode? entry.kind).isSome = true ∧
      Tiled (slice data entry.offset entry.stop) entry.rowCount ∧ table = .ofEntry data entry := by
  have hsome : table ∈ tables.filterMap id ↔ some table ∈ tables := by simp
  rw [hsome]
  constructor
  · intro htable
    obtain ⟨entry, hentry, hok⟩ := exists_of_mem_mapM h htable
    rcases (validateSection_eq_ok.mp hok).2 with ⟨-, hnone⟩ | ⟨hknown, htiled, heq⟩
    · cases hnone
    · exact ⟨entry, hentry, hknown, htiled, Option.some.inj heq⟩
  · rintro ⟨entry, hentry, hknown, -, rfl⟩
    obtain ⟨stored, hstored, hok⟩ := exists_of_mem_left h hentry
    rcases (validateSection_eq_ok.mp hok).2 with ⟨hnone, -⟩ | ⟨-, -, rfl⟩
    · rw [hnone] at hknown
      cases hknown
    · exact hstored

theorem AcceptedImage.wellFramed (h : AcceptedImage hash limits data verify image) : WellFramed data image := by
  have hlength : image.entries.length = image.header.sectionCount := by
    rw [h.entries_eq, directory, length_map, length_range]
  obtain ⟨tables, htables, hteq⟩ := h.tables
  refine ⟨fun entry hentry => ?_, ?_, fun table htable => ?_, fun entry hentry hknown => ?_⟩
  · have hvalid := h.entries entry hentry
    have hafter := hvalid.after
    have hinside := hvalid.inside
    rw [h.header.directoryOffset, ← h.header.directoryLength, ← hlength] at hafter
    rw [h.header.totalLength] at hinside
    exact ⟨hafter, hinside⟩
  · have hsorted := (pairwise_of_checkGaps h.gaps).2
    have hsymmetric : ∀ {a b : DirectoryEntry}, (a.stop ≤ b.offset ∨ b.stop ≤ a.offset) →
        (b.stop ≤ a.offset ∨ a.stop ≤ b.offset) := Or.symm
    exact ((perm_insertionSort _ image.entries).pairwise_iff hsymmetric).mp (hsorted.imp Or.inl)
  · rw [hteq] at htable
    obtain ⟨entry, hentry, -, htiled, rfl⟩ := (mem_tables htables).mp htable
    exact ⟨entry, hentry, rfl, _, htiled.covered⟩
  · rw [hteq]
    obtain ⟨stored, -, hok⟩ := exists_of_mem_left htables hentry
    rcases (validateSection_eq_ok.mp hok).2 with ⟨hnone, -⟩ | ⟨-, htiled, -⟩
    · rw [hnone] at hknown
      cases hknown
    · exact (mem_tables htables).mpr ⟨entry, hentry, hknown, htiled, rfl⟩

end

end OwlCore
