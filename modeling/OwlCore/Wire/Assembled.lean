import OwlCore.Wire.Framing

/-!
# Assembled images are accepted

The bytes that `_assemble` writes for encoded tables pass every check of `validate_wire`,
and every row is read back. The exceptions are sections that the format version rules out.
-/
namespace OwlCore

open Fallible List

theorem le_align (value : Nat) : value ≤ align value := by
  unfold align
  omega

theorem align_mod (value : Nat) : align value % 8 = 0 := by
  unfold align
  omega

section

variable {header : RawHeader} {body : Bytes}

/-- The fields of a header have the widths of the layout. -/
structure RawHeader.Fits (header : RawHeader) : Prop where
  magic : header.magic.length = 8
  fileDigest : header.fileDigest.length = 32
  leading : ∀ field ∈ header.leading, field.2 < 256 ^ field.1
  headerCrc : header.headerCrc < 256 ^ 4
  reserved : header.reserved < 256 ^ 4

theorem RawHeader.pack_append (header : RawHeader) (body : Bytes) : header.pack ++ body = header.magic ++
    (packUints header.leading ++ (header.fileDigest ++ (packUints [(4, header.headerCrc), (4, header.reserved)] ++
      body))) := by
  simp only [RawHeader.pack, append_assoc]

theorem RawHeader.length_leading (header : RawHeader) : (packUints header.leading).length = 48 := by
  rw [length_packUints]
  rfl

theorem RawHeader.Fits.length_pack (h : header.Fits) : header.pack.length = headerSize := by
  rw [RawHeader.pack, length_append, length_append, length_append, RawHeader.length_leading,
    length_packUints, h.magic, h.fileDigest]
  rfl

theorem RawHeader.Fits.unpack_pack (h : header.Fits) (body : Bytes) : RawHeader.unpack (header.pack ++ body) = header := by
  have hlead : ∀ (k offset width value : Nat), header.leading[k]? = some (width, value) →
      offset = 8 + ((header.leading.take k).map Prod.fst).sum → uintAt (header.pack ++ body) offset width = value := by
    intro k offset width value hk hoffset
    rw [RawHeader.pack_append]
    exact uintAt_packUints hk (h.leading _ (mem_of_getElem? hk)) (by rw [h.magic, hoffset])
  have hsplit : header.pack ++ body = (header.magic ++ packUints header.leading ++ header.fileDigest) ++
      (packUints [(4, header.headerCrc), (4, header.reserved)] ++ body) := by
    simp only [RawHeader.pack, append_assoc]
  have hlength : (header.magic ++ packUints header.leading ++ header.fileDigest).length = 88 := by
    rw [length_append, length_append, RawHeader.length_leading, h.magic, h.fileDigest]
  have hmagic : slice (header.pack ++ body) 0 8 = header.magic := by
    rw [RawHeader.pack_append]
    have hstart : 0 = ([] : Bytes).length := rfl
    exact slice_append hstart (by rw [h.magic])
  have hdigest : slice (header.pack ++ body) 56 88 = header.fileDigest := by
    rw [RawHeader.pack_append, ← append_assoc]
    exact slice_append (by rw [length_append, h.magic, RawHeader.length_leading]) (by rw [h.fileDigest])
  have hcrc : uintAt (header.pack ++ body) 88 4 = header.headerCrc := by
    rw [hsplit]
    have hk : [(4, header.headerCrc), (4, header.reserved)][0]? = some (4, header.headerCrc) := rfl
    exact uintAt_packUints hk h.headerCrc (by rw [hlength]; rfl)
  have hreserved : uintAt (header.pack ++ body) 92 4 = header.reserved := by
    rw [hsplit]
    have hk : [(4, header.headerCrc), (4, header.reserved)][1]? = some (4, header.reserved) := rfl
    exact uintAt_packUints hk h.reserved (by rw [hlength]; rfl)
  rw [RawHeader.unpack, hmagic, hdigest, hcrc, hreserved, hlead 0 8 2 _ rfl rfl, hlead 1 10 2 _ rfl rfl,
    hlead 2 12 4 _ rfl rfl, hlead 3 16 4 _ rfl rfl, hlead 4 20 4 _ rfl rfl, hlead 5 24 4 _ rfl rfl,
    hlead 6 28 4 _ rfl rfl, hlead 7 32 8 _ rfl rfl, hlead 8 40 8 _ rfl rfl, hlead 9 48 8 _ rfl rfl]

theorem RawHeader.Fits.zeroed_pack (h : header.Fits) (body : Bytes) : zeroed (header.pack ++ body) =
    header.magic ++ packUints header.leading ++ zeros 36 ++ (packUints [(4, header.reserved)] ++ body) := by
  have hfront : (header.magic ++ packUints header.leading).length = 56 := by
    rw [length_append, RawHeader.length_leading, h.magic]
  have hback : (header.magic ++ packUints header.leading ++ (header.fileDigest ++
      packUints [(4, header.headerCrc)])).length = 92 := by
    rw [length_append, hfront, length_append, h.fileDigest, length_packUints]
    rfl
  have hpack : header.pack ++ body = (header.magic ++ packUints header.leading ++ (header.fileDigest ++
      packUints [(4, header.headerCrc)])) ++ (packUints [(4, header.reserved)] ++ body) := by
    rw [RawHeader.pack_append]
    simp [packUints]
  have htake : (header.pack ++ body).take 56 = header.magic ++ packUints header.leading := by
    rw [hpack, append_assoc _ (header.fileDigest ++ _), ← hfront, take_left]
  have hdrop : (header.pack ++ body).drop 92 = packUints [(4, header.reserved)] ++ body := by
    rw [hpack, ← hback, drop_left]
  rw [zeroed, htake, hdrop]

end

section

variable {hash : Hash} {entry : DirectoryEntry}

/-- The fields of a directory entry have the widths of the layout. -/
structure DirectoryEntry.Fits (entry : DirectoryEntry) : Prop where
  leading : ∀ field ∈ entry.leading, field.2 < 256 ^ field.1
  digest : entry.digest.length = 32

theorem DirectoryEntry.length_leading (entry : DirectoryEntry) : (packUints entry.leading).length = 40 := by
  rw [length_packUints]
  rfl

theorem DirectoryEntry.Fits.length_pack (h : entry.Fits) : entry.pack.length = directoryEntrySize := by
  rw [DirectoryEntry.pack, length_append, DirectoryEntry.length_leading, h.digest]
  rfl

theorem DirectoryEntry.Fits.unpack_pack (h : entry.Fits) (hposition : position = pre.length) :
    DirectoryEntry.unpack (pre ++ (entry.pack ++ post)) position = entry := by
  have hassoc : pre ++ (entry.pack ++ post) = pre ++ (packUints entry.leading ++ (entry.digest ++ post)) := by
    rw [DirectoryEntry.pack, append_assoc]
  have hlead : ∀ (k offset width value : Nat), entry.leading[k]? = some (width, value) →
      offset = ((entry.leading.take k).map Prod.fst).sum →
      uintAt (pre ++ (entry.pack ++ post)) (position + offset) width = value := by
    intro k offset width value hk hoffset
    rw [hassoc]
    exact uintAt_packUints hk (h.leading _ (mem_of_getElem? hk)) (by rw [hposition, hoffset])
  have hdigest : slice (pre ++ (entry.pack ++ post)) (position + 40) (position + 72) = entry.digest := by
    rw [hassoc, ← append_assoc]
    exact slice_append (by rw [length_append, DirectoryEntry.length_leading, hposition]) (by rw [h.digest])
  have hkind : uintAt (pre ++ (entry.pack ++ post)) position 2 = entry.kind := hlead 0 0 2 _ rfl rfl
  rw [DirectoryEntry.unpack, hdigest, hkind, hlead 1 2 2 _ rfl rfl, hlead 2 4 4 _ rfl rfl, hlead 3 8 8 _ rfl rfl,
    hlead 4 16 8 _ rfl rfl, hlead 5 24 8 _ rfl rfl, hlead 6 32 8 _ rfl rfl]

theorem directory_flatMap_pack (hfits : ∀ entry ∈ entries, entry.Fits) (hcount : header.sectionCount = entries.length)
    (hoffset : header.directoryOffset = pre.length) :
    directory (pre ++ (entries.flatMap DirectoryEntry.pack ++ post)) header = entries := by
  apply ext_getElem?
  intro i
  rw [directory, getElem?_map, hcount]
  by_cases hi : i < entries.length
  · have hlength : (pre ++ (entries.take i).flatMap DirectoryEntry.pack).length =
        header.directoryOffset + i * directoryEntrySize := by
      have hsum : ((entries.take i).flatMap DirectoryEntry.pack).length = i * directoryEntrySize := by
        rw [length_flatMap]
        have hmap : (entries.take i).map (fun entry => entry.pack.length) =
            (entries.take i).map fun _ => directoryEntrySize :=
          map_congr_left fun entry hentry => (hfits entry (mem_of_mem_take hentry)).length_pack
        rw [hmap, map_const', sum_replicate_nat, length_take, Nat.min_eq_left hi.le]
      rw [length_append, hsum, hoffset]
    have hdata : pre ++ (entries.flatMap DirectoryEntry.pack ++ post) =
        (pre ++ (entries.take i).flatMap DirectoryEntry.pack) ++
          (entries[i].pack ++ ((entries.drop (i + 1)).flatMap DirectoryEntry.pack ++ post)) := by
      conv_lhs => rw [← take_append_drop i entries, ← getElem_cons_drop hi]
      simp only [flatMap_append, flatMap_cons, append_assoc]
    rw [getElem?_range hi, Option.map_some, getElem?_eq_getElem hi, hdata]
    exact congrArg some ((hfits _ (getElem_mem hi)).unpack_pack hlength.symm)
  · rw [getElem?_eq_none (by simpa using hi), getElem?_eq_none (Nat.le_of_not_lt hi)]
    rfl

end

section

variable {hash : Hash} {data : Bytes}

/-- A section stands at its entry's offset, between the given bounds. -/
def Placed (hash : Hash) (data : Bytes) (lower upper : Nat) (item : SectionKind × Bytes) (entry : DirectoryEntry) : Prop :=
  ∃ offset, entry = sectionEntry hash offset item.1 item.2 ∧ offset % 8 = 0 ∧ lower ≤ offset ∧
    offset + item.2.length ≤ upper ∧ slice data offset (offset + item.2.length) = item.2

theorem le_layoutEnd (cursor : Nat) (ordered : List (SectionKind × Bytes)) : cursor ≤ layoutEnd cursor ordered := by
  induction ordered generalizing cursor with
  | nil => exact Nat.le_refl _
  | cons item rest ih =>
    have halign := le_align cursor
    have hrest := ih (align cursor + item.2.length)
    rw [layoutEnd]
    omega

theorem length_layoutBody (cursor : Nat) (ordered : List (SectionKind × Bytes)) :
    cursor + (layoutBody cursor ordered).length = layoutEnd cursor ordered := by
  induction ordered generalizing cursor with
  | nil => rfl
  | cons item rest ih =>
    have halign := le_align cursor
    have hrest := ih (align cursor + item.2.length)
    rw [layoutBody, layoutEnd, length_append, length_append, zeros, length_replicate]
    omega

theorem any_zeros (size : Nat) : (zeros size).any (· ≠ 0) = false := by
  simp [zeros]

theorem checkGaps_layout (hash : Hash) (ordered : List (SectionKind × Bytes)) (hdata : data = pre ++ layoutBody cursor
    ordered) (hpre : pre.length = cursor) :
    checkGaps data cursor (layoutEntries hash cursor ordered) = .ok () ∧
      Forall₂ (Placed hash data cursor (layoutEnd cursor ordered)) ordered (layoutEntries hash cursor ordered) := by
  induction ordered generalizing cursor pre with
  | nil =>
    refine ⟨?_, .nil⟩
    have hdrop : data.drop cursor = [] := by
      rw [hdata, layoutBody, append_nil, ← hpre, drop_length]
    rw [layoutEntries, checkGaps, hdrop, reject_eq_ok]
    simp
  | cons item rest ih =>
    have halign := le_align cursor
    have hgap : (pre ++ zeros (align cursor - cursor)).length = align cursor := by
      rw [length_append, zeros, length_replicate, hpre]
      omega
    have hsection : data = (pre ++ zeros (align cursor - cursor)) ++
        (item.2 ++ layoutBody (align cursor + item.2.length) rest) := by
      rw [hdata, layoutBody]
      simp only [append_assoc]
    have hzeros : slice data cursor (align cursor) = zeros (align cursor - cursor) := by
      rw [hdata, layoutBody, append_assoc]
      refine slice_append hpre.symm ?_
      rw [zeros, length_replicate]
      omega
    have hslice : slice data (align cursor) (align cursor + item.2.length) = item.2 := by
      rw [hsection]
      exact slice_append hgap.symm rfl
    have hrest : data = (pre ++ zeros (align cursor - cursor) ++ item.2) ++
        layoutBody (align cursor + item.2.length) rest := by
      rw [hsection, ← append_assoc]
    obtain ⟨hgaps, hplaced⟩ := ih hrest (by rw [length_append, hgap])
    have hend := le_layoutEnd (align cursor + item.2.length) rest
    constructor
    · rw [layoutEntries, checkGaps, check_bind_eq_ok, check_bind_eq_ok, reject_eq_ok, reject_eq_ok]
      refine ⟨Nat.not_lt.mpr halign, ?_, hgaps⟩
      have hoffset : (sectionEntry hash (align cursor) item.1 item.2).offset = align cursor := rfl
      rw [hoffset, hzeros, any_zeros]
      exact Bool.false_ne_true
    · rw [layoutEntries, layoutEnd]
      refine .cons ⟨align cursor, rfl, align_mod cursor, halign, hend, hslice⟩ (hplaced.imp ?_)
      rintro item' entry ⟨offset, rfl, hmod, hlower, hupper, heq⟩
      exact ⟨offset, rfl, hmod, by omega, hupper, heq⟩

end

theorem crcShift_lt (h : crc < 2 ^ 32) : crcShift crc < 2 ^ 32 := by
  apply Nat.xor_lt_two_pow
  · exact Nat.lt_of_le_of_lt (Nat.shiftRight_le crc 1) h
  · split <;> decide

theorem crc32c_lt (data : Bytes) : crc32c data < 256 ^ 4 := by
  have hiterate : ∀ n crc, crc < 2 ^ 32 → crcShift^[n] crc < 2 ^ 32 := by
    intro n
    induction n with
    | zero => exact fun _ h => h
    | succ n ih => exact fun crc h => ih (crcShift crc) (crcShift_lt h)
  have hfold : ∀ (data : Bytes) crc, crc < 2 ^ 32 →
      data.foldl (fun crc byte => crcShift^[8] (crc ^^^ byte.toNat)) crc < 2 ^ 32 := by
    intro data
    induction data with
    | nil => exact fun _ h => h
    | cons byte rest ih =>
      intro crc h
      have hbyte : byte.toNat < 2 ^ 32 := Nat.lt_trans byte.toNat_lt (by decide)
      exact ih _ (hiterate 8 _ (Nat.xor_lt_two_pow h hbyte))
  exact Nat.xor_lt_two_pow (hfold data _ (by decide)) (by decide)

theorem SectionKind.ofCode?_code (kind : SectionKind) : SectionKind.ofCode? kind.code = some kind := by
  cases kind <;> rfl

theorem SectionKind.code_injective {kind kind' : SectionKind} (h : kind.code = kind'.code) : kind = kind' := by
  have hkind := SectionKind.ofCode?_code kind
  rw [h, SectionKind.ofCode?_code] at hkind
  exact (Option.some.inj hkind).symm

theorem SectionKind.code_lt (kind : SectionKind) : kind.code < 256 ^ 2 := by
  cases kind <;> decide

theorem SectionKind.mem_all (kind : SectionKind) : kind ∈ SectionKind.all := by
  cases kind <;> decide

theorem mem_orderedSections {sections : SectionKind → Option (List Bytes)} :
    item ∈ orderedSections sections ↔ ∃ rows, sections item.1 = some rows ∧ item.2 = encodeTable rows := by
  simp only [orderedSections, mem_filterMap, Option.map_eq_some_iff]
  constructor
  · rintro ⟨kind, -, rows, hrows, rfl⟩
    exact ⟨rows, hrows, rfl⟩
  · rintro ⟨rows, hrows, hitem⟩
    exact ⟨item.1, SectionKind.mem_all _, rows, hrows, by rw [← hitem]⟩

theorem pairwise_orderedSections (sections : SectionKind → Option (List Bytes)) :
    (orderedSections sections).Pairwise fun a b => a.1.code < b.1.code := by
  have hall : SectionKind.all.Pairwise fun a b => a.code < b.code := by decide
  rw [orderedSections, pairwise_filterMap]
  refine hall.imp ?_
  intro kind kind' hlt item hitem item' hitem'
  obtain ⟨rows, -, rfl⟩ := Option.map_eq_some_iff.mp hitem
  obtain ⟨rows', -, rfl⟩ := Option.map_eq_some_iff.mp hitem'
  exact hlt

theorem map_kind_layoutEntries (hash : Hash) (cursor : Nat) (ordered : List (SectionKind × Bytes)) :
    (layoutEntries hash cursor ordered).map DirectoryEntry.kind = ordered.map fun item => item.1.code := by
  induction ordered generalizing cursor with
  | nil => rfl
  | cons item rest ih =>
    rw [layoutEntries, map_cons, map_cons, ih]
    rfl

def imageLength (sections : SectionKind → Option (List Bytes)) : Nat :=
  layoutEnd (align (headerSize + (orderedSections sections).length * directoryEntrySize)) (orderedSections sections)

/-- Sections that an image of version `minor` can hold: the required ones, in canonical order, known
feature flags, nothing that the version or schema rules out, and sufficient limits. -/
structure Framable (limits : ParseLimits) (sections : SectionKind → Option (List Bytes))
    (featureFlags minor : Nat) : Prop where
  required : ∀ kind ∈ SectionKind.required, (sections kind).isSome = true
  ascending : ∀ kind rows, sections kind = some rows → rows.Pairwise (· < ·)
  known_flags : featureFlags ||| knownFeatureFlags = knownFeatureFlags
  minor_le : minor ≤ wireMinor
  viewProvenance : sections .viewProvenance = none ∨ 1 ≤ minor
  encodedStructuralV1 : sections .encodedStructuralV1 = none
  encodedStructuralV2 : sections .encodedStructuralV2 = none ∨ 2 ≤ minor
  bytes : imageLength sections ≤ limits.maxWireBytes ∧ imageLength sections ≤ limits.maxTemporaryBytes ∧
    imageLength sections ≤ maxsize
  sectionCount : (orderedSections sections).length ≤ limits.maxWireRows
  rows : ∀ kind rows, sections kind = some rows → rows.length ≤ limits.maxWireRows ∧ rows.length ≤ maxTableId

section

variable {hash : Hash} {limits : ParseLimits} {sections : SectionKind → Option (List Bytes)}
  {featureFlags minor : Nat}

theorem length_orderedSections_le (sections : SectionKind → Option (List Bytes)) :
    (orderedSections sections).length ≤ 18 := by
  exact length_filterMap_le _ SectionKind.all

def assembledHeader (hash : Hash) (featureFlags minor sectionCount totalLength : Nat) (body : Bytes) : RawHeader :=
  let plain := plainHeader featureFlags minor sectionCount totalLength
  let checked := { plain with headerCrc := crc32c (zeroed plain.pack) }
  { checked with fileDigest := hash.digest (zeroed (checked.pack ++ body)) }

theorem fits_plainHeader (hflags : featureFlags ||| knownFeatureFlags = knownFeatureFlags) (hminor : minor ≤
    wireMinor) (hcount : sectionCount ≤ 18) (htotal : totalLength ≤ maxsize) :
    (plainHeader featureFlags minor sectionCount totalLength).Fits := by
  have hflags' : featureFlags ≤ 1 := Nat.le_trans Nat.left_le_or hflags.le
  have hminor' : minor ≤ 2 := hminor
  have htotal' : totalLength ≤ 2 ^ 63 - 1 := htotal
  refine ⟨rfl, rfl, ?_, Nat.pow_pos (by decide), Nat.pow_pos (by decide)⟩
  simp only [RawHeader.leading, plainHeader, mem_cons, not_mem_nil, or_false, forall_eq_or_imp, forall_eq,
    wireMajor, headerSize, modelSchema, canonicalProfile, directoryEntrySize]
  omega

theorem fits_assembledHeader (hash : Hash) (body : Bytes) (hflags : featureFlags ||| knownFeatureFlags =
    knownFeatureFlags) (hminor : minor ≤ wireMinor) (hcount : sectionCount ≤ 18) (htotal : totalLength ≤ maxsize) :
    (assembledHeader hash featureFlags minor sectionCount totalLength body).Fits where
  magic := rfl
  fileDigest := hash.length_digest _
  leading := (fits_plainHeader hflags hminor hcount htotal).leading
  headerCrc := crc32c_lt _
  reserved := Nat.pow_pos (by decide)

/-- Headers that differ in the digest and the checksum only have the same digested content. -/
theorem RawHeader.Fits.zeroed_congr {first second : RawHeader} (hfirst : first.Fits) (hsecond : second.Fits)
    (hmagic : first.magic = second.magic) (hleading : first.leading = second.leading)
    (hreserved : first.reserved = second.reserved) (body : Bytes) :
    zeroed (first.pack ++ body) = zeroed (second.pack ++ body) := by
  rw [hfirst.zeroed_pack, hsecond.zeroed_pack, hmagic, hleading, hreserved]

section

variable {sectionCount totalLength : Nat} (hash) (body : Bytes)
  (hflags : featureFlags ||| knownFeatureFlags = knownFeatureFlags) (hminor : minor ≤ wireMinor)
  (hcount : sectionCount ≤ 18) (htotal : totalLength ≤ maxsize)

include hflags hminor hcount htotal

theorem assembledHeader_headerCrc :
    crc32c (zeroed (assembledHeader hash featureFlags minor sectionCount totalLength body).pack) =
      (assembledHeader hash featureFlags minor sectionCount totalLength body).headerCrc := by
  have h := (fits_assembledHeader hash body hflags hminor hcount htotal).zeroed_congr
    (fits_plainHeader hflags hminor hcount htotal) rfl rfl rfl []
  rw [append_nil, append_nil] at h
  rw [h]
  rfl

theorem assembledHeader_fileDigest :
    hash.digest (zeroed ((assembledHeader hash featureFlags minor sectionCount totalLength body).pack ++ body)) =
      (assembledHeader hash featureFlags minor sectionCount totalLength body).fileDigest := by
  have hplain := fits_plainHeader hflags hminor hcount htotal
  let plain := plainHeader featureFlags minor sectionCount totalLength
  have hchecked : { plain with headerCrc := crc32c (zeroed plain.pack) }.Fits :=
    ⟨rfl, rfl, hplain.leading, crc32c_lt _, hplain.reserved⟩
  rw [(fits_assembledHeader hash body hflags hminor hcount htotal).zeroed_congr hchecked rfl rfl rfl body]
  rfl

end

def assembledBody (hash : Hash) (ordered : List (SectionKind × Bytes)) : Bytes :=
  let directoryEnd := headerSize + ordered.length * directoryEntrySize
  (layoutEntries hash (align directoryEnd) ordered).flatMap DirectoryEntry.pack ++
    zeros (align directoryEnd - directoryEnd) ++ layoutBody (align directoryEnd) ordered

theorem Framable.assemble_eq (h : Framable limits sections featureFlags minor) :
    assemble hash limits (orderedSections sections) featureFlags minor = .ok
      ((assembledHeader hash featureFlags minor (orderedSections sections).length (imageLength sections)
        (assembledBody hash (orderedSections sections))).pack ++ assembledBody hash (orderedSections sections)) := by
  unfold assemble
  rw [if_neg (Nat.not_lt.mpr h.minor_le)]
  refine check_bind_eq_ok.mpr ⟨enforceLimit_ok.mpr h.bytes.1, ?_⟩
  refine check_bind_eq_ok.mpr ⟨enforceLimit_ok.mpr h.bytes.2.1, ?_⟩
  exact if_neg (Nat.not_lt.mpr h.bytes.2.2)

theorem align_directoryEnd (count : Nat) :
    align (headerSize + count * directoryEntrySize) = headerSize + count * directoryEntrySize := by
  unfold align headerSize directoryEntrySize
  omega

section

variable (hash) (h : Framable limits sections featureFlags minor)

include h

variable {entries : List DirectoryEntry}

theorem Framable.forall_placed {lower : Nat} (hplaced : Forall₂ (Placed hash data lower (imageLength sections))
    (orderedSections sections) entries) (hentry : entry ∈ entries) : ∃ kind rows offset, sections kind = some rows ∧
      entry = sectionEntry hash offset kind (encodeTable rows) ∧ offset % 8 = 0 ∧ lower ≤ offset ∧
      offset + (encodeTable rows).length ≤ imageLength sections ∧
      slice data offset (offset + (encodeTable rows).length) = encodeTable rows ∧
      (encodeTable rows).length < 256 ^ 8 := by
  obtain ⟨item, hitem, offset, rfl, hmod, hlower, hupper, hslice⟩ := exists_of_forall₂ hplaced.flip hentry
  obtain ⟨rows, hrows, hsection⟩ := mem_orderedSections.mp hitem
  rw [hsection] at hupper hslice ⊢
  have hmax : imageLength sections ≤ 2 ^ 63 - 1 := h.bytes.2.2
  exact ⟨item.1, rows, offset, hrows, rfl, hmod, hlower, hupper, hslice, by omega⟩

variable {kind : SectionKind} {rows : List Bytes}

theorem Framable.fits_sectionEntry (hrows : sections kind = some rows) (hupper : offset + (encodeTable rows).length ≤
    imageLength sections) (hsize : (encodeTable rows).length < 256 ^ 8) :
    (sectionEntry hash offset kind (encodeTable rows)).Fits := by
  have hmax : imageLength sections ≤ 2 ^ 63 - 1 := h.bytes.2.2
  have hcode := kind.code_lt
  have hschema : kind.schema ≤ 2 := by cases kind <;> decide
  have hflags : (if kind ∈ SectionKind.required then sectionRequired else sectionOptional) ≤ 2 := by
    split <;> decide
  have hcount : rows.length ≤ 0xFFFFFFFF := (h.rows kind rows hrows).2
  refine ⟨?_, hash.length_digest _⟩
  simp only [DirectoryEntry.leading, sectionEntry, mem_cons, not_mem_nil, or_false, forall_eq_or_imp,
    forall_eq, uintAt_encodeTable hsize]
  omega

theorem Framable.entryValid (hrows : sections kind = some rows) (hmod : offset % 8 = 0) (hafter :
    header.directoryOffset + header.directoryLength ≤ offset) (hinside : offset + (encodeTable rows).length ≤
    header.totalLength) (hminor : header.minor = minor) (hsize : (encodeTable rows).length < 256 ^ 8) :
    EntryValid limits header (sectionEntry hash offset kind (encodeTable rows)) := by
  refine ⟨?_, ?_, ?_, rfl, hmod, hafter, hinside, ?_⟩
  · simp only [sectionEntry]
    split
    · exact .inl rfl
    · exact .inr rfl
  · simp only [sectionEntry, SectionKind.ofCode?_code, Option.any_some, decide_eq_true_eq]
    split
    · simpa
    · simp [sectionRequired, sectionOptional, *]
  · have hkind : SectionKind.ofCode? (sectionEntry hash offset kind (encodeTable rows)).kind = some kind :=
      SectionKind.ofCode?_code kind
    rw [hkind, hminor, checkKnownKind]
    simp only [check_bind_eq_ok, reject_eq_ok]
    refine ⟨fun hne => hne.1 rfl, ?_, ?_, ?_⟩
    · rintro ⟨rfl | rfl, hlt⟩
      · rcases h.viewProvenance with hnone | hle
        · rw [hnone] at hrows
          cases hrows
        · omega
      · rw [h.encodedStructuralV1] at hrows
        cases hrows
    · rintro ⟨rfl, hlt⟩
      rcases h.encodedStructuralV2 with hnone | hle
      · rw [hnone] at hrows
        cases hrows
      · omega
    · rintro rfl
      rw [h.encodedStructuralV1] at hrows
      cases hrows
  · simp only [sectionEntry, uintAt_encodeTable hsize]
    exact h.rows kind rows hrows

theorem Framable.fits_layoutEntries (hend : layoutEnd cursor (orderedSections sections) = imageLength sections)
    (hentry : entry ∈ layoutEntries hash cursor (orderedSections sections)) : entry.Fits := by
  -- the bounds of the entries do not depend on what stands in front of the body
  have hpre : (zeros cursor).length = cursor := length_replicate
  have hplaced := (checkGaps_layout hash (orderedSections sections) rfl hpre).2
  rw [hend] at hplaced
  obtain ⟨kind, rows, offset, hrows, rfl, -, -, hupper, -, hsize⟩ := h.forall_placed hash hplaced hentry
  exact h.fits_sectionEntry hash hrows hupper hsize

theorem Framable.requiredSeen_placed {lower : Nat} (hplaced : Forall₂ (Placed hash data lower (imageLength sections))
    (orderedSections sections) entries) :
    requiredSeen entries = true := by
  rw [requiredSeen, all_eq_true]
  intro kind hkind
  obtain ⟨rows, hrows⟩ := Option.isSome_iff_exists.mp (h.required kind hkind)
  have hitem : (kind, encodeTable rows) ∈ orderedSections sections := mem_orderedSections.mpr ⟨rows, hrows, rfl⟩
  obtain ⟨entry, hentry, offset, rfl, -⟩ := exists_of_forall₂ hplaced hitem
  exact any_eq_true.mpr ⟨_, hentry, by simp [sectionEntry, hkind]⟩

theorem Framable.validateSection_placed {lower : Nat} (hplaced : Forall₂ (Placed hash data lower (imageLength
    sections)) (orderedSections sections) entries) :
    entries.mapM (validateSection hash data) = .ok (entries.map fun entry => some (TableView.ofEntry data entry)) := by
  rw [mapM_eq_ok, forall₂_map_right_iff, forall₂_same]
  intro entry hentry
  obtain ⟨kind, rows, offset, hrows, rfl, -, -, -, hslice, hsize⟩ := h.forall_placed hash hplaced hentry
  have hrowCount : (sectionEntry hash offset kind (encodeTable rows)).rowCount = rows.length :=
    uintAt_encodeTable hsize
  refine validateSection_eq_ok.mpr ⟨congrArg hash.digest hslice, .inr ⟨?_, ?_, rfl⟩⟩
  · rw [sectionEntry, SectionKind.ofCode?_code]
    rfl
  · rw [hrowCount]
    exact hslice.symm ▸ tiled_encodeTable hsize (h.ascending kind rows hrows)

/-- What `validate_wire` returns for an assembled image. -/
def assembledImage (hash : Hash) (sections : SectionKind → Option (List Bytes)) (featureFlags minor : Nat) : WireImage :=
  let ordered := orderedSections sections
  let body := assembledBody hash ordered
  let header := assembledHeader hash featureFlags minor ordered.length (imageLength sections) body
  let entries := layoutEntries hash (headerSize + ordered.length * directoryEntrySize) ordered
  ⟨header, entries, entries.map (TableView.ofEntry (header.pack ++ body))⟩

/-- Everything `validate_wire` asks of an assembled image holds. -/
theorem Framable.accepted : ∃ data image, assemble hash limits (orderedSections sections) featureFlags minor = .ok data ∧
    AcceptedImage hash limits data true image ∧ image.tables = image.entries.map (TableView.ofEntry data) ∧
    Forall₂ (Placed hash data 0 (imageLength sections)) (orderedSections sections) image.entries ∧
    image = assembledImage hash sections featureFlags minor := by
  have hcount := length_orderedSections_le sections
  have hmax : imageLength sections ≤ maxsize := h.bytes.2.2
  have halign := align_directoryEnd (orderedSections sections).length
  obtain ⟨ordered, hordered⟩ : ∃ ordered, ordered = orderedSections sections := ⟨_, rfl⟩
  obtain ⟨cursor, hcursor⟩ : ∃ cursor, cursor = headerSize + ordered.length * directoryEntrySize := ⟨_, rfl⟩
  obtain ⟨body, hbody⟩ : ∃ body, body = assembledBody hash ordered := ⟨_, rfl⟩
  obtain ⟨entries, hentries⟩ : ∃ entries, entries = layoutEntries hash cursor ordered := ⟨_, rfl⟩
  obtain ⟨header, hheader⟩ : ∃ header, header = assembledHeader hash featureFlags minor ordered.length
    (imageLength sections) body := ⟨_, rfl⟩
  rw [← hordered] at hcount halign
  rw [← hcursor] at halign
  have hend : layoutEnd cursor ordered = imageLength sections := by
    rw [imageLength, ← hordered, ← hcursor, halign]
  have hfits : header.Fits := hheader ▸ fits_assembledHeader hash body h.known_flags h.minor_le hcount hmax
  have hentryFits : ∀ entry ∈ entries, entry.Fits := by
    intro entry hentry
    rw [hentries, hordered] at hentry
    exact h.fits_layoutEntries hash (by rw [← hordered, hend]) hentry
  have hlength : entries.length = ordered.length := by
    have hmap := congrArg List.length (map_kind_layoutEntries hash cursor ordered)
    rwa [length_map, length_map, ← hentries] at hmap
  have hsplit : body = entries.flatMap DirectoryEntry.pack ++ layoutBody cursor ordered := by
    rw [hbody, assembledBody, ← hcursor, halign, Nat.sub_self, zeros, replicate_zero, append_nil, hentries]
  have hpre : (header.pack ++ entries.flatMap DirectoryEntry.pack).length = cursor := by
    have hmap : entries.map (fun entry => entry.pack.length) = entries.map fun _ => directoryEntrySize :=
      map_congr_left fun entry hentry => (hentryFits entry hentry).length_pack
    rw [length_append, hfits.length_pack, length_flatMap, hmap, map_const', sum_replicate_nat, hlength, hcursor]
  have hdata : header.pack ++ body = (header.pack ++ entries.flatMap DirectoryEntry.pack) ++
      layoutBody cursor ordered := by
    rw [hsplit, append_assoc]
  obtain ⟨hgaps, hplaced⟩ := checkGaps_layout hash ordered hdata hpre
  rw [← hentries] at hgaps hplaced
  rw [hend] at hplaced
  have htotal : (header.pack ++ body).length = imageLength sections := by
    rw [hdata, length_append, hpre, length_layoutBody, hend]
  have hcursor_le : cursor ≤ imageLength sections := hend ▸ le_layoutEnd cursor ordered
  have hdirectory : header.directoryOffset + header.directoryLength = cursor := by
    rw [hheader, hcursor]
    rfl
  have hheaderLength : headerSize ≤ cursor := hcursor ▸ Nat.le_add_right _ _
  have hvalid : HeaderValid limits (header.pack ++ body) header := by
    have htake : (header.pack ++ body).take headerSize = header.pack := by
      rw [← hfits.length_pack, take_left]
    refine ⟨?_, ?_, ?_, ?_, ?_, ?_, ?_, ?_, ?_, ?_, ?_, ?_, ?_⟩
    case refine_8 => rw [htotal, hheader]; rfl
    case refine_9 =>
      rw [hheader]
      exact ⟨hordered ▸ h.sectionCount, Nat.le_trans hcount (by decide)⟩
    case refine_12 =>
      rw [hdirectory, hheader]
      exact hcursor_le
    case refine_13 =>
      rw [htake, hheader]
      exact assembledHeader_headerCrc hash body h.known_flags h.minor_le hcount hmax
    case refine_6 => rw [hheader]; exact h.known_flags
    all_goals rw [hheader]; rfl
  have hentriesValid : ∀ entry ∈ entries, EntryValid limits header entry := by
    intro entry hentry
    obtain ⟨kind, rows, offset, hrows, rfl, hmod, hlower, hupper, -, hsize⟩ :=
      h.forall_placed hash (hordered ▸ hplaced) hentry
    exact h.entryValid hash hrows hmod (hdirectory ▸ hlower) (by rw [hheader]; exact hupper) (by rw [hheader]; rfl) hsize
  refine ⟨header.pack ++ body, ⟨header, entries, entries.map (TableView.ofEntry (header.pack ++ body))⟩, ?_, ?_, rfl, ?_, ?_⟩
  · rw [h.assemble_eq, hheader, hbody, hordered]
  · refine ⟨?_, ?_, (hfits.unpack_pack body).symm, hvalid, ?_, ?_, hentriesValid, ?_, ?_, ?_, ?_⟩
    · rw [htotal]
      exact hheaderLength.trans hcursor_le
    · rw [htotal]
      exact h.bytes.1
    · rw [hsplit]
      refine (directory_flatMap_pack hentryFits ?_ ?_).symm
      · rw [hlength, hheader]
        rfl
      · rw [hfits.length_pack, hheader]
        rfl
    · have hkinds := pairwise_orderedSections sections
      rw [← hordered, ← pairwise_map (f := fun item : SectionKind × Bytes => item.1.code),
        ← map_kind_layoutEntries hash cursor, ← hentries, pairwise_map] at hkinds
      exact hkinds
    · exact h.requiredSeen_placed hash (hordered ▸ hplaced)
    · have hsorted : entries.Pairwise fun a b => a.offset ≤ b.offset :=
        (pairwise_of_checkGaps hgaps).2.imp fun hab => (Nat.le_add_right _ _).trans hab
      rw [hdirectory, hsorted.insertionSort_eq]
      exact hgaps
    · refine ⟨_, h.validateSection_placed hash (hordered ▸ hplaced), ?_⟩
      simp [filterMap_map]
    · intro _
      rw [hheader]
      exact assembledHeader_fileDigest hash body h.known_flags h.minor_le hcount hmax
  · refine (hordered ▸ hplaced).imp ?_
    rintro item entry ⟨offset, rfl, hmod, -, hupper, hslice⟩
    exact ⟨offset, rfl, hmod, Nat.zero_le _, hupper, hslice⟩
  · rw [hheader, hentries, hbody, hcursor, hordered]
    rfl

theorem Framable.table_eq {image : WireImage} (htables : image.tables = image.entries.map (TableView.ofEntry data))
    (hplaced : Forall₂ (Placed hash data 0 (imageLength sections)) (orderedSections sections) image.entries) (hrows :
    sections kind = some rows) :
    ∃ table, image.table kind = some table ∧ table.count = rows.length ∧ table.data = encodeTable rows ∧
      table.payload = 8 * (rows.length + 2) ∧ (encodeTable rows).length < 256 ^ 8 := by
  obtain ⟨table, htable⟩ : ∃ table, image.table kind = some table := by
    have hitem : (kind, encodeTable rows) ∈ orderedSections sections := mem_orderedSections.mpr ⟨rows, hrows, rfl⟩
    rw [← Option.isSome_iff_exists, WireImage.table, find?_isSome]
    obtain ⟨entry, hentry, offset, rfl, -⟩ :=
      exists_of_forall₂ hplaced (hitem)
    refine ⟨.ofEntry data (sectionEntry hash offset kind (encodeTable rows)), ?_, decide_eq_true rfl⟩
    exact htables ▸ mem_map_of_mem hentry
  have hkind : table.kind = kind.code := by
    have hfound := find?_some htable
    exact of_decide_eq_true hfound
  have hmem := mem_of_find?_eq_some htable
  rw [htables] at hmem
  obtain ⟨entry, hentry, rfl⟩ := mem_map.mp hmem
  obtain ⟨kind', rows', offset, hrows', rfl, -, -, -, hslice, hsize⟩ := h.forall_placed hash hplaced hentry
  obtain rfl : kind' = kind := SectionKind.code_injective hkind
  obtain rfl : rows' = rows := Option.some.inj (hrows'.symm.trans hrows)
  have hcount : (sectionEntry hash offset kind' (encodeTable rows')).rowCount = rows'.length := uintAt_encodeTable hsize
  refine ⟨_, htable, hcount, hslice, ?_, hsize⟩
  rw [TableView.ofEntry, hcount]

end

/-- Sections that fit are assembled into an image that is accepted with every row readable, and
every accepted byte string is well framed. -/
theorem wire_framing (hash : Hash) (limits : ParseLimits) :
    (∀ sections featureFlags minor, Framable limits sections featureFlags minor →
      ∃ data image, assemble hash limits (orderedSections sections) featureFlags minor = .ok data ∧
        validateWire hash limits data true = .ok image ∧
        ∀ kind rows, sections kind = some rows → ∃ table, image.table kind = some table ∧
          table.count = rows.length ∧ ∀ i row, rows[i]? = some row → table.row i = .ok row) ∧
    ∀ data verify image, validateWire hash limits data verify = .ok image → WellFramed data image := by
  constructor
  · intro sections featureFlags minor h
    obtain ⟨data, image, hassemble, haccepted, htables, hplaced, -⟩ := h.accepted hash
    refine ⟨data, image, hassemble, validateWire_eq_ok.mpr haccepted, fun kind rows hrows => ?_⟩
    obtain ⟨table, htable, hcount, hdata, hpayload, hsize⟩ := h.table_eq hash htables hplaced hrows
    refine ⟨table, htable, hcount, fun i row hrow => ?_⟩
    have hi : ¬table.count ≤ i := by
      rw [hcount]
      exact Nat.not_le.mpr (List.getElem?_eq_some_iff.mp hrow).1
    rw [TableView.row, if_neg hi, hdata, hpayload]
    exact congrArg _ (storedRow_encodeTable hsize hrow)
  · intro data verify image h
    exact (validateWire_eq_ok.mp h).wellFramed

end

def emptySections (kind : SectionKind) : Option (List Bytes) :=
  if kind ∈ SectionKind.required then some [] else none

theorem wire_framing_emptySections : ∃ data image,
    assemble sha256 defaultLimits (orderedSections emptySections) 0 2 = .ok data ∧
    validateWire sha256 defaultLimits data true = .ok image ∧ WellFramed data image := by
  have hframable : Framable defaultLimits emptySections 0 2 := by
    refine ⟨by decide, ?_, rfl, le_rfl, .inl rfl, rfl, .inl rfl, by decide, by decide, ?_⟩
    · intro kind rows hrows
      unfold emptySections at hrows
      split at hrows
      · obtain rfl := Option.some.inj hrows
        exact .nil
      · cases hrows
    · intro kind rows hrows
      unfold emptySections at hrows
      split at hrows
      · obtain rfl := Option.some.inj hrows
        exact ⟨Nat.zero_le _, Nat.zero_le _⟩
      · cases hrows
  obtain ⟨data, image, hassemble, hvalid, -⟩ := (wire_framing sha256 defaultLimits).1 emptySections 0 2 hframable
  exact ⟨data, image, hassemble, hvalid, (wire_framing sha256 defaultLimits).2 data true image hvalid⟩

/-- The required sections and the structural section of the first schema. -/
def sectionsWithV1 (kind : SectionKind) : Option (List Bytes) :=
  if kind = .encodedStructuralV1 then some [] else emptySections kind

theorem validateWire_sectionsWithV1 : ∃ data,
    assemble sha256 defaultLimits (orderedSections sectionsWithV1) 0 2 = .ok data ∧
    validateWire sha256 defaultLimits data true =
      .error (.wireVersion "ENCODED_STRUCTURAL_V1 is incompatible with model schema 2") := by
  obtain ⟨data, hdata⟩ := exists_of_isOk
    (x := assemble sha256 defaultLimits (orderedSections sectionsWithV1) 0 2) (by decide +kernel)
  refine ⟨data, hdata, ?_⟩
  have hrejected : ((assemble sha256 defaultLimits (orderedSections sectionsWithV1) 0 2).toOption.map fun data =>
      match validateWire sha256 defaultLimits data true with
      | .ok _ => none
      | .error e => some e) =
      some (some (.wireVersion "ENCODED_STRUCTURAL_V1 is incompatible with model schema 2")) := by decide +kernel
  rw [hdata] at hrejected
  have herror := Option.some.inj hrejected
  cases hresult : validateWire sha256 defaultLimits data true with
  | ok image => simp [hresult] at herror
  | error e =>
    simp only [hresult, Option.some.injEq] at herror
    rw [herror]

end OwlCore
