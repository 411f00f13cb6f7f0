import OwlCore.Wire.Cache
import Mathlib.Data.Prod.Lex

/-!
# Runs of the wire cache

`collect` removes the oldest entries that no snapshot has open until the rest is small enough. Over
every run of calls from an empty cache an entry holds a validated image under its own digest, so the
calls themselves never leave a misnamed entry behind.
-/
namespace OwlCore.WireCache

open Fallible List

/-- What the walk of `collect` learns of a recognized regular file. -/
structure Found where
  mtime : Nat
  structural : Bytes
  wire : Bytes
  size : Nat
  active : Bool

structure CacheGCReport where
  examined : Nat
  removed : Nat
  reclaimed : Nat
  activeSkipped : Nat
  retained : Nat

/-- `(mtime, path, size)`; the names of recognized entries have one length, so paths compare as digests do. -/
def Found.key (file : Found) : Nat ×ₗ Bytes ×ₗ Bytes ×ₗ Nat :=
  toLex (file.mtime, toLex (file.structural, toLex (file.wire, file.size)))

/-- The second loop of `collect`: the removed files and the retained bytes. -/
def collectLoop (unlinks : Found → Bool) (maximum : Nat) : List Found → Nat → List Found × Nat
  | [], retained => ([], retained)
  | file :: rest, retained =>
    if retained ≤ maximum then ([], retained)
    else if unlinks file then
      let (removed, left) := collectLoop unlinks maximum rest (retained - file.size)
      (file :: removed, left)
    else collectLoop unlinks maximum rest retained

def totalSize (files : List Found) : Nat := (files.map Found.size).sum

/-- `collect`; the walk gives `none` for what is no regular file, and `unlinks` says where `unlink` succeeds. -/
def collect (cache : WireCache) (walked : List (Option Found)) (unlinks : Found → Bool) (maximum : Nat) :
    CacheGCReport × WireCache :=
  let found := walked.filterMap id
  let candidates := (found.filter (!·.active)).insertionSort (·.key ≤ ·.key)
  let loop := collectLoop unlinks maximum candidates (totalSize found)
  (⟨walked.length, loop.1.length, totalSize loop.1, found.countP Found.active, loop.2⟩,
    loop.1.foldl (fun cache file => cache.setEntry file.structural file.wire none) cache)

/-- The bytes that are left of `retained` when the files that can be unlinked are gone. -/
def leftBytes (unlinks : Found → Bool) (retained : Nat) (tried : List Found) : Nat :=
  retained - totalSize (tried.filter unlinks)

/-- The files are tried in their order, each because too much is left, until the rest fits. -/
structure Collected (unlinks : Found → Bool) (maximum retained : Nat) (tried left : List Found) : Prop where
  stop : left = [] ∨ leftBytes unlinks retained tried ≤ maximum
  needed : ∀ earlier file later, tried = earlier ++ file :: later → maximum < leftBytes unlinks retained earlier

theorem Collected.cons {maximum r retained : Nat} (h : Collected unlinks maximum r tried left) (hover : ¬retained ≤ maximum)
    (hbytes : ∀ files, leftBytes unlinks retained (file :: files) = leftBytes unlinks r files) :
    Collected unlinks maximum retained (file :: tried) left := by
  refine ⟨by rw [hbytes]; exact h.stop, ?_⟩
  rintro (_ | ⟨first, earlier⟩) next later htried
  · exact Nat.lt_of_not_le hover
  · obtain ⟨rfl, hrest⟩ := cons.inj htried
    exact hbytes earlier ▸ h.needed earlier next later hrest

theorem collectLoop_spec (unlinks : Found → Bool) (maximum : Nat) (files : List Found) (retained : Nat) :
    ∃ tried left, files = tried ++ left ∧ Collected unlinks maximum retained tried left ∧
      collectLoop unlinks maximum files retained = (tried.filter unlinks, leftBytes unlinks retained tried) := by
  fun_induction collectLoop unlinks maximum files retained with
  | case1 retained => exact ⟨[], [], rfl, ⟨.inl rfl, by simp⟩, rfl⟩
  | case2 file rest retained hfits => exact ⟨[], file :: rest, rfl, ⟨.inr hfits, by simp⟩, rfl⟩
  | case3 file rest retained hover hunlinks removed left hloop ih =>
    obtain ⟨tried, rest', rfl, hcollected, hreport⟩ := ih
    obtain ⟨rfl, rfl⟩ := Prod.mk.inj (hloop.symm.trans hreport)
    refine ⟨file :: tried, rest', rfl, hcollected.cons hover ?_, ?_⟩ <;> simp [leftBytes, totalSize, hunlinks, Nat.sub_sub]
  | case4 file rest retained hover hunlinks ih =>
    obtain ⟨tried, rest', rfl, hcollected, hreport⟩ := ih
    refine ⟨file :: tried, rest', rfl, hcollected.cons hover ?_, ?_⟩ <;> simp [hreport, leftBytes, hunlinks]

theorem entries_foldl_setEntry (files : List Found) (cache : WireCache) (structural wire : Bytes) :
    (files.foldl (fun cache file => cache.setEntry file.structural file.wire none) cache).entries structural wire =
      if ∃ file ∈ files, structural = file.structural ∧ wire = file.wire then none
      else cache.entries structural wire := by
  induction files generalizing cache with
  | nil => simp
  | cons file rest ih =>
    rw [foldl_cons, ih]
    by_cases hfile : structural = file.structural ∧ wire = file.wire <;> simp [setEntry, hfile]

/-- The collection tries the files that are not active from the oldest on and stops when the rest is
within the maximum, not earlier and not later; the entries that it unlinked are gone and no others. -/
theorem collect_exact (cache : WireCache) (walked : List (Option Found)) (unlinks : Found → Bool) (maximum : Nat) :
    ∃ tried left, (tried ++ left).Perm ((walked.filterMap id).filter (!·.active)) ∧
      (tried ++ left).Pairwise (·.key ≤ ·.key) ∧
      Collected unlinks maximum (totalSize (walked.filterMap id)) tried left ∧
      (cache.collect walked unlinks maximum).1 =
        ⟨walked.length, (tried.filter unlinks).length, totalSize (tried.filter unlinks),
          (walked.filterMap id).countP Found.active, leftBytes unlinks (totalSize (walked.filterMap id)) tried⟩ ∧
      ∀ structural wire, (cache.collect walked unlinks maximum).2.entries structural wire =
        if ∃ file ∈ tried.filter unlinks, structural = file.structural ∧ wire = file.wire then none
        else cache.entries structural wire := by
  obtain ⟨tried, left, hfiles, hcollected, hreport⟩ := collectLoop_spec unlinks maximum
    (((walked.filterMap id).filter (!·.active)).insertionSort (·.key ≤ ·.key)) (totalSize (walked.filterMap id))
  refine ⟨tried, left, hfiles ▸ perm_insertionSort _ _, ?_, hcollected, by simp only [collect, hreport],
    fun structural wire => ?_⟩
  · rw [← hfiles]
    exact pairwise_insertionSort _ _
  · simp only [collect, hreport]
    exact entries_foldl_setEntry _ cache structural wire

section

variable (hash : Hash) (limits : ParseLimits) (columns : EncodedColumns) (decode : Bytes → Except Error Unit)

/-- The caches that calls reach from an empty one. -/
inductive Run : WireCache → Prop where
  | empty : Run ⟨fun _ _ => none, []⟩
  | publish (run : Run cache) (structural : Fingerprint) (source : WireSource) :
      Run (publish hash limits columns decode cache structural source).2
  | openEntry (run : Run cache) (structural : Fingerprint) (wire : Bytes) :
      Run (openEntry hash limits columns cache structural wire).2
  | collect (run : Run cache) (walked : List (Option Found)) (unlinks : Found → Bool) (maximum : Nat) :
      Run (cache.collect walked unlinks maximum).2

/-- Every entry is an image that both validators of a publication passed, under its own digest. -/
def Named (cache : WireCache) : Prop :=
  ∀ structural wire, ∀ content ∈ cache.entries structural wire,
    slice content 56 88 = wire ∧ (validateReferenceBuffer hash content).isOk ∧ decode content = .ok ()

end

variable {hash : Hash} {limits : ParseLimits} {columns : EncodedColumns} {decode : Bytes → Except Error Unit}

theorem Named.setEntry (h : Named hash decode cache) (structural wire : Bytes) (hnew : ∀ content ∈ new,
    slice content 56 88 = wire ∧ (validateReferenceBuffer hash content).isOk ∧ decode content = .ok ()) :
    Named hash decode (cache.setEntry structural wire new) := by
  intro s w content hentry
  by_cases hsame : s = structural ∧ w = wire
  · exact hsame.2 ▸ hnew content (by simpa [WireCache.setEntry, hsame] using hentry)
  · exact h s w content (by simpa [WireCache.setEntry, hsame] using hentry)

theorem Named.quarantine (h : Named hash decode cache) (structural wire : Bytes) :
    Named hash decode (cache.quarantine structural wire) := h.setEntry structural wire (by simp)

theorem Named.publishBytes (h : Named hash decode cache) (structural encoded : Bytes) :
    Named hash decode (publishBytes hash decode cache structural (slice encoded 56 88) encoded).2 := by
  unfold WireCache.publishBytes
  split
  next hvalid =>
    obtain ⟨validation, hreference, hdecode⟩ := bind_eq_ok.mp hvalid
    refine h.setEntry _ _ ?_
    rintro _ ⟨rfl⟩
    exact ⟨rfl, by rw [hreference]; rfl, hdecode⟩
  next => exact h

theorem Run.named (run : Run hash limits columns decode cache) : Named hash decode cache := by
  induction run with
  | empty => rintro _ _ _ ⟨⟩
  | publish run structural source ih =>
    unfold WireCache.publish
    cases encodeSnapshot hash limits columns source with
    | error error => exact ih
    | ok encoded =>
      have hreplaced := (ih.quarantine structural.digest (slice encoded 56 88)).publishBytes structural.digest encoded
      dsimp only
      repeat' split
      all_goals first | exact ih | exact hreplaced | exact ih.publishBytes _ _
  | openEntry run structural wire ih =>
    have hmissing := ih.quarantine structural.digest wire
    unfold WireCache.openEntry
    dsimp only
    repeat' split
    all_goals first | exact ih | exact hmissing
  | collect run walked unlinks maximum ih =>
    intro structural wire content hentry
    rw [WireCache.collect, entries_foldl_setEntry] at hentry
    split at hentry
    · cases hentry
    · exact ih _ _ _ hentry

/-- Over every run the entries are validated images under their own digests, so no call of a run ever
meets a misnamed entry. -/
theorem run_never_misnamed (run : Run hash limits columns decode cache) :
    Named hash decode cache ∧ ∀ structural wire, ¬Misnamed hash limits columns cache structural wire := by
  refine ⟨run.named, ?_⟩
  rintro structural wire ⟨content, existing, hentry, hvalid, -, hdigest⟩
  have haccepted := validateWire_eq_ok.mp (validateBytes_eq_ok.mp hvalid).1
  apply hdigest
  rw [← (run.named _ _ _ hentry).1, haccepted.header_eq]
  rfl

theorem run_never_misnamed_published : ¬Misnamed sha256 defaultLimits noColumns
    (publish sha256 defaultLimits noColumns (fun _ => .ok ()) ⟨fun _ _ => none, []⟩ ⟨1, zeros 32⟩
      (.mapped (countedImage 0))).2 ⟨1, zeros 32⟩ (slice (countedImage 0) 56 88) :=
  (run_never_misnamed (.publish .empty _ _)).2 _ _

end OwlCore.WireCache
