import OwlCore.Lib.Dictionary
import Mathlib.Algebra.Order.Group.Int
import Mathlib.Algebra.Ring.Nat
import Mathlib.Algebra.BigOperators.Group.List.Basic
import Mathlib.Data.List.Perm.Basic

/-!
# The accounting of the index cache

`IndexCache` of `index/cache.py` as a state machine. A step is what happens under the lock, so a
run is any interleaving of threads; a builder that requests another view is one more build in
flight. The state also has the running builds with their reservations, the objects that died and
the answers given. The counters of the report are left out.
-/
namespace OwlCore.ViewCache

open Dictionary List

inductive CacheRetention where
  | strong
  | weak
  deriving DecidableEq

structure IndexCachePolicy where
  maxBytes : Option Nat
  retention : CacheRetention
  deriving DecidableEq

/-- `_CacheEntry`: a weak reference and the bytes of the object. -/
structure CacheEntry (O : Type) where
  value : O
  bytes : Nat
  deriving DecidableEq

/-- A build with the bytes of its budget, while it has an entry in `_inflight`. A build that failed
gives its bytes back first. -/
structure Build (K T : Type) where
  key : K
  owner : T
  bytes : Nat
  released : Bool
  deriving DecidableEq

def Build.reservation {K T : Type} (build : Build K T) : Nat := if build.released then 0 else build.bytes

structure IndexCache (K T O : Type) where
  maxIndexBytes : Nat
  maxMemoryBytes : Option Nat
  policy : IndexCachePolicy
  entries : List (K × CacheEntry O)
  strong : List (K × O)
  inflight : List (K × T)
  bytes : Int
  reserved : Int
  builds : List (Build K T)
  dead : List O
  returned : List (K × O)

/-- How one turn of the loop in `get_or_build` ends. -/
inductive Answer (O : Type) where
  | hit (object : O)
  | started
  | reentrancy
  | waits
  deriving DecidableEq

section

variable {K T O : Type} [DecidableEq K] [DecidableEq T] [DecidableEq O]

def initial (maxIndexBytes : Nat) (maxMemoryBytes : Option Nat) (policy : IndexCachePolicy) :
    IndexCache K T O :=
  ⟨maxIndexBytes, maxMemoryBytes, policy, [], [], [], 0, 0, [], [], []⟩

def maximumBytes (c : IndexCache K T O) : Nat :=
  (c.policy.maxBytes.toList ++ c.maxMemoryBytes.toList).foldl min c.maxIndexBytes

def sizeIn (entries : List (K × CacheEntry O)) (key : K) : Nat :=
  ((get? entries key).map CacheEntry.bytes).getD 0

/-- The loop of `_evict_until` over the strong entries, oldest first. -/
def evictLoop (entries : List (K × CacheEntry O)) (maximum : Nat) (others : Int) :
    List (K × O) → Int → List (K × O) × Int
  | [], bytes => ([], bytes)
  | oldest :: rest, bytes =>
    if bytes + others > maximum then evictLoop entries maximum others rest (bytes - sizeIn entries oldest.1)
    else (oldest :: rest, bytes)

def evictUntil (c : IndexCache K T O) (incoming : Nat) : IndexCache K T O :=
  let kept := evictLoop c.entries (maximumBytes c) (c.reserved + incoming) c.strong c.bytes
  { c with strong := kept.1, bytes := kept.2 }

def removeEntry (c : IndexCache K T O) (key : K) : IndexCache K T O :=
  match get? c.entries key with
  | none => c
  | some entry =>
    let c := { c with entries := remove c.entries key }
    if key ∈ Dictionary.keys c.strong then { c with strong := remove c.strong key, bytes := c.bytes - entry.bytes } else c

def discardDeadWeak (c : IndexCache K T O) : IndexCache K T O :=
  (c.entries.filter fun e => e.2.value ∈ c.dead).foldl (fun c e => removeEntry c e.1) c

def retain (c : IndexCache K T O) (key : K) (entry : CacheEntry O) : IndexCache K T O :=
  if c.policy.retention = .strong then
    if key ∈ keys c.strong then { c with strong := toEnd c.strong key }
    else if entry.bytes ≤ maximumBytes c then
      let c := evictUntil c entry.bytes
      if c.bytes + c.reserved + entry.bytes ≤ maximumBytes c then
        { c with strong := c.strong ++ [(key, entry.value)], bytes := c.bytes + entry.bytes }
      else c
    else c
  else c

/-- The part of `get_or_build` after the entry of a dead object is gone. -/
def enter (c : IndexCache K T O) (key : K) (thread : T) : Answer O × IndexCache K T O :=
  match get? c.inflight key with
  | none =>
    (.started, { c with
      inflight := assign c.inflight key thread
      builds := c.builds ++ [⟨key, thread, 0, false⟩] })
  | some owner => if owner = thread then (.reentrancy, c) else (.waits, c)

/-- One turn of the loop in `get_or_build`. A thread that waits tries again in a later step. -/
def request (c : IndexCache K T O) (key : K) (thread : T) : Answer O × IndexCache K T O :=
  match get? c.entries key with
  | none => enter c key thread
  | some entry =>
    if entry.value ∈ c.dead then enter (removeEntry c key) key thread
    else
      let c := retain { c with entries := toEnd c.entries key } key entry
      (.hit entry.value, { c with returned := c.returned ++ [(key, entry.value)] })

def updateBuild (c : IndexCache K T O) (key : K) (change : Build K T → Build K T) : IndexCache K T O :=
  { c with builds := c.builds.map fun build => if build.key = key then change build else build }

/-- `IndexBuildBudget.add` of a build, from the point where it reserves: `_reserve`. -/
def reserve (c : IndexCache K T O) (key : K) (amount : Nat) : IndexCache K T O :=
  let c := discardDeadWeak c
  let c := if c.bytes + c.reserved + amount > maximumBytes c then evictUntil c amount else c
  if c.bytes + c.reserved + amount > maximumBytes c then c
  else updateBuild { c with reserved := c.reserved + amount } key fun build =>
    { build with bytes := build.bytes + amount }

/-- The build is over: `_inflight.pop(key, None)`. -/
def leave (c : IndexCache K T O) (key : K) : IndexCache K T O :=
  { c with
    inflight := remove c.inflight key
    builds := c.builds.filter fun build => build.key ≠ key }

/-- A build that returned an object, which may not support weak references. -/
def succeed (c : IndexCache K T O) (build : Build K T) (created : O) (weakReferable : Bool) :
    IndexCache K T O :=
  let c := { c with reserved := c.reserved - build.bytes }
  if weakReferable then
    let c := { c with entries := toEnd (assign c.entries build.key ⟨created, build.bytes⟩) build.key }
    let c :=
      if c.policy.retention = .strong then
        { c with
          strong := toEnd (assign c.strong build.key created) build.key
          bytes := c.bytes + build.bytes }
      else c
    { leave c build.key with returned := c.returned ++ [(build.key, created)] }
  else leave c build.key

/-- `configure`, when nothing is in flight. -/
def configure (c : IndexCache K T O) (policy : IndexCachePolicy) : IndexCache K T O :=
  let c := { c with policy }
  evictUntil (if policy.retention = .weak then { c with strong := [], bytes := 0 } else c) 0

inductive Event (K T O : Type) where
  | request (key : K) (thread : T)
  | reserve (key : K) (amount : Nat)
  | succeed (key : K) (created : O) (weakReferable : Bool)
  /-- A failed build gives its bytes back: `IndexBuildBudget._release`. -/
  | giveBack (key : K)
  /-- A failed build that gave its bytes back leaves. -/
  | abandon (key : K)
  | configure (policy : IndexCachePolicy)
  | clear
  | report
  /-- The last reference to an object goes, while the cache holds none. -/
  | die (object : O)

def building (c : IndexCache K T O) (key : K) : Option (Build K T) :=
  c.builds.find? fun build => build.key = key ∧ build.released = false

def step (c : IndexCache K T O) : Event K T O → Option (IndexCache K T O)
  | .request key thread => some (request c key thread).2
  | .reserve key amount => (building c key).map fun _ => reserve c key amount
  | .succeed key created weakReferable =>
    if created ∈ c.dead then none
    else (building c key).map fun build => succeed c build created weakReferable
  | .giveBack key => (building c key).map fun build =>
    updateBuild { c with reserved := c.reserved - build.bytes } key fun build => { build with released := true }
  | .abandon key =>
    if c.builds.any fun build => build.key = key ∧ build.released = true then some (leave c key) else none
  | .configure policy => some (if c.inflight = [] then configure c policy else c)
  | .clear => some (if c.inflight = [] then { c with strong := [], bytes := 0 } else c)
  | .report => some (discardDeadWeak c)
  | .die object =>
    if c.strong.any fun e => e.2 = object then none else some { c with dead := c.dead ++ [object] }

def Reachable (start c : IndexCache K T O) : Prop := ∃ events : List (Event K T O), events.foldlM step start = some c

end

section

variable {K T O : Type} [DecidableEq K] {entries entries' : List (K × CacheEntry O)} {strong : List (K × O)}

def held (entries : List (K × CacheEntry O)) (strong : List (K × O)) : Nat :=
  (strong.map fun e => sizeIn entries e.1).sum

theorem held_congr (h : ∀ e ∈ strong, get? entries' e.1 = get? entries e.1) :
    held entries' strong = held entries strong := by
  unfold held
  congr 1
  exact map_congr_left fun e he => by rw [sizeIn, sizeIn, h e he]

theorem held_perm (h : strong'.Perm strong) : held entries strong' = held entries strong :=
  (h.map _).sum_eq

theorem held_append (strong strong' : List (K × O)) :
    held entries (strong ++ strong') = held entries strong + held entries strong' := by
  simp [held]

theorem held_suffix_le (h : strong' <:+ strong) :
    held entries strong' ≤ held entries strong := by
  obtain ⟨front, rfl⟩ := h
  rw [held_append]
  omega

/-- Eviction keeps the youngest strong entries and the bytes that belong to them, and stops when
there is room or nothing is left. -/
theorem evictLoop_spec (maximum : Nat) (others : Int) {bytes : Int} (hbytes : bytes = held entries strong) :
    let kept := evictLoop entries maximum others strong bytes
    kept.1 <:+ strong ∧ kept.2 = held entries kept.1 ∧ (kept.1 = [] ∨ kept.2 + others ≤ maximum) := by
  induction strong generalizing bytes with
  | nil => exact ⟨suffix_rfl, hbytes, .inl rfl⟩
  | cons oldest rest ih =>
    have hsplit : held entries (oldest :: rest) = sizeIn entries oldest.1 + held entries rest := by simp [held]
    by_cases hover : bytes + others > maximum
    · have hrest := @ih (bytes - sizeIn entries oldest.1) (by omega)
      simp only [evictLoop, if_pos hover]
      exact ⟨hrest.1.trans (suffix_cons oldest rest), hrest.2⟩
    · simp only [evictLoop, if_neg hover]
      exact ⟨suffix_rfl, hbytes, .inr (by omega)⟩

end

section

variable {K T O : Type} [DecidableEq K]

/-- A strong entry is the entry of its key, alive, and counted; an answer is the entry of its key for as
long as it lives. -/
structure Store (c : IndexCache K T O) : Prop where
  nodup_entries : (keys c.entries).Nodup
  nodup_strong : (keys c.strong).Nodup
  strong_entry : ∀ e ∈ c.strong, ∃ entry, get? c.entries e.1 = some entry ∧ entry.value = e.2
  strong_live : ∀ e ∈ c.strong, e.2 ∉ c.dead
  bytes_eq : c.bytes = held c.entries c.strong
  returned_entry : ∀ e ∈ c.returned, e.2 ∉ c.dead → ∃ entry, get? c.entries e.1 = some entry ∧ entry.value = e.2

/-- The builds: one for each key in flight, none for a key with an entry. -/
structure Flights (c : IndexCache K T O) : Prop where
  reserved_eq : c.reserved = ((c.builds.map Build.reservation).sum : Nat)
  inflight_eq : c.inflight = c.builds.map fun build => (build.key, build.owner)
  nodup_builds : (c.builds.map Build.key).Nodup
  entry_none : ∀ build ∈ c.builds, get? c.entries build.key = none

structure Accounted (c : IndexCache K T O) : Prop where
  store : Store c
  flights : Flights c
  bounded : c.bytes + c.reserved ≤ maximumBytes c

/-- The cache gives up strong references and entries of dead objects, and nothing else. -/
structure Sheds (c c' : IndexCache K T O) : Prop where
  same : c' = { c with entries := c'.entries, strong := c'.strong, bytes := c'.bytes }
  bytes_le : c'.bytes ≤ c.bytes
  entries : ∀ key, get? c'.entries key = get? c.entries key ∨
    get? c'.entries key = none ∧ ∃ entry, get? c.entries key = some entry ∧ entry.value ∈ c.dead

variable {c c' c'' : IndexCache K T O}

theorem Sheds.refl (c : IndexCache K T O) : Sheds c c := ⟨rfl, le_rfl, fun _ => .inl rfl⟩

theorem Sheds.dead (h : Sheds c c') : c'.dead = c.dead := by rw [h.same]

theorem Sheds.maximumBytes (h : Sheds c c') : maximumBytes c' = maximumBytes c := by rw [h.same]; rfl

theorem Sheds.trans (h : Sheds c c') (h' : Sheds c' c'') : Sheds c c'' where
  same := by rw [h'.same, h.same]
  bytes_le := h'.bytes_le.trans h.bytes_le
  entries := by
    intro key
    rcases h'.entries key with hkeep | ⟨hnone, entry, hentry, hdead⟩
    · rw [hkeep]
      exact h.entries key
    · rcases h.entries key with hkeep | hgone
      · exact .inr ⟨hnone, entry, hkeep ▸ hentry, h.dead ▸ hdead⟩
      · exact .inr ⟨hnone, hgone.2⟩

theorem Accounted.bounded_of (h : Accounted c) (hindex : c'.maxIndexBytes = c.maxIndexBytes)
    (hmemory : c'.maxMemoryBytes = c.maxMemoryBytes) (hpolicy : c'.policy = c.policy)
    (hle : c'.bytes + c'.reserved ≤ c.bytes + c.reserved) : c'.bytes + c'.reserved ≤ maximumBytes c' := by
  have hmaximum : maximumBytes c' = maximumBytes c := by simp only [ViewCache.maximumBytes, hindex, hmemory, hpolicy]
  rw [hmaximum]
  exact hle.trans h.bounded

theorem Accounted.of_sheds (h : Accounted c) (hsheds : Sheds c c') (hstore : Store c') : Accounted c' where
  store := hstore
  flights := by
    have hsame := hsheds.same
    refine ⟨?_, ?_, ?_, ?_⟩
    · rw [hsame]; exact h.flights.reserved_eq
    · rw [hsame]; exact h.flights.inflight_eq
    · rw [hsame]; exact h.flights.nodup_builds
    · intro build hbuild
      have hbuild' : build ∈ c.builds := by rw [hsame] at hbuild; exact hbuild
      have hnone := h.flights.entry_none build hbuild'
      rcases hsheds.entries build.key with hkeep | hgone
      · rw [hkeep, hnone]
      · exact hgone.1
  bounded := by
    have hreserved : c'.reserved = c.reserved := by rw [hsheds.same]
    rw [hsheds.maximumBytes, hreserved]
    have hbytes := hsheds.bytes_le
    have hbound := h.bounded
    omega

theorem Store.evictUntil (h : Store c) (incoming : Nat) :
    Sheds c (evictUntil c incoming) ∧ Store (evictUntil c incoming) ∧ ((evictUntil c incoming).strong = [] ∨
        (evictUntil c incoming).bytes + c.reserved + incoming ≤ ViewCache.maximumBytes c) := by
  obtain ⟨hsuffix, hbytes, hroom⟩ := evictLoop_spec (ViewCache.maximumBytes c) (c.reserved + incoming) h.bytes_eq
  have hle : held c.entries _ ≤ held c.entries c.strong := held_suffix_le hsuffix
  refine ⟨⟨rfl, ?_, fun _ => .inl rfl⟩, ⟨h.nodup_entries, ?_, ?_, ?_, hbytes, h.returned_entry⟩, ?_⟩
  · have hheld := h.bytes_eq
    simp only [ViewCache.evictUntil]
    omega
  · exact h.nodup_strong.sublist (hsuffix.sublist.map Prod.fst)
  · exact fun e he => h.strong_entry e (hsuffix.subset he)
  · exact fun e he => h.strong_live e (hsuffix.subset he)
  · refine hroom.imp_right fun hle => ?_
    simp only [ViewCache.evictUntil]
    omega

theorem Store.not_mem_strong (h : Store c) (hentry : get? c.entries key = some entry) (hdead : entry.value ∈ c.dead) : key ∉ keys c.strong := by
  intro hmem
  obtain ⟨object, hobject⟩ := mem_keys.mp hmem
  obtain ⟨entry', hentry', hvalue⟩ := h.strong_entry _ hobject
  obtain rfl : entry = entry' := Option.some.inj (hentry.symm.trans hentry')
  exact h.strong_live _ hobject (hvalue ▸ hdead)

/-- Removing the entry of a dead object touches no strong reference and no answer that lives. -/
theorem Store.removeEntry (h : Store c) (hdead : ∀ entry, get? c.entries key = some entry → entry.value ∈ c.dead) :
    Sheds c (removeEntry c key) ∧ Store (removeEntry c key) ∧ get? (removeEntry c key).entries key = none := by
  unfold ViewCache.removeEntry
  split
  · rename_i hnone
    exact ⟨.refl c, h, hnone⟩
  · rename_i entry hentry
    have hnot : key ∉ keys c.strong := h.not_mem_strong hentry (hdead entry hentry)
    have hother : ∀ e, e ∈ c.strong → e.1 ≠ key := fun e he heq => hnot (heq ▸ mem_map_of_mem he)
    have hget : ∀ other, get? (remove c.entries key) other =
        if other = key then none else get? c.entries other := fun other => get?_remove
    simp only [hnot, if_false]
    refine ⟨⟨rfl, le_rfl, fun other => ?_⟩, ⟨nodup_remove h.nodup_entries, h.nodup_strong, ?_, h.strong_live, ?_, ?_⟩, ?_⟩
    · by_cases hother : other = key
      · exact .inr ⟨by rw [hget, if_pos hother], entry, hother ▸ hentry, hdead entry hentry⟩
      · exact .inl (by rw [hget, if_neg hother])
    · intro e he
      rw [hget, if_neg (hother e he)]
      exact h.strong_entry e he
    · rw [h.bytes_eq]
      refine congrArg Nat.cast (held_congr fun e he => ?_).symm
      rw [hget, if_neg (hother e he)]
    · intro e he hlive
      obtain ⟨entry', hentry', hvalue⟩ := h.returned_entry e he hlive
      have hne : e.1 ≠ key := by
        intro heq
        obtain rfl : entry = entry' := Option.some.inj (hentry.symm.trans (heq ▸ hentry'))
        exact hlive (hvalue ▸ hdead entry hentry)
      rw [hget, if_neg hne]
      exact ⟨entry', hentry', hvalue⟩
    · rw [hget, if_pos rfl]

variable [DecidableEq O]

theorem Store.discardDeadWeak (h : Store c) : Sheds c (discardDeadWeak c) ∧ Store (discardDeadWeak c) := by
  refine List.foldlRecOn (motive := fun c' => Sheds c c' ∧ Store c') _ _ ⟨.refl c, h⟩ ?_
  rintro c' ⟨hsheds, hstore⟩ e he
  obtain ⟨hmem, hdead⟩ := mem_filter.mp he
  have hgone : ∀ entry, get? c'.entries e.1 = some entry → entry.value ∈ c'.dead := by
    intro entry hentry
    rcases hsheds.entries e.1 with hkeep | ⟨hnone, -⟩
    · rw [hkeep, get?_of_mem h.nodup_entries hmem, Option.some.injEq] at hentry
      rw [hsheds.dead, ← hentry]
      simpa using hdead
    · rw [hnone] at hentry
      cases hentry
  obtain ⟨hsheds', hstore', -⟩ := hstore.removeEntry hgone
  exact ⟨hsheds.trans hsheds', hstore'⟩

theorem Accounted.discardDeadWeak (h : Accounted c) : Accounted (discardDeadWeak c) :=
  h.of_sheds h.store.discardDeadWeak.1 h.store.discardDeadWeak.2

omit [DecidableEq O] in
theorem Accounted.evictUntil (h : Accounted c) (incoming : Nat) : Accounted (evictUntil c incoming) :=
  h.of_sheds (h.store.evictUntil incoming).1 (h.store.evictUntil incoming).2.1

omit [DecidableEq O] in
theorem Store.toEnd_entries (h : Store c) (key : K) :
    Sheds c { c with entries := toEnd c.entries key } ∧ Store { c with entries := toEnd c.entries key } := by
  have hget : ∀ other, get? (toEnd c.entries key) other = get? c.entries other :=
    fun other => get?_perm toEnd_perm h.nodup_entries
  refine ⟨⟨rfl, le_rfl, fun other => .inl (hget other)⟩,
    ⟨(toEnd_perm.map Prod.fst).nodup_iff.mpr h.nodup_entries, h.nodup_strong, ?_, h.strong_live, ?_, ?_⟩⟩
  · intro e he
    rw [hget]
    exact h.strong_entry e he
  · rw [h.bytes_eq]
    exact congrArg Nat.cast (held_congr fun e _ => hget e.1).symm
  · intro e he hlive
    rw [hget]
    exact h.returned_entry e he hlive

omit [DecidableEq O] in
/-- A new strong reference to the object of an entry, counted with the bytes of the entry. -/
theorem Store.addStrong (h : Store c) (entry : CacheEntry O) (hentry : get? c.entries key = some entry) (hlive :
    entry.value ∉ c.dead) (hnew : key ∉ keys c.strong) :
    Store { c with strong := c.strong ++ [(key, entry.value)], bytes := c.bytes + entry.bytes } where
  nodup_entries := h.nodup_entries
  nodup_strong := by
    rw [Dictionary.keys, map_append]
    exact List.Nodup.append h.nodup_strong (nodup_singleton key) (by simpa [Dictionary.mem_keys] using hnew)
  strong_entry := by
    intro e he
    rcases mem_append.mp he with hold | hlast
    · exact h.strong_entry e hold
    · rw [mem_singleton.mp hlast]
      exact ⟨entry, hentry, rfl⟩
  strong_live := by
    intro e he
    rcases mem_append.mp he with hold | hlast
    · exact h.strong_live e hold
    · rw [mem_singleton.mp hlast]
      exact hlive
  bytes_eq := by
    have hlast : held c.entries [(key, entry.value)] = entry.bytes := by simp [held, sizeIn, hentry]
    rw [held_append, hlast, h.bytes_eq]
    rfl
  returned_entry := h.returned_entry

omit [DecidableEq O] in
theorem Accounted.retain (h : Accounted c) (hentry : get? c.entries key = some entry) (hlive : entry.value ∉ c.dead) :
    Accounted (retain c key entry) ∧ (retain c key entry).returned = c.returned ∧
      (retain c key entry).dead = c.dead ∧ (retain c key entry).entries = c.entries := by
  unfold ViewCache.retain
  split
  swap
  · exact ⟨h, rfl, rfl, rfl⟩
  split
  · -- already held: the reference moves to the end
    refine ⟨⟨⟨h.store.nodup_entries, (toEnd_perm.map Prod.fst).nodup_iff.mpr h.store.nodup_strong, ?_, ?_, ?_,
      h.store.returned_entry⟩, { h.flights with }, h.bounded⟩, rfl, rfl, rfl⟩
    · exact fun e he => h.store.strong_entry e (toEnd_perm.mem_iff.mp he)
    · exact fun e he => h.store.strong_live e (toEnd_perm.mem_iff.mp he)
    · rw [h.store.bytes_eq]
      exact congrArg Nat.cast (held_perm toEnd_perm).symm
  · rename_i hnew
    split
    swap
    · exact ⟨h, rfl, rfl, rfl⟩
    have hevicted : Accounted (ViewCache.evictUntil c entry.bytes) := h.evictUntil entry.bytes
    simp only
    split
    swap
    · exact ⟨hevicted, rfl, rfl, rfl⟩
    rename_i hroom
    have hnew' : key ∉ keys (ViewCache.evictUntil c entry.bytes).strong := by
      intro hmem
      have hsuffix := (evictLoop_spec (ViewCache.maximumBytes c) (c.reserved + entry.bytes) h.store.bytes_eq).1
      exact hnew ((hsuffix.sublist.map Prod.fst).subset hmem)
    refine ⟨⟨hevicted.store.addStrong entry hentry hlive hnew', { hevicted.flights with }, ?_⟩, rfl, rfl, rfl⟩
    have hmaximum : ∀ strong bytes, ViewCache.maximumBytes
        { ViewCache.evictUntil c entry.bytes with strong := strong, bytes := bytes } =
          ViewCache.maximumBytes (ViewCache.evictUntil c entry.bytes) := fun _ _ => rfl
    rw [hmaximum]
    simp only
    omega

omit [DecidableEq O] in
theorem Flights.get?_inflight (h : Flights c) :
    get? c.inflight key = none ↔ ∀ build ∈ c.builds, build.key ≠ key := by
  rw [get?_eq_none, h.inflight_eq]
  simp [Dictionary.keys, eq_comm]

omit [DecidableEq O] in
theorem Accounted.enter [DecidableEq T] (h : Accounted c) (hnone : get? c.entries key = none) (thread : T) :
    Accounted (enter c key thread).2 := by
  unfold ViewCache.enter
  split
  · rename_i hfree
    have hnew : ∀ build ∈ c.builds, build.key ≠ key := h.flights.get?_inflight.mp hfree
    have hassign : assign c.inflight key thread = c.inflight ++ [(key, thread)] := by
      rw [assign, if_neg (get?_eq_none.mp hfree)]
    refine ⟨{ h.store with }, ⟨?_, ?_, ?_, ?_⟩, h.bounded⟩
    · simp [h.flights.reserved_eq, Build.reservation]
    · simp only [hassign, map_append, map_singleton, ← h.flights.inflight_eq]
    · simp only [map_append, map_singleton]
      exact List.Nodup.append h.flights.nodup_builds (nodup_singleton key) (by simpa using hnew)
    · intro build hbuild
      rcases mem_append.mp hbuild with hold | hlast
      · exact h.flights.entry_none build hold
      · rw [mem_singleton.mp hlast]
        exact hnone
  · split <;> exact h

theorem Accounted.request [DecidableEq T] (h : Accounted c) (key : K) (thread : T) :
    Accounted (request c key thread).2 := by
  unfold ViewCache.request
  split
  · rename_i hnone
    exact h.enter hnone thread
  · rename_i entry hentry
    split
    · rename_i hdead
      have hgone : ∀ entry', get? c.entries key = some entry' → entry'.value ∈ c.dead := by
        intro entry' hentry'
        obtain rfl : entry = entry' := Option.some.inj (hentry.symm.trans hentry')
        exact hdead
      obtain ⟨hsheds, hstore, hnone⟩ := h.store.removeEntry hgone
      exact (h.of_sheds hsheds hstore).enter hnone thread
    · rename_i hlive
      obtain ⟨hsheds, hstore⟩ := h.store.toEnd_entries key
      have hentry' : get? (toEnd c.entries key) key = some entry := by
        rw [get?_perm toEnd_perm h.store.nodup_entries, hentry]
      obtain ⟨hretained, hreturned, hdead, hentries⟩ := (h.of_sheds hsheds hstore).retain hentry' hlive
      have hstore' := hretained.store
      refine ⟨⟨hstore'.nodup_entries, hstore'.nodup_strong, hstore'.strong_entry, hstore'.strong_live,
        hstore'.bytes_eq, ?_⟩, { hretained.flights with }, hretained.bounded⟩
      intro e he hlive'
      rcases mem_append.mp he with hold | hlast
      · exact hstore'.returned_entry e hold hlive'
      · rw [mem_singleton.mp hlast]
        exact ⟨entry, by rw [hentries]; exact hentry', rfl⟩

/-- What a key is answered with while an object it was answered with lives. -/
theorem Accounted.request_live [DecidableEq T] (h : Accounted c) (hreturned : (key, object) ∈ c.returned) (hlive :
    object ∉ c.dead) (thread : T) :
    (ViewCache.request c key thread).1 = .hit object := by
  obtain ⟨entry, hentry, rfl⟩ := h.store.returned_entry _ hreturned hlive
  simp only [ViewCache.request, hentry, if_neg hlive]

section

variable {key : K} {build : Build K T}

omit [DecidableEq O] in
theorem building_eq_some (h : building c key = some build) :
    build ∈ c.builds ∧ build.key = key ∧ build.released = false := by
  have hmem := mem_of_find?_eq_some h
  have hprop := find?_some h
  simp only [decide_eq_true_eq] at hprop
  exact ⟨hmem, hprop⟩

/-- Changing the only build of a key changes the sum of the reservations by what it changes there. -/
theorem sum_reservation_map {builds : List (Build K T)} (hnodup : (builds.map Build.key).Nodup)
    (hmem : build ∈ builds) (change : Build K T → Build K T) :
    ((builds.map fun other => if other.key = build.key then change other else other).map
        Build.reservation).sum + build.reservation =
      (builds.map Build.reservation).sum + (change build).reservation := by
  induction builds with
  | nil => cases hmem
  | cons first rest ih =>
    obtain ⟨hnot, hrest⟩ := nodup_cons.mp hnodup
    rcases mem_cons.mp hmem with rfl | hmem
    · have hothers : (rest.map fun other => if other.key = build.key then change other else other) = rest := by
        conv_rhs => rw [← map_id rest]
        refine map_congr_left fun other hother => ?_
        have hne : other.key ≠ build.key := fun heq => hnot (heq ▸ mem_map_of_mem hother)
        rw [if_neg hne]
        rfl
      simp only [map_cons, sum_cons, if_true, hothers]
      omega
    · have hne : first.key ≠ build.key := fun heq => hnot (heq ▸ mem_map_of_mem hmem)
      have hsum := ih hrest hmem
      simp only [map_cons, sum_cons, if_neg hne]
      omega

theorem sum_reservation_filter {builds : List (Build K T)} (hnodup : (builds.map Build.key).Nodup)
    (hmem : build ∈ builds) :
    ((builds.filter fun other => other.key ≠ build.key).map Build.reservation).sum + build.reservation =
      (builds.map Build.reservation).sum := by
  induction builds with
  | nil => cases hmem
  | cons first rest ih =>
    obtain ⟨hnot, hrest⟩ := nodup_cons.mp hnodup
    rcases mem_cons.mp hmem with rfl | hmem
    · have hothers : (rest.filter fun other => other.key ≠ build.key) = rest := by
        refine filter_eq_self.mpr fun other hother => ?_
        have hne : other.key ≠ build.key := fun heq => hnot (heq ▸ mem_map_of_mem hother)
        simpa using hne
      rw [filter_cons_of_neg (by simp), hothers, map_cons, sum_cons]
      omega
    · have hne : first.key ≠ build.key := fun heq => hnot (heq ▸ mem_map_of_mem hmem)
      have hsum := ih hrest hmem
      rw [filter_cons_of_pos (by simpa using hne), map_cons, sum_cons, map_cons, sum_cons]
      omega

omit [DecidableEq O] in
/-- A change of one build that keeps its key and owner, and moves the reserved total along. -/
theorem Accounted.updateBuild (h : Accounted c) (hbuild : building c key = some build)
    (change : Build K T → Build K T) (hkey : ∀ b, (change b).key = b.key) (howner : ∀ b, (change b).owner = b.owner)
    (reserved : Int) (hreserved : reserved + build.reservation = c.reserved + (change build).reservation)
    (hbound : c.bytes + reserved ≤ ViewCache.maximumBytes c) :
    Accounted (ViewCache.updateBuild { c with reserved := reserved } key change) := by
  obtain ⟨hmem, rfl, -⟩ := building_eq_some hbuild
  refine ⟨{ h.store with }, ⟨?_, ?_, ?_, ?_⟩, hbound⟩
  · have hsum := sum_reservation_map h.flights.nodup_builds hmem change
    have heq := h.flights.reserved_eq
    simp only [ViewCache.updateBuild]
    omega
  · simp only [ViewCache.updateBuild, h.flights.inflight_eq, map_map]
    refine map_congr_left fun other _ => ?_
    simp only [Function.comp_apply]
    split
    · rw [hkey, howner]
    · rfl
  · have hkeys : (c.builds.map fun other => if other.key = build.key then change other else other).map Build.key =
        c.builds.map Build.key := by
      rw [map_map]
      refine map_congr_left fun other _ => ?_
      simp only [Function.comp_apply]
      split
      · exact hkey other
      · rfl
    simp only [ViewCache.updateBuild]
    rw [hkeys]
    exact h.flights.nodup_builds
  · intro other hother
    obtain ⟨before, hbefore, rfl⟩ := mem_map.mp hother
    have hnone := h.flights.entry_none before hbefore
    split
    · rw [hkey]
      exact hnone
    · exact hnone

theorem Accounted.reserve (h : Accounted c) (hbuild : building c key = some build) (amount : Nat) :
    Accounted (reserve c key amount) := by
  have hdiscard := h.store.discardDeadWeak.1
  have hdiscarded := h.discardDeadWeak
  unfold ViewCache.reserve
  simp only
  generalize hroomy : (if (ViewCache.discardDeadWeak c).bytes + (ViewCache.discardDeadWeak c).reserved + amount >
      ViewCache.maximumBytes (ViewCache.discardDeadWeak c) then
      ViewCache.evictUntil (ViewCache.discardDeadWeak c) amount else ViewCache.discardDeadWeak c) = roomy
  have hroom : Accounted roomy ∧ roomy.builds = c.builds := by
    have hbuilds : (ViewCache.discardDeadWeak c).builds = c.builds := by rw [hdiscard.same]
    rw [← hroomy]
    split
    · exact ⟨hdiscarded.evictUntil amount, hbuilds⟩
    · exact ⟨hdiscarded, hbuilds⟩
  split
  · exact hroom.1
  · rename_i hle
    have hbuild' : building roomy key = some build := by
      rw [building, hroom.2]
      exact hbuild
    obtain ⟨-, -, hreleased⟩ := building_eq_some hbuild
    refine hroom.1.updateBuild hbuild' (fun build => { build with bytes := build.bytes + amount }) (fun _ => rfl) (fun _ => rfl) (roomy.reserved + amount) ?_ (by omega)
    simp only [Build.reservation, hreleased, Bool.false_eq_true, if_false]
    push_cast
    omega

omit [DecidableEq O] in
theorem Accounted.giveBack (h : Accounted c) (hbuild : building c key = some build) :
    Accounted (ViewCache.updateBuild { c with reserved := c.reserved - build.bytes } key
      fun build => { build with released := true }) := by
  obtain ⟨-, -, hreleased⟩ := building_eq_some hbuild
  have hbound := h.bounded
  refine h.updateBuild hbuild (fun build => { build with released := true }) (fun _ => rfl) (fun _ => rfl) (c.reserved - build.bytes) ?_ (by omega)
  simp [Build.reservation, hreleased]

omit [DecidableEq O] in
theorem Flights.leave (h : Flights c) (hmem : build ∈ c.builds) (c' : IndexCache K T O) (hbuilds : c'.builds = c.builds)
    (hinflight : c'.inflight = c.inflight) (hreserved : c'.reserved + build.reservation = c.reserved)
    (hentries : ∀ key, key ≠ build.key → get? c.entries key = none → get? c'.entries key = none) :
    Flights (leave c' build.key) := by
  refine ⟨?_, ?_, ?_, ?_⟩
  · have hsum := sum_reservation_filter h.nodup_builds hmem
    have heq := h.reserved_eq
    simp only [ViewCache.leave, hbuilds]
    omega
  · simp only [ViewCache.leave, hinflight, hbuilds, h.inflight_eq, remove, filter_map]
    rfl
  · simp only [ViewCache.leave, hbuilds]
    exact h.nodup_builds.sublist (filter_sublist.map Build.key)
  · intro other hother
    simp only [ViewCache.leave, hbuilds] at hother
    obtain ⟨hold, hne⟩ := mem_filter.mp hother
    exact hentries other.key (by simpa using hne) (h.entry_none other hold)

omit [DecidableEq O] in
theorem Accounted.abandon (h : Accounted c)
    (hany : c.builds.any fun build => build.key = key ∧ build.released = true) :
    Accounted (ViewCache.leave c key) := by
  obtain ⟨build, hmem, hbuild⟩ := any_eq_true.mp hany
  obtain ⟨rfl, hreleased⟩ := of_decide_eq_true hbuild
  have hnothing : build.reservation = 0 := by simp [Build.reservation, hreleased]
  have hflights : Flights (ViewCache.leave c build.key) :=
    h.flights.leave hmem c rfl rfl (by omega) fun _ _ hnone => hnone
  exact ⟨{ h.store with }, hflights, h.bounded⟩

omit [DecidableEq O] in
/-- The entry of a build that returned: its key had no entry, so no strong reference and no living
answer is displaced. -/
theorem Store.addEntry (h : Store c) (entry : CacheEntry O) (hnone : get? c.entries key = none) :
    Store { c with
      entries := toEnd (assign c.entries key entry) key
      returned := c.returned ++ [(key, entry.value)] } := by
  have hnodup : (keys (assign c.entries key entry)).Nodup := nodup_assign h.nodup_entries
  have hget : ∀ other, get? (toEnd (assign c.entries key entry) key) other =
      if other = key then some entry else get? c.entries other := by
    intro other
    rw [get?_perm toEnd_perm hnodup, get?_assign]
  have hother : ∀ e ∈ c.strong, e.1 ≠ key := by
    rintro e he rfl
    obtain ⟨entry', hentry', -⟩ := h.strong_entry e he
    rw [hnone] at hentry'
    cases hentry'
  refine ⟨(toEnd_perm.map Prod.fst).nodup_iff.mpr hnodup, h.nodup_strong, ?_, h.strong_live, ?_, ?_⟩
  · intro e he
    rw [hget, if_neg (hother e he)]
    exact h.strong_entry e he
  · rw [h.bytes_eq]
    refine congrArg Nat.cast (held_congr fun e he => ?_).symm
    rw [hget, if_neg (hother e he)]
  · intro e he hlive'
    rcases mem_append.mp he with hold | hlast
    · obtain ⟨entry', hentry', hvalue⟩ := h.returned_entry e hold hlive'
      have hne : e.1 ≠ key := by
        intro heq
        rw [heq, hnone] at hentry'
        cases hentry'
      exact ⟨entry', by rw [hget, if_neg hne, hentry'], hvalue⟩
    · rw [mem_singleton.mp hlast]
      exact ⟨entry, by rw [hget, if_pos rfl], rfl⟩

omit [DecidableEq O] in
theorem Accounted.succeed (h : Accounted c) (hbuild : building c key = some build) (hlive : created ∉ c.dead)
    (weakReferable : Bool) : Accounted (succeed c build created weakReferable) := by
  obtain ⟨hmem, rfl, hreleased⟩ := building_eq_some hbuild
  have hreservation : build.reservation = build.bytes := by simp [Build.reservation, hreleased]
  have hnone := h.flights.entry_none build hmem
  have hbound := h.bounded
  have hstore := h.store.addEntry ⟨created, build.bytes⟩ hnone
  have hnew : build.key ∉ keys c.strong := by
    intro hkey
    obtain ⟨object, hobject⟩ := mem_keys.mp hkey
    obtain ⟨entry, hentry, -⟩ := h.store.strong_entry _ hobject
    rw [hnone] at hentry
    cases hentry
  have hget : ∀ other, get? (toEnd (assign c.entries build.key ⟨created, build.bytes⟩) build.key) other =
      if other = build.key then some ⟨created, build.bytes⟩ else get? c.entries other := by
    intro other
    rw [get?_perm toEnd_perm (nodup_assign h.store.nodup_entries), get?_assign]
  have hothers : ∀ other, other ≠ build.key → get? c.entries other = none →
      get? (toEnd (assign c.entries build.key ⟨created, build.bytes⟩) build.key) other = none := by
    intro other hne hold
    rw [hget, if_neg hne, hold]
  simp only [ViewCache.succeed]
  split
  swap
  · refine ⟨{ h.store with },
      h.flights.leave hmem { c with reserved := c.reserved - build.bytes } rfl rfl (by simp only; omega)
        fun _ _ hold => hold, h.bounded_of rfl rfl rfl ?_⟩
    simp only [ViewCache.leave]
    omega
  · split
    · -- the bytes move from the reserved to the held ones
      have hstrong := hstore.addStrong ⟨created, build.bytes⟩ (by rw [hget, if_pos rfl]) hlive hnew
      have hflights := h.flights.leave hmem
        { c with
          reserved := c.reserved - build.bytes
          entries := toEnd (assign c.entries build.key ⟨created, build.bytes⟩) build.key
          strong := toEnd (assign c.strong build.key created) build.key
          bytes := c.bytes + build.bytes } rfl rfl (by simp only; omega) hothers
      refine ⟨?_, { hflights with }, h.bounded_of rfl rfl rfl ?_⟩
      · simp only [ViewCache.leave, toEnd_assign hnew]
        exact { hstrong with }
      · simp only [ViewCache.leave]
        omega
    · have hflights := h.flights.leave hmem
        { c with
          reserved := c.reserved - build.bytes
          entries := toEnd (assign c.entries build.key ⟨created, build.bytes⟩) build.key } rfl rfl
          (by simp only; omega) hothers
      refine ⟨{ hstore with }, { hflights with }, h.bounded_of rfl rfl rfl ?_⟩
      simp only [ViewCache.leave]
      omega

end

omit [DecidableEq O] in
/-- A change of policy, with nothing in flight: what does not fit under the new limit is evicted. -/
theorem Accounted.configure (h : Accounted c) (hidle : c.inflight = []) (policy : IndexCachePolicy) :
    Accounted (configure c policy) := by
  have hbuilds : c.builds = [] := by
    have hmap := h.flights.inflight_eq
    rw [hidle] at hmap
    exact map_eq_nil_iff.mp hmap.symm
  have hreserved : c.reserved = 0 := by simp [h.flights.reserved_eq, hbuilds]
  unfold ViewCache.configure
  simp only
  generalize hkept : (if policy.retention = .weak then { c with policy, strong := [], bytes := 0 } else
    { c with policy } : IndexCache K T O) = kept
  have hstore : Store kept ∧ kept.builds = [] ∧ kept.inflight = [] ∧ kept.reserved = 0 := by
    rw [← hkept]
    split
    · exact ⟨⟨h.store.nodup_entries, by simp [Dictionary.keys], by simp, by simp, by simp [held], h.store.returned_entry⟩,
        hbuilds, hidle, hreserved⟩
    · exact ⟨{ h.store with }, hbuilds, hidle, hreserved⟩
  obtain ⟨hstore, hbuilds, hidle, hreserved⟩ := hstore
  obtain ⟨hsheds, hevicted, hroom⟩ := hstore.evictUntil 0
  refine ⟨hevicted, ⟨?_, ?_, ?_, ?_⟩, ?_⟩
  · simp [ViewCache.evictUntil, hbuilds, hreserved]
  · simp [ViewCache.evictUntil, hbuilds, hidle]
  · simp [ViewCache.evictUntil, hbuilds]
  · simp [ViewCache.evictUntil, hbuilds]
  · rw [hsheds.maximumBytes]
    have hsame : (ViewCache.evictUntil kept 0).reserved = 0 := hreserved
    rcases hroom with hempty | hle
    · have hbytes := hevicted.bytes_eq
      rw [hempty] at hbytes
      simp only [held, map_nil, sum_nil] at hbytes
      omega
    · omega

omit [DecidableEq O] in
theorem Accounted.clear (h : Accounted c) : Accounted { c with strong := [], bytes := 0 } := by
  refine ⟨⟨h.store.nodup_entries, by simp [Dictionary.keys], by simp, by simp, by simp [held], h.store.returned_entry⟩,
    { h.flights with }, ?_⟩
  have hbytes := h.store.bytes_eq
  refine h.bounded_of rfl rfl rfl ?_
  simp only
  omega

theorem Accounted.die (h : Accounted c) (hfree : ¬c.strong.any fun e => e.2 = object) :
    Accounted { c with dead := c.dead ++ [object] } := by
  have hheld : ∀ e ∈ c.strong, e.2 ≠ object :=
    fun e he heq => hfree (any_eq_true.mpr ⟨e, he, by simpa using heq⟩)
  refine ⟨⟨h.store.nodup_entries, h.store.nodup_strong, h.store.strong_entry, ?_, h.store.bytes_eq, ?_⟩,
    { h.flights with }, h.bounded⟩
  · intro e he hdead
    rcases mem_append.mp hdead with hold | hlast
    · exact h.store.strong_live e he hold
    · exact hheld e he (mem_singleton.mp hlast)
  · exact fun e he hlive => h.store.returned_entry e he fun hold => hlive (mem_append_left _ hold)

variable [DecidableEq T]

theorem Accounted.step (h : Accounted c) (hstep : step c event = some c') : Accounted c' := by
  cases event with
  | request key thread =>
    obtain rfl := Option.some.inj hstep
    exact h.request key thread
  | reserve key amount =>
    obtain ⟨build, hbuild, rfl⟩ := Option.map_eq_some_iff.mp hstep
    exact h.reserve hbuild amount
  | succeed key created weakReferable =>
    simp only [ViewCache.step] at hstep
    split at hstep
    · cases hstep
    · rename_i hlive
      obtain ⟨build, hbuild, rfl⟩ := Option.map_eq_some_iff.mp hstep
      exact h.succeed hbuild hlive weakReferable
  | giveBack key =>
    obtain ⟨build, hbuild, rfl⟩ := Option.map_eq_some_iff.mp hstep
    exact h.giveBack hbuild
  | abandon key =>
    simp only [ViewCache.step] at hstep
    split at hstep
    · rename_i hany
      obtain rfl := Option.some.inj hstep
      exact h.abandon hany
    · cases hstep
  | configure policy =>
    simp only [ViewCache.step, Option.some.injEq] at hstep
    split at hstep
    · rename_i hidle
      rw [← hstep]
      exact h.configure hidle policy
    · rw [← hstep]
      exact h
  | clear =>
    simp only [ViewCache.step, Option.some.injEq] at hstep
    split at hstep
    · rw [← hstep]
      exact h.clear
    · rw [← hstep]
      exact h
  | report =>
    obtain rfl := Option.some.inj hstep
    exact h.discardDeadWeak
  | die object =>
    simp only [ViewCache.step] at hstep
    split at hstep
    · cases hstep
    · rename_i hfree
      obtain rfl := Option.some.inj hstep
      exact h.die hfree

omit [DecidableEq O] [DecidableEq T] in
theorem accounted_initial (maxIndexBytes : Nat) (maxMemoryBytes : Option Nat) (policy : IndexCachePolicy) :
    Accounted (initial maxIndexBytes maxMemoryBytes policy : IndexCache K T O) := by
  refine ⟨⟨?_, ?_, ?_, ?_, ?_, ?_⟩, ⟨?_, ?_, ?_, ?_⟩, ?_⟩ <;> simp [initial, Dictionary.keys, held]

theorem Accounted.of_reachable (h : Accounted c) (hrun : Reachable c c') : Accounted c' := by
  obtain ⟨events, hrun⟩ := hrun
  induction events generalizing c with
  | nil =>
    obtain rfl := Option.some.inj hrun
    exact h
  | cons event events ih =>
    rw [foldlM_cons] at hrun
    obtain ⟨next, hstep, hrest⟩ := Option.bind_eq_some_iff.mp hrun
    exact ih (h.step hstep) hrest

end

/-- Over every interleaving of builders: the byte total is that of the strong entries, the reserved
total that of the builds in flight, together they are within the maximum, no key has two builds in
flight, and a key that was answered with an object returns it for as long as it lives. -/
theorem cache_accounting {K T O : Type} [DecidableEq K] [DecidableEq T] [DecidableEq O] (maxIndexBytes : Nat)
    (maxMemoryBytes : Option Nat) (policy : IndexCachePolicy) (c : IndexCache K T O)
    (hrun : Reachable (initial maxIndexBytes maxMemoryBytes policy) c) :
    c.bytes = ((c.strong.map fun e => sizeIn c.entries e.1).sum : Nat) ∧
      (∀ e ∈ c.strong, ∃ entry, get? c.entries e.1 = some entry ∧ entry.value = e.2) ∧
      c.reserved = ((c.builds.map Build.reservation).sum : Nat) ∧
      c.bytes + c.reserved ≤ maximumBytes c ∧
      (c.builds.map Build.key).Nodup ∧
      (∀ key object thread, (key, object) ∈ c.returned → object ∉ c.dead → (request c key thread).1 = .hit object) := by
  have h : Accounted c := (accounted_initial maxIndexBytes maxMemoryBytes policy).of_reachable hrun
  exact ⟨h.store.bytes_eq, h.store.strong_entry, h.flights.reserved_eq, h.bounded, h.flights.nodup_builds,
    fun key object thread hreturned hlive => h.request_live hreturned hlive thread⟩

/-- A build that succeeds, and a second request for the same key. -/
def hitRun : List (Event Nat Nat Nat) := [.request 1 7, .reserve 1 100, .succeed 1 5 true, .request 1 8]

theorem cache_accounting_hit :
    ∃ c : IndexCache Nat Nat Nat, Reachable (initial 1000 none ⟨none, .strong⟩) c ∧ c.bytes = 100 ∧
      (request c 1 9).1 = .hit 5 := by
  have hrun : Reachable (initial 1000 none ⟨none, .strong⟩) _ := ⟨hitRun, rfl⟩
  exact ⟨_, hrun, rfl, (cache_accounting 1000 none ⟨none, .strong⟩ _ hrun).2.2.2.2.2 1 5 9 (by decide) (by decide)⟩

end OwlCore.ViewCache
