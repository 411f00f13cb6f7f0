import OwlCore.Model.Canonical
import Mathlib.Data.List.Nodup
import Mathlib.Data.List.Basic

/-!
# The life cycle of a mapped snapshot

`_MappedState` and `_MappedLease` of `wire/mapping.py`, with the calls of
`MappedOntologySnapshot` that reach them. What lies outside the class is an argument of each
call: process, file, index cache, system calls and decoder. The state also records what it did
to its surroundings, so the history of a run can be read off its last state.
-/
namespace OwlCore.Mapped

open List

inductive LifecycleError where
  | closedSnapshot (message : String)
  | snapshotInUse (message code : String)
  | wireCorruption (message code : String)
  | runtimeError (message : String)
  | osError
  | model (error : Error)
  deriving DecidableEq

/-- What `os.fstat` says about the mapped file, compared with the identity taken at the opening. -/
inductive FileStatus where
  | same
  | changed
  | unavailable
  deriving DecidableEq

structure Environment (V : Type) where
  pid : Nat
  file : FileStatus
  /-- A build is in flight in the index cache. -/
  building : Bool
  /-- The leases that die with the views the index cache lets go of. -/
  dropped : List Nat
  imageReleases : Bool
  mappingCloses : Bool
  descriptorCloses : Bool
  decoded : Except Error V

inductive Cause where
  | close
  | finalizer
  deriving DecidableEq

structure MappedState (V : Type) where
  pid : Nat
  decoded : Option V
  dependents : Int
  closed : Bool
  closeCallbacks : List Nat
  /-- The `_active` flags of the leases, in the order in which they were made. -/
  leases : List Bool
  /-- How many callbacks were ever registered; each has its number as its name. -/
  registered : Nat
  /-- The calls of `mapping.close()`, each with the count of dependents at that moment. -/
  closings : List (Cause × Int)
  /-- The callbacks that ran. -/
  ran : List Nat

variable {V : Type}

/-- A state as `open_snapshot` makes it. -/
def opened (pid : Nat) : MappedState V := ⟨pid, none, 0, false, [], [], 0, [], []⟩

/-- `_MappedState.release`, in the process of the state. -/
def release (s : MappedState V) : MappedState V :=
  if s.dependents ≠ 0 then { s with dependents := s.dependents - 1 } else s

/-- The finalizer of a lease: `_MappedLease.release` in the process of the state. -/
def finalizeLease (s : MappedState V) (lease : Nat) : MappedState V :=
  match s.leases[lease]? with
  | some true => release { s with leases := s.leases.set lease false }
  | _ => s

def dropLeases (s : MappedState V) (leases : List Nat) : MappedState V := leases.foldl finalizeLease s

/-- `_after_fork`. The process is noted before the cache is replaced, so that the leases of the
old cache are released in the new process. -/
def afterFork (env : Environment V) (s : MappedState V) : MappedState V :=
  if env.pid = s.pid then s else dropLeases { s with pid := env.pid } env.dropped

/-- `_MappedLease.release`, which a finalizer may repeat. -/
def releaseLease (env : Environment V) (lease : Nat) (s : MappedState V) : MappedState V :=
  match s.leases[lease]? with
  | some true => release (afterFork env { s with leases := s.leases.set lease false })
  | _ => s

def ensureOpen (env : Environment V) (s : MappedState V) : Except LifecycleError Unit × MappedState V :=
  let s := afterFork env s
  if s.closed then (.error (.closedSnapshot "mapped ontology snapshot is closed"), s)
  else match env.file with
    | .unavailable =>
      (.error (.closedSnapshot "mapped ontology snapshot descriptor is unavailable"), s)
    | .changed =>
      (.error (.wireCorruption "mapped wire file changed in place after validation" "WIRE_MAPPED_CHANGED"), s)
    | .same => (.ok (), s)

def afterCheck {α : Type} (env : Environment V) (next : MappedState V → Except LifecycleError α × MappedState V)
    (s : MappedState V) : Except LifecycleError α × MappedState V :=
  match ensureOpen env s with
  | (.error error, s) => (.error error, s)
  | (.ok (), s) => next s

/-- `materialize`: a failed decoding is not kept. -/
def materialize (env : Environment V) : MappedState V → Except LifecycleError V × MappedState V :=
  afterCheck env fun s =>
    match s.decoded with
    | some value => (.ok value, s)
    | none => afterCheck env (fun s =>
      match s.decoded with
      | some value => (.ok value, s)
      | none =>
        match env.decoded with
        | .error error => (.error (.model error), s)
        | .ok value => (.ok value, { s with decoded := some value })) s

/-- `retain`, which names the lease it makes. -/
def retain (env : Environment V) : MappedState V → Except LifecycleError Nat × MappedState V :=
  afterCheck env <| afterCheck env fun s =>
    (.ok s.leases.length, { s with dependents := s.dependents + 1, leases := s.leases ++ [true] })

/-- `_close_resources`. Whatever fails, the mapping and the descriptor are closed; the callbacks
run only when nothing failed. -/
def closeResources (cause : Cause) (env : Environment V) (s : MappedState V) :
    Except LifecycleError Unit × MappedState V :=
  if s.closed then (.ok (), s)
  else
    let s := { s with closed := true, closings := s.closings ++ [(cause, s.dependents)] }
    if env.imageReleases && env.mappingCloses && env.descriptorCloses then
      (.ok (), { s with closeCallbacks := [], ran := s.ran ++ s.closeCallbacks })
    else (.error .osError, s)

/-- `close`. The cache is cleared, and its leases with it, before the count is looked at. -/
def close (env : Environment V) (s : MappedState V) : Except LifecycleError Unit × MappedState V :=
  let s := afterFork env s
  if s.closed then (.ok (), s)
  else if env.building then (.error (.runtimeError "cannot clear index cache during a build"), s)
  else
    let s := dropLeases s env.dropped
    if s.dependents ≠ 0 then
      (.error (.snapshotInUse "mapped snapshot still has dependent ontology views" "SNAPSHOT_IN_USE"), s)
    else closeResources .close env s

def addCloseCallback (env : Environment V) : MappedState V → Except LifecycleError Unit × MappedState V :=
  afterCheck env fun s =>
    (.ok (), { s with closeCallbacks := s.closeCallbacks ++ [s.registered], registered := s.registered + 1 })

/-- The reading members of `MappedOntologySnapshot`. -/
inductive ReadMethod where
  | root | documents | importManifest | originIndex | document | iterDocuments | iterAxioms
  | iterExtensions | ontologyAnnotations | contains | signature | materialize
  | rootDocumentKey | loadOptions | limits | diagnostics | timings | resolutionAttempts
  | acquisitionCacheHits | documentCacheHits | indexCache | capabilities | isComplete
  | structuralContext | structuralFingerprint | logicalFingerprint | signatureFingerprint
  | report | owl2DlReport | anonymousDocumentScopes | anonymousScopeLineage
  | ontologyIdentityMetadata | view | hash
  deriving DecidableEq

/-- The members that go through the decoded snapshot; the others only check that it is open. -/
def ReadMethod.materializes : ReadMethod → Bool
  | .root | .documents | .importManifest | .originIndex | .document | .iterDocuments | .iterAxioms
  | .iterExtensions | .ontologyAnnotations | .contains | .signature | .materialize => true
  | _ => false

inductive Call where
  | retain
  | releaseLease (lease : Nat)
  | enter
  | exit
  | close
  | read (method : ReadMethod)
  /-- `_encoded_structural_columns_v2` and `_mapped_wire_source_v1`: bytes with a lease, if there are any. -/
  | borrow (available : Bool)
  | onClose
  /-- The finalizer of the state, whose errors are suppressed. -/
  | finalize
  deriving DecidableEq

def Call.opens : Call → Bool
  | .retain | .enter | .read _ | .borrow _ | .onClose => true
  | _ => false

/-- Forget what a call returns, but not whether it raised. -/
def settled {α : Type} (outcome : Except LifecycleError α × MappedState V) :
    Except LifecycleError Unit × MappedState V :=
  (outcome.1.map fun _ => (), outcome.2)

def perform (env : Environment V) (s : MappedState V) : Call → Except LifecycleError Unit × MappedState V
  | .retain => settled (retain env s)
  | .releaseLease lease => (.ok (), releaseLease env lease s)
  | .enter => ensureOpen env s
  | .exit => close env s
  | .close => close env s
  | .read method => if method.materializes then settled (materialize env s) else ensureOpen env s
  | .borrow available =>
    afterCheck env (fun s => if available then settled (retain env s) else (.ok (), s)) s
  | .onClose => addCloseCallback env s
  | .finalize => (.ok (), (closeResources .finalizer env s).2)

def step (s : MappedState V) (call : Environment V × Call) : MappedState V := (perform call.1 s call.2).2

/-- The count of dependents is the number of leases that were not released or are marked as released
while the count does not know it yet. -/
def Counted (owed : Nat) (s : MappedState V) : Prop := s.dependents = s.leases.count true + owed

structure Safe (s : MappedState V) : Prop where
  counted : Counted 0 s
  length_closings : s.closings.length = if s.closed then 1 else 0
  closings_zero : ∀ closing ∈ s.closings, closing.1 = .close → closing.2 = 0
  nodup_callbacks : (s.ran ++ s.closeCallbacks).Nodup
  registered_callbacks : ∀ callback ∈ s.ran ++ s.closeCallbacks, callback < s.registered

theorem safe_opened (pid : Nat) : Safe (opened pid : MappedState V) := by
  constructor <;> simp [opened, Counted]

theorem count_set_false {leases : List Bool} (h : leases[lease]? = some true) :
    (leases.set lease false).count true + 1 = leases.count true := by
  obtain ⟨hlt, hactive⟩ := List.getElem?_eq_some_iff.mp h
  have hpos : 0 < leases.count true := count_pos_iff.mpr (hactive ▸ getElem_mem hlt)
  have hset : (leases.set lease false).count true = leases.count true - 1 := by
    simp [count_set hlt, hactive]
  omega

/-- Nothing but the leases, their count and the process is different. -/
structure SameBesidesLeases (s s' : MappedState V) : Prop where
  decoded : s'.decoded = s.decoded
  closed : s'.closed = s.closed
  closeCallbacks : s'.closeCallbacks = s.closeCallbacks
  length_leases : s'.leases.length = s.leases.length
  registered : s'.registered = s.registered
  closings : s'.closings = s.closings
  ran : s'.ran = s.ran

theorem SameBesidesLeases.refl (s : MappedState V) : SameBesidesLeases s s := by
  constructor <;> rfl

theorem SameBesidesLeases.trans (h : SameBesidesLeases s s') (h' : SameBesidesLeases s' s'') :
    SameBesidesLeases s s'' where
  decoded := h'.decoded.trans h.decoded
  closed := h'.closed.trans h.closed
  closeCallbacks := h'.closeCallbacks.trans h.closeCallbacks
  length_leases := h'.length_leases.trans h.length_leases
  registered := h'.registered.trans h.registered
  closings := h'.closings.trans h.closings
  ran := h'.ran.trans h.ran

theorem Safe.of_same (h : Safe s) (hsame : SameBesidesLeases s s') (hcount : Counted 0 s') : Safe s' where
  counted := hcount
  length_closings := by rw [hsame.closings, hsame.closed, h.length_closings]
  closings_zero := by rw [hsame.closings]; exact h.closings_zero
  nodup_callbacks := by rw [hsame.ran, hsame.closeCallbacks]; exact h.nodup_callbacks
  registered_callbacks := by
    rw [hsame.ran, hsame.closeCallbacks, hsame.registered]
    exact h.registered_callbacks

theorem release_same (s : MappedState V) : SameBesidesLeases s (release s) := by
  unfold release
  split
  · constructor <;> rfl
  · exact .refl s

theorem Counted.release (h : Counted (owed + 1) s) :
    Counted owed (release s) := by
  simp only [Counted, Nat.cast_add, Nat.cast_one] at h
  have hne : s.dependents ≠ 0 := by omega
  simp only [Counted, Mapped.release, if_pos hne]
  omega

def markLease (s : MappedState V) (lease : Nat) : MappedState V :=
  { s with leases := s.leases.set lease false }

theorem markLease_same (s : MappedState V) (lease : Nat) : SameBesidesLeases s (markLease s lease) := by
  constructor <;> simp [markLease]

theorem Counted.markLease {s : MappedState V} (h : Counted owed s) (hactive : s.leases[lease]? = some true) :
    Counted (owed + 1) (markLease s lease) := by
  have hcount := count_set_false hactive
  simp only [Counted] at h
  simp only [Counted, Mapped.markLease]
  omega

theorem finalizeLease_same (s : MappedState V) (lease : Nat) : SameBesidesLeases s (finalizeLease s lease) := by
  unfold finalizeLease
  split
  · exact (markLease_same s lease).trans (release_same _)
  · exact .refl s

theorem Counted.finalizeLease (h : Counted owed s) (lease : Nat) :
    Counted owed (finalizeLease s lease) := by
  unfold Mapped.finalizeLease
  split
  · rename_i hactive
    exact (h.markLease hactive).release
  · exact h

theorem dropLeases_same (s : MappedState V) (leases : List Nat) : SameBesidesLeases s (dropLeases s leases) :=
  List.foldlRecOn leases finalizeLease (.refl s) fun s' hsame lease _ => hsame.trans (finalizeLease_same s' lease)

theorem Counted.dropLeases (h : Counted owed s) (leases : List Nat) :
    Counted owed (dropLeases s leases) :=
  List.foldlRecOn (motive := Counted owed) leases Mapped.finalizeLease h
    fun _ hcount lease _ => hcount.finalizeLease lease

theorem afterFork_same (env : Environment V) (s : MappedState V) : SameBesidesLeases s (afterFork env s) := by
  unfold afterFork
  split
  · exact .refl s
  · refine .trans ?_ (dropLeases_same _ _)
    constructor <;> rfl

theorem Counted.afterFork (h : Counted owed s) :
    Counted owed (afterFork env s) := by
  unfold Mapped.afterFork
  split
  · exact h
  · exact Counted.dropLeases (s := { s with pid := env.pid }) h _

theorem releaseLease_same (env : Environment V) (lease : Nat) (s : MappedState V) :
    SameBesidesLeases s (releaseLease env lease s) := by
  unfold releaseLease
  split
  · exact ((markLease_same s lease).trans (afterFork_same env _)).trans (release_same _)
  · exact .refl s

theorem Counted.releaseLease (h : Counted 0 s) (lease : Nat) :
    Counted 0 (releaseLease env lease s) := by
  unfold Mapped.releaseLease
  split
  · rename_i hactive
    exact (h.markLease hactive).afterFork.release
  · exact h

section

variable {env : Environment V} {s : MappedState V}

theorem Safe.afterFork (h : Safe s) : Safe (afterFork env s) :=
  h.of_same (afterFork_same env s) h.counted.afterFork

theorem Safe.dropLeases (h : Safe s) (leases : List Nat) : Safe (dropLeases s leases) :=
  h.of_same (dropLeases_same s leases) (h.counted.dropLeases leases)

@[simp] theorem ensureOpen_state (env : Environment V) (s : MappedState V) :
    (ensureOpen env s).2 = Mapped.afterFork env s := by
  unfold ensureOpen
  simp only
  split
  · rfl
  · cases env.file <;> rfl

theorem ensureOpen_ok (env : Environment V) (s : MappedState V) (h : (ensureOpen env s).1 = .ok ()) : (afterFork env s).closed = false := by
  by_contra hclosed
  simp only [Bool.not_eq_false] at hclosed
  simp [ensureOpen, hclosed] at h

theorem ensureOpen_closed (env : Environment V) (h : s.closed) :
    (ensureOpen env s).1 = .error (.closedSnapshot "mapped ontology snapshot is closed") := by
  have hclosed : (Mapped.afterFork env s).closed := by rw [(afterFork_same env s).closed, h]
  simp [ensureOpen, hclosed]

theorem afterCheck_closed {next : MappedState V → Except LifecycleError α × MappedState V} (h : s.closed) :
    afterCheck env next s =
      (.error (.closedSnapshot "mapped ontology snapshot is closed"), Mapped.afterFork env s) := by
  have herror := ensureOpen_closed env h
  have hstate := ensureOpen_state env s
  unfold afterCheck
  rcases hcheck : ensureOpen env s with ⟨outcome, s'⟩
  simp only [hcheck] at herror hstate
  subst herror hstate
  rfl

/-- What holds after a check whatever comes of it, and after what follows a check that passed. -/
theorem afterCheck_induct {p : MappedState V → Prop}
    {next : MappedState V → Except LifecycleError α × MappedState V} (hcheck : p (Mapped.afterFork env s))
    (hnext : (Mapped.afterFork env s).closed = false → p (next (Mapped.afterFork env s)).2) :
    p (afterCheck env next s).2 := by
  have hopen := ensureOpen_ok env s
  have hstate := ensureOpen_state env s
  unfold afterCheck
  rcases heq : ensureOpen env s with ⟨outcome, s'⟩
  simp only [heq] at hopen hstate
  subst hstate
  cases outcome with
  | error e => exact hcheck
  | ok u => exact hnext (hopen rfl)

section

variable (h : Safe s)

include h

theorem Safe.retain : Safe (retain env s).2 := by
  refine afterCheck_induct h.afterFork fun _ => afterCheck_induct h.afterFork.afterFork fun _ => ?_
  have hsafe : Safe (Mapped.afterFork env (Mapped.afterFork env s)) := h.afterFork.afterFork
  refine ⟨?_, hsafe.length_closings, hsafe.closings_zero, hsafe.nodup_callbacks, hsafe.registered_callbacks⟩
  have hcount := hsafe.counted
  simp only [Counted] at hcount
  simp only [Counted, count_append, count_singleton_self]
  omega

theorem Safe.materialize : Safe (materialize env s).2 := by
  have hkeep : ∀ s : MappedState V, Safe s → ∀ value : V, Safe { s with decoded := some value } :=
    fun s h value => ⟨h.counted, h.length_closings, h.closings_zero, h.nodup_callbacks, h.registered_callbacks⟩
  refine afterCheck_induct h.afterFork fun _ => ?_
  cases (Mapped.afterFork env s).decoded with
  | some value => exact h.afterFork
  | none =>
    refine afterCheck_induct h.afterFork.afterFork fun _ => ?_
    cases (Mapped.afterFork env (Mapped.afterFork env s)).decoded with
    | some value => exact h.afterFork.afterFork
    | none =>
      cases env.decoded with
      | error e => exact h.afterFork.afterFork
      | ok value => exact hkeep _ h.afterFork.afterFork value

theorem Safe.closeResources (hcause : cause = .close → s.dependents = 0) :
    Safe (closeResources cause env s).2 := by
  unfold Mapped.closeResources
  split
  · exact h
  · rename_i hopen
    have hlength : s.closings.length = 0 := by rw [h.length_closings, if_neg hopen]
    have hnone : s.closings = [] := length_eq_zero_iff.mp hlength
    have hzero : ∀ closing ∈ s.closings ++ [(cause, s.dependents)], closing.1 = .close → closing.2 = 0 := by
      simpa [hnone] using hcause
    split
    · refine ⟨h.counted, by simp [hnone], hzero, ?_, ?_⟩
      · simpa using h.nodup_callbacks
      · simpa using h.registered_callbacks
    · exact ⟨h.counted, by simp [hnone], hzero, h.nodup_callbacks, h.registered_callbacks⟩

theorem Safe.close : Safe (close env s).2 := by
  unfold Mapped.close
  simp only
  split
  · exact h.afterFork
  · split
    · exact h.afterFork
    · split
      · exact h.afterFork.dropLeases _
      · rename_i hzero
        exact (h.afterFork.dropLeases _).closeResources fun _ => not_not.mp hzero

theorem Safe.addCloseCallback : Safe (addCloseCallback env s).2 := by
  refine afterCheck_induct h.afterFork fun _ => ?_
  have hsafe : Safe (Mapped.afterFork env s) := h.afterFork
  have hnew : (Mapped.afterFork env s).registered ∉
      (Mapped.afterFork env s).ran ++ (Mapped.afterFork env s).closeCallbacks :=
    fun hmem => Nat.lt_irrefl _ (hsafe.registered_callbacks _ hmem)
  refine ⟨hsafe.counted, hsafe.length_closings, hsafe.closings_zero, ?_, ?_⟩
  · simp only [← append_assoc]
    exact List.Nodup.append hsafe.nodup_callbacks (nodup_singleton _) (by simpa using hnew)
  · simp only [← append_assoc]
    intro callback hmem
    rcases mem_append.mp hmem with hold | hlast
    · exact Nat.lt_succ_of_lt (hsafe.registered_callbacks _ hold)
    · rw [mem_singleton.mp hlast]
      exact Nat.lt_succ_self _

theorem Safe.step (call : Environment V × Call) : Safe (step s call) := by
  obtain ⟨env, call⟩ := call
  have hchecked : Safe (ensureOpen env s).2 := by
    rw [ensureOpen_state]
    exact h.afterFork
  cases call with
  | retain => exact h.retain
  | releaseLease lease => exact h.of_same (releaseLease_same env lease s) (h.counted.releaseLease lease)
  | enter => exact hchecked
  | exit => exact h.close
  | close => exact h.close
  | read method =>
    simp only [Mapped.step, perform]
    split
    · exact h.materialize
    · exact hchecked
  | borrow available =>
    refine afterCheck_induct h.afterFork fun _ => ?_
    cases available with
    | false => exact h.afterFork
    | true => exact h.afterFork.retain
  | onClose => exact h.addCloseCallback
  | finalize => exact h.closeResources (by simp)

end

theorem safe_run (pid : Nat) (calls : List (Environment V × Call)) :
    Safe (calls.foldl Mapped.step (opened pid : MappedState V)) :=
  List.foldlRecOn calls Mapped.step (safe_opened pid) fun _ h call _ => h.step call

/-- After the closing a call that needs an open snapshot raises; no call makes a lease, registers or
runs a callback or closes again. -/
theorem perform_closed (env : Environment V) (h : s.closed) (call : Call) :
    SameBesidesLeases s (perform env s call).2 ∧ (call.opens → (perform env s call).1 =
        .error (.closedSnapshot "mapped ontology snapshot is closed")) := by
  have hfork : SameBesidesLeases s (Mapped.afterFork env s) := afterFork_same env s
  have hclosed : (Mapped.afterFork env s).closed := by rw [hfork.closed, h]
  have hchecked : SameBesidesLeases s (ensureOpen env s).2 := by
    rw [ensureOpen_state]
    exact hfork
  have hclose : close env s = (.ok (), Mapped.afterFork env s) := by simp [Mapped.close, hclosed]
  cases call with
  | retain => simp [perform, settled, Mapped.retain, afterCheck_closed h, hfork, Except.map]
  | releaseLease lease => exact ⟨releaseLease_same env lease s, by simp [Call.opens]⟩
  | enter => exact ⟨hchecked, fun _ => ensureOpen_closed env h⟩
  | exit => exact ⟨by rw [perform, hclose]; exact hfork, by simp [Call.opens]⟩
  | close => exact ⟨by rw [perform, hclose]; exact hfork, by simp [Call.opens]⟩
  | read method =>
    simp only [perform]
    split
    · simp [settled, Mapped.materialize, afterCheck_closed h, hfork, Except.map]
    · exact ⟨hchecked, fun _ => ensureOpen_closed env h⟩
  | borrow available => simp [perform, afterCheck_closed h, hfork]
  | onClose => simp [perform, Mapped.addCloseCallback, afterCheck_closed h, hfork]
  | finalize =>
    have hdone : Mapped.closeResources .finalizer env s = (.ok (), s) := by simp [Mapped.closeResources, h]
    exact ⟨by rw [perform, hdone]; exact .refl s, by simp [Call.opens]⟩

end

/-- Over every run of calls the count of dependents is the number of leases not released; the mapping is
closed at most once, by `close` only while the count is zero; no callback runs twice; a closed snapshot
stays closed, and every call that needs it open raises the closed error and makes no lease. Only the
finalizer of the state, which runs when nothing can reach it, closes otherwise. -/
theorem mapped_leases_safe (pid : Nat) (calls : List (Environment V × Call)) :
    let s := calls.foldl step (opened pid : MappedState V)
    s.dependents = s.leases.count true ∧ 0 ≤ s.dependents ∧
      s.closings.length ≤ 1 ∧ (∀ closing ∈ s.closings, closing.1 = .close → closing.2 = 0) ∧
      s.ran.Nodup ∧
      (s.closed → ∀ env call, ((perform env s call).2.closed ∧ (perform env s call).2.leases.length = s.leases.length ∧
          (perform env s call).2.closings = s.closings ∧ (perform env s call).2.ran = s.ran) ∧
        (call.opens → (perform env s call).1 = .error (.closedSnapshot "mapped ontology snapshot is closed"))) := by
  intro s
  have hsafe : Safe s := safe_run pid calls
  have hcount : s.dependents = s.leases.count true := by simpa [Counted] using hsafe.counted
  refine ⟨hcount, by omega, ?_, hsafe.closings_zero, ?_, fun hclosed env call => ?_⟩
  · rw [hsafe.length_closings]
    split <;> decide
  · exact (nodup_append.mp hsafe.nodup_callbacks).1
  · obtain ⟨hsame, hraises⟩ := perform_closed env hclosed call
    exact ⟨⟨by rw [hsame.closed, hclosed], hsame.length_leases, hsame.closings, hsame.ran⟩, hraises⟩

/-- One process, an unchanged file, an idle cache, and system calls that succeed. -/
def quiet : Environment Unit := ⟨1, .same, false, [], true, true, true, .ok ()⟩

/-- A close that fails for a lease, a lease released twice, a close that succeeds, and a read. -/
def closingRun : List (Environment Unit × Call) :=
  [(quiet, .onClose), (quiet, .retain), (quiet, .close), (quiet, .releaseLease 0), (quiet, .releaseLease 0),
    (quiet, .close)]

theorem mapped_leases_safe_closing :
    (closingRun.foldl step (opened 1)).closed = true ∧ (closingRun.foldl step (opened 1)).closings = [(.close, 0)] ∧
      (perform quiet (closingRun.foldl step (opened 1)) (.read .root)).1 =
        .error (.closedSnapshot "mapped ontology snapshot is closed") :=
  ⟨rfl, rfl, ((mapped_leases_safe 1 closingRun).2.2.2.2.2 rfl quiet (.read .root)).2 rfl⟩

end OwlCore.Mapped
