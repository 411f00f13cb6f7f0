import OwlCore.View.Delta

/-!
# Anonymous scopes of composed views

A composition renames the document scopes that its sources share. When every source knows the
lineage of its scopes, the new scope is computed from leaf and original scope; otherwise the
scopes of several sources are renamed with the token of the source.
-/
namespace OwlCore

def Scope.octets (scope : Scope) : Bytes := scope.val

theorem Scope.octets_injective : Function.Injective Scope.octets := fun _ _ h => Subtype.ext h

/-- A scope with the scope it had in its leaf and the fingerprint of that leaf. -/
structure ScopeLineage where
  current : Scope
  original : Scope
  leaf : Bytes
  deriving DecidableEq

/-- The scopes of the anonymous individuals of the roots, in order. -/
def scopesOf (roots : List Node) : List Scope :=
  KeyedSet.ofList Scope.octets ((roots.flatMap Node.anonymousValues).map AnonymousIndividual.documentScope)

def holdsAnonymous (root : Node) : Bool := !root.anonymousValues.isEmpty

def ownLineage (scopes : List Scope) (structural : Fingerprint) : List ScopeLineage :=
  scopes.map fun scope => ⟨scope, scope, fingerprintBytes structural⟩

section

variable (hash : Hash)

/-- The token of the member with fingerprint bytes `encoded` and the given ordinal. -/
def memberToken (encoded : Bytes) (ordinal : Nat) : Bytes :=
  hash.digest (utf8Encode "pyowl-core:composition-member:v1\x00" ++ encoded ++ Varint.encode ordinal)

def scopedAnonymousDigest (token : Bytes) (scope : Scope) : Scope :=
  hash.scope (utf8Encode "pyowl-core:composition-anonymous-scope:v1\x00" ++ token ++ scope.octets)

/-- An entry of a group of equal original scopes: leaf, current scope and source. -/
structure ScopeEntry where
  leaf : Bytes
  current : Scope
  index : Nat
  deriving DecidableEq

/-- The order of tuples `(leaf, current, index)`. -/
def ScopeEntry.le (a b : ScopeEntry) : Bool :=
  decide (a.leaf < b.leaf) || decide (a.leaf = b.leaf) && (decide (a.current.octets < b.current.octets) ||
    decide (a.current = b.current) && decide (a.index ≤ b.index))

def groupedEntries (lineages : List (List ScopeLineage)) : List (Scope × ScopeEntry) :=
  lineages.zipIdx.flatMap fun source => source.1.map fun row => (row.original, ⟨row.leaf, row.current, source.2⟩)

structure ScopeAssignment where
  index : Nat
  current : Scope
  target : Scope

/-- The targets of one group; the ordinal counts the earlier entries of the same leaf. -/
def groupAssignments (original : Scope) (entries : List ScopeEntry) : List ScopeAssignment :=
  let ordered := entries.insertionSort fun a b => a.le b = true
  ordered.zipIdx.map fun entry =>
    let ordinal := ((ordered.take entry.2).filter fun other => other.leaf = entry.1.leaf).length
    ⟨entry.1.index, entry.1.current, scopedAnonymousDigest hash (memberToken hash entry.1.leaf ordinal) original⟩

/-- The assignments of `_scope_replacements` in the order in which they are made. -/
def scopeAssignments (lineages : List (List ScopeLineage)) : List ScopeAssignment :=
  let grouped := groupedEntries lineages
  (grouped.map Prod.fst).eraseDups.flatMap fun original =>
    let entries := (grouped.filter fun entry => entry.1 = original).map Prod.snd
    if entries.length < 2 then []
    else (groupAssignments hash original entries).filter fun row => row.target ≠ row.current

/-- `_scope_replacements`: the last assignment of each scope of each source. -/
def scopeReplacement (assignments : List ScopeAssignment) (index : Nat) (scope : Scope) : Option Scope :=
  (assignments.reverse.find? fun row => row.index = index ∧ row.current = scope).map ScopeAssignment.target

/-- `_source_tokens`: the ordinal counts the earlier sources with the same fingerprint. -/
def sourceToken (fingerprints : List Fingerprint) (index : Nat) : Bytes :=
  match fingerprints[index]? with
  | none => []
  | some own => memberToken hash (fingerprintBytes own)
      ((fingerprints.take index).filter fun other => fingerprintBytes other = fingerprintBytes own).length

def repeatedScopes (scopeSets : List (List Scope)) : List Scope :=
  scopeSets.flatten.filter fun scope => 1 < (scopeSets.filter fun scopes => scope ∈ scopes).length

end

structure SourceScopes where
  fingerprint : Fingerprint
  scopes : Option (List Scope)
  lineage : Option (List ScopeLineage)
  roots : List Node

section

variable (hash : Hash) (sources : List SourceScopes)

def knownLineages : Option (List (List ScopeLineage)) := sources.mapM SourceScopes.lineage

def collidingScopes : List Scope :=
  match sources.mapM SourceScopes.scopes with
  | some known => repeatedScopes known
  | none => repeatedScopes (sources.map fun source => scopesOf source.roots)

/-- The scope that the individuals of `scope` get in source `index`. -/
def newScope (index : Nat) (scope : Scope) : Scope :=
  match knownLineages sources with
  | some lineages => (scopeReplacement (scopeAssignments hash lineages) index scope).getD scope
  | none =>
    if scope ∈ collidingScopes sources then
      scopedAnonymousDigest hash (sourceToken hash (sources.map SourceScopes.fingerprint) index) scope
    else scope

/-- The individual in the new scope, with its own local key. -/
def moveAnonymous (index : Nat) (individual : AnonymousIndividual) : AnonymousIndividual :=
  { individual with documentScope := newScope hash sources index individual.documentScope }

def scopeValue (index : Nat) (value : Node) : Node := value.mapAnonymous (moveAnonymous hash sources index)

/-- Whether the values of a source can change their order. -/
def reordered (index : Nat) : Bool :=
  match knownLineages sources with
  | some lineages => (scopeAssignments hash lineages).any fun row => row.index = index
  | none =>
    let colliding := collidingScopes sources
    match sources[index]?.bind SourceScopes.scopes with
    | none => !colliding.isEmpty
    | some scopes => scopes.any (· ∈ colliding)

def memberValues (index : Nat) (values : List Node) : List Node :=
  let mapped := values.map (scopeValue hash sources index)
  if reordered hash sources index then mapped.insertionSort fun a b => a.bytes ≤ b.bytes else mapped

end

end OwlCore
