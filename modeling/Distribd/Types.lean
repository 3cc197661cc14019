import Mathlib

/-! The records of the registry journal (`types/`): digests, repository names, tag keys, the blob
    and manifest records, and the actions that transactions carry. `Blob` and `Manifest` have the
    same fields in the source, so both are names of one structure. A `HashSet` is a `Finset` (no
    order is observable), a `BTreeMap` or sled tree is a `Std.ExtTreeMap` in the key order of the
    source's `#[derive(Ord)]`, an instant is a number of nanoseconds since the epoch. -/

namespace Distribd

/-- `RegistryNodeId = u64`; ids are only compared. -/
abbrev RegistryNodeId := ℕ

/-- `DateTime<Utc>`, in nanoseconds since the epoch. -/
abbrev DateTime := ℤ

/-- `types::Digest`. -/
structure Digest where
  algo : String
  hash : String
  deriving DecidableEq, Repr

/-- `types::RepositoryName`. -/
structure RepositoryName where
  name : String
  deriving DecidableEq, Repr

/-- `types::TagKey`. -/
structure TagKey where
  repository : RepositoryName
  tag : String
  deriving DecidableEq, Repr

/-! ### The derived orders of the keys -/

instance : Ord Digest := ⟨compareLex (compareOn Digest.algo) (compareOn Digest.hash)⟩

instance : Std.TransOrd Digest :=
  inferInstanceAs (Std.TransCmp (compareLex (compareOn Digest.algo) (compareOn Digest.hash)))

instance : Std.LawfulEqOrd Digest := ⟨by
  rintro ⟨a, a'⟩ ⟨b, b'⟩ h
  have h' : compare a b = .eq ∧ compare a' b' = .eq := by
    simpa [compare, compareLex, compareOn, Ordering.then_eq_eq] using h
  rw [Std.LawfulEqOrd.eq_of_compare h'.1, Std.LawfulEqOrd.eq_of_compare h'.2]⟩

instance : Ord RepositoryName := ⟨compareOn RepositoryName.name⟩

instance : Std.TransOrd RepositoryName :=
  inferInstanceAs (Std.TransCmp (compareOn RepositoryName.name))

instance : Std.LawfulEqOrd RepositoryName := ⟨by
  rintro ⟨a⟩ ⟨b⟩ h
  have h' : compare a b = .eq := h
  rw [Std.LawfulEqOrd.eq_of_compare h']⟩

instance : Ord TagKey := ⟨compareLex (compareOn TagKey.repository) (compareOn TagKey.tag)⟩

instance : Std.TransOrd TagKey :=
  inferInstanceAs (Std.TransCmp (compareLex (compareOn TagKey.repository) (compareOn TagKey.tag)))

instance : Std.LawfulEqOrd TagKey := ⟨by
  rintro ⟨a, a'⟩ ⟨b, b'⟩ h
  have h' : compare a b = .eq ∧ compare a' b' = .eq := by
    simpa [compare, compareLex, compareOn, Ordering.then_eq_eq] using h
  rw [Std.LawfulEqOrd.eq_of_compare h'.1, Std.LawfulEqOrd.eq_of_compare h'.2]⟩

/-! ### Records and actions -/

/-- `types::Blob` and `types::Manifest`, which have the same fields. -/
structure Object where
  size : Option ℕ
  contentType : Option String
  dependencies : Option (List Digest)
  repositories : Finset RepositoryName
  locations : Finset RegistryNodeId
  created : DateTime
  updated : DateTime
  deriving DecidableEq

/-- `types::RegistryAction`. -/
inductive RegistryAction where
  | empty
  | blobStored (timestamp : DateTime) (digest : Digest) (location : RegistryNodeId) (user : String)
  | blobUnstored (timestamp : DateTime) (digest : Digest) (location : RegistryNodeId)
      (user : String)
  | blobMounted (timestamp : DateTime) (digest : Digest) (repository : RepositoryName)
      (user : String)
  | blobUnmounted (timestamp : DateTime) (digest : Digest) (repository : RepositoryName)
      (user : String)
  | blobInfo (timestamp : DateTime) (digest : Digest) (dependencies : List Digest)
      (contentType : String)
  | blobStat (timestamp : DateTime) (digest : Digest) (size : ℕ)
  | manifestStored (timestamp : DateTime) (digest : Digest) (location : RegistryNodeId)
      (user : String)
  | manifestUnstored (timestamp : DateTime) (digest : Digest) (location : RegistryNodeId)
      (user : String)
  | manifestMounted (timestamp : DateTime) (digest : Digest) (repository : RepositoryName)
      (user : String)
  | manifestUnmounted (timestamp : DateTime) (digest : Digest) (repository : RepositoryName)
      (user : String)
  | manifestInfo (timestamp : DateTime) (digest : Digest) (dependencies : List Digest)
      (contentType : String)
  | manifestStat (timestamp : DateTime) (digest : Digest) (size : ℕ)
  | hashTagged (timestamp : DateTime) (digest : Digest) (repository : RepositoryName)
      (tag : String) (user : String)
  deriving DecidableEq

/-- The two kinds of content-addressed objects, each with a tree and six actions of its own. -/
inductive Kind where | blob | manifest
  deriving DecidableEq, Repr

/-- What an action asks of the tree of one kind; the six shapes are the same for both kinds. -/
inductive ObjectAction where
  | stored (timestamp : DateTime) (digest : Digest) (location : RegistryNodeId)
  | unstored (timestamp : DateTime) (digest : Digest) (location : RegistryNodeId)
  | mounted (timestamp : DateTime) (digest : Digest) (repository : RepositoryName)
  | unmounted (timestamp : DateTime) (digest : Digest) (repository : RepositoryName)
  | info (timestamp : DateTime) (digest : Digest) (dependencies : List Digest)
      (contentType : String)
  | stat (timestamp : DateTime) (digest : Digest) (size : ℕ)
  deriving DecidableEq

/-- The digest an object action is about. -/
def ObjectAction.digest : ObjectAction → Digest
  | .stored _ d _ | .unstored _ d _ | .mounted _ d _ | .unmounted _ d _ | .info _ d _ _
  | .stat _ d _ => d

/-- The part of a journal action that touches the tree of kind `k`. -/
def RegistryAction.half : Kind → RegistryAction → Option ObjectAction
  | .blob, .blobStored ts d l _ => some (.stored ts d l)
  | .blob, .blobUnstored ts d l _ => some (.unstored ts d l)
  | .blob, .blobMounted ts d r _ => some (.mounted ts d r)
  | .blob, .blobUnmounted ts d r _ => some (.unmounted ts d r)
  | .blob, .blobInfo ts d ds ct => some (.info ts d ds ct)
  | .blob, .blobStat ts d n => some (.stat ts d n)
  | .manifest, .manifestStored ts d l _ => some (.stored ts d l)
  | .manifest, .manifestUnstored ts d l _ => some (.unstored ts d l)
  | .manifest, .manifestMounted ts d r _ => some (.mounted ts d r)
  | .manifest, .manifestUnmounted ts d r _ => some (.unmounted ts d r)
  | .manifest, .manifestInfo ts d ds ct => some (.info ts d ds ct)
  | .manifest, .manifestStat ts d n => some (.stat ts d n)
  | _, _ => none

/-- The digests in an action over one tree. -/
def ObjectAction.digests : ObjectAction → List Digest
  | .info _ digest dependencies _ => digest :: dependencies
  | a => [a.digest]

/-- The digests in an action. -/
def RegistryAction.digests (a : RegistryAction) : List Digest :=
  match a.half .blob, a.half .manifest with
  | some oa, _ => oa.digests
  | none, some oa => oa.digests
  | none, none =>
    match a with
    | .hashTagged _ digest _ _ _ => [digest]
    | _ => []

/-! ### Two digests for worked inputs -/

/-- The SHA-256 digest of `hello, world`. -/
def helloDigest : Digest :=
  ⟨"sha256", "09ca7e4eaa6e8ae9c7d261167129184883644d07dfba7cbfbc4c8a2e08360d5b"⟩

/-- The SHA-256 digest of the empty string. -/
def emptyDigest : Digest :=
  ⟨"sha256", "e3b0c44298fc1c149afbf4c8996fb92427ae41e4649b934ca495991b7852b855"⟩

end Distribd
