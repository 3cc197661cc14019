import Distribd.Schemes.Json
import Distribd.Registry.Paths
import Distribd.Cluster.Submit

/-! The extractor (`extractor.rs`): what a manifest refers to. `extract` validates the pushed
    document against the schema of its content type and reads the digests that it names. Then it
    walks over them, and over what the blobs among them name in turn, as long as they have not been
    analysed before. Of each blob that it looks at it asks for a record that belongs to the
    repository of the push and has the size that was declared; a digest without such a record makes
    the push fail.

    The walk looks first whether it has seen the digest and whether the blob has been analysed by
    anyone, and only then whether it belongs to the repository. So a manifest is accepted with a
    dependency that another repository owns, once that repository has had it analysed, and only the
    size that is declared first counts for a digest that is named twice (`owned_iff`). -/

namespace Distribd.Registry
open Schemes Store Cluster

/-! ### What a document names -/

/-- `ManifestV2Config`. -/
structure ManifestV2Config where
  mediaType : String
  size : Option ℕ
  digest : Digest
  deriving DecidableEq

/-- `ManifestV2Layer`. -/
structure ManifestV2Layer where
  mediaType : String
  size : Option ℕ
  digest : Digest
  urls : Option (List String)
  deriving DecidableEq

/-- `DistributionManifestV1Layer`. -/
structure DistributionManifestV1Layer where
  digest : Digest
  deriving DecidableEq

/-- The `Manifest` of the extractor, an untagged enum. -/
inductive Document where
  | manifestV2 (config : ManifestV2Config) (layers : List ManifestV2Layer)
  | distributionManifestListV2 (manifests : List ManifestV2Layer)
  | distributionManifestV1 (layers : List DistributionManifestV1Layer)
  deriving DecidableEq

/-- `Digest` as serde reads it. -/
def readDigest (json : Json) : Option Digest := json.asString.bind Digest.tryFrom

/-- The derived deserializer of `ManifestV2Config`. -/
def readConfig : Json → Option ManifestV2Config
  | .object entries =>
    (Json.required Json.asString entries "mediaType").bind fun mediaType =>
      (Json.optional Json.asU64 entries "size").bind fun size =>
        (Json.required readDigest entries "digest").map fun digest => ⟨mediaType, size, digest⟩
  | .array [mediaType, size, digest] =>
    mediaType.asString.bind fun mediaType => (size.asOption Json.asU64).bind fun size =>
      (readDigest digest).map fun digest => ⟨mediaType, size, digest⟩
  | _ => none

/-- The derived deserializer of `ManifestV2Layer`. -/
def readLayer : Json → Option ManifestV2Layer
  | .object entries =>
    (Json.required Json.asString entries "mediaType").bind fun mediaType =>
      (Json.optional Json.asU64 entries "size").bind fun size =>
        (Json.required readDigest entries "digest").bind fun digest =>
          (Json.optional (Json.asVec Json.asString) entries "urls").map fun urls =>
            ⟨mediaType, size, digest, urls⟩
  | .array [mediaType, size, digest, urls] =>
    mediaType.asString.bind fun mediaType => (size.asOption Json.asU64).bind fun size =>
      (readDigest digest).bind fun digest =>
        (urls.asOption (Json.asVec Json.asString)).map fun urls => ⟨mediaType, size, digest, urls⟩
  | _ => none

/-- The derived deserializer of `DistributionManifestV1Layer`. -/
def readV1Layer : Json → Option DistributionManifestV1Layer
  | .object entries => (Json.required readDigest entries "blobSum").map fun digest => ⟨digest⟩
  | .array [digest] => (readDigest digest).map fun digest => ⟨digest⟩
  | _ => none

/-- `serde_json::from_str::<Manifest>` on a document that has been parsed: the variants are tried in
    their order. -/
def readDocument : Json → Option Document
  | .object entries =>
    let manifestV2 := (Json.required readConfig entries "config").bind fun config =>
      (Json.required (Json.asVec readLayer) entries "layers").map (Document.manifestV2 config)
    let list := (Json.required (Json.asVec readLayer) entries "manifests").map
      Document.distributionManifestListV2
    let v1 := (Json.required (Json.asVec readV1Layer) entries "fsLayers").map
      Document.distributionManifestV1
    manifestV2.or (list.or v1)
  | _ => none

/-- `Extraction`. -/
structure Extraction where
  digest : Digest
  contentType : String
  size : Option ℕ
  deriving DecidableEq

instance : Ord Extraction :=
  ⟨compareLex (compareOn Extraction.digest)
    (compareLex (compareOn Extraction.contentType) (compareOn Extraction.size))⟩

instance : Std.TransOrd Extraction :=
  inferInstanceAs (Std.TransCmp (compareLex (compareOn Extraction.digest)
    (compareLex (compareOn Extraction.contentType) (compareOn Extraction.size))))

instance : Std.LawfulEqOrd Extraction := ⟨by
  rintro ⟨d, ct, n⟩ ⟨d', ct', n'⟩ h
  have h' : compare d d' = .eq ∧ compare ct ct' = .eq ∧ compare n n' = .eq := by
    simpa [compare, compareLex, compareOn, Ordering.then_eq_eq] using h
  rw [Std.LawfulEqOrd.eq_of_compare h'.1, Std.LawfulEqOrd.eq_of_compare h'.2.1,
    Std.LawfulEqOrd.eq_of_compare h'.2.2]⟩

/-- The entries of a document, as `extract_one` inserts them. -/
def Document.extractions : Document → List Extraction
  | .distributionManifestListV2 manifests =>
    manifests.map fun layer => ⟨layer.digest, layer.mediaType, layer.size⟩
  | .manifestV2 config layers =>
    ⟨config.digest, config.mediaType, config.size⟩ ::
      layers.map fun layer => ⟨layer.digest, layer.mediaType, layer.size⟩
  | .distributionManifestV1 layers =>
    layers.map fun layer => ⟨layer.digest, "application/octet-string", none⟩

/-- `ExtractError`. -/
inductive ExtractError where | unknownError | schemaValidationError
  deriving DecidableEq, Repr

/-- The content types with a schema. -/
def schemas : List String :=
  ["application/vnd.docker.container.image.v1+json",
   "application/vnd.docker.distribution.manifest.v1+json",
   "application/vnd.docker.distribution.manifest.v1+prettyjws",
   "application/vnd.docker.distribution.manifest.v2+json",
   "application/vnd.docker.distribution.manifest.list.v2+json",
   "application/vnd.oci.image.index.v1+json",
   "application/vnd.oci.image.manifest.v1+json"]

/-- What the extractor uses of other libraries: the JSON parser, and whether a document is valid
    under the schema of a content type. -/
structure JsonTools where
  fromStr : String → Option Json
  isValid : String → Json → Bool

/-- `Extractor::validate`. -/
def validate (tools : JsonTools) (contentType data : String) : Bool :=
  if contentType ∈ schemas then
    match tools.fromStr data with
    | some value => tools.isValid contentType value
    | none => false
  else false

/-- `Extractor::extract_one`; the content type is not looked at, and a document of no known form
    names nothing. -/
def extractOne (tools : JsonTools) (_contentType data : String) :
    Except ExtractError (Finset Extraction) :=
  match (tools.fromStr data).bind readDocument with
  | some document => .ok document.extractions.toFinset
  | none => .ok ∅

/-! ### The walk -/

/-- What `extract` sees: the trees of its node, the text of the files in the blob store (`none`: it
    cannot be read, or is not UTF-8), and the orders of its hash sets. -/
structure ExtractEnv where
  tools : JsonTools
  trees : Trees
  blobText : Digest → Option String
  /-- The dependencies of the manifest, and of a blob, in their `dependencies` lists. -/
  manifestOrder : Iteration Extraction
  blobOrder : Digest → Iteration Extraction
  /-- What the `n`-th turn of the outer loop drains. -/
  drainOrder : ℕ → Iteration Extraction

/-- The locals of `extract`. `analysis` is what follows the `ManifestInfo`; `paths` lists the calls
    of `get_blob_path`. -/
structure Walk where
  analysis : List (Digest × List Digest × String)
  pending : Finset Extraction
  seen : Finset Digest
  paths : List Digest

/-- The walk ends with an error, after these calls of `get_blob_path`. -/
structure WalkError where
  error : ExtractError
  paths : List Digest
  deriving DecidableEq

/-- A `BlobInfo` is pushed, and the digest counts as seen. -/
def Walk.record (w : Walk) (digest : Digest) (dependencies : List Digest) (contentType : String) :
    Walk :=
  { w with
    analysis := w.analysis ++ [(digest, dependencies, contentType)]
    seen := insert digest w.seen }

/-- The body of the inner loop. -/
def visit (env : ExtractEnv) (repository : RepositoryName) (w : Walk) (extraction : Extraction) :
    Except WalkError Walk :=
  let fail := Except.error (WalkError.mk .unknownError w.paths)
  if extraction.digest ∈ w.seen then .ok w
  else match env.trees.blobs[extraction.digest]? with
    | some blob =>
      if blob.contentType.isSome then .ok w
      else if repository ∉ blob.repositories then fail
      else if extraction.size.isSome ∧ extraction.size ≠ blob.size then fail
      else if extraction.contentType ∉ schemas then
        .ok (w.record extraction.digest [] extraction.contentType)
      else
        let w := { w with paths := w.paths ++ [extraction.digest] }
        let fail := Except.error (WalkError.mk .unknownError w.paths)
        match env.blobText extraction.digest with
        | some data =>
          match extractOne env.tools extraction.contentType data with
          | .ok dependencies =>
            let order := (env.blobOrder extraction.digest).list dependencies
            .ok { w.record extraction.digest (order.map (·.digest)) extraction.contentType with
              pending := w.pending ∪ dependencies }
          | .error _ => fail
        | none => fail
    | none => fail

/-- The inner loop, over what has been drained. -/
def visitAll (env : ExtractEnv) (repository : RepositoryName) : Walk → List Extraction →
    Except WalkError Walk
  | w, [] => .ok w
  | w, extraction :: drain =>
    match visit env repository w extraction with
    | .ok w => visitAll env repository w drain
    | .error e => .error e

/-- The outer loop, for at most `fuel` turns after the `n`-th; `none`: there is more to do. -/
def walk (env : ExtractEnv) (repository : RepositoryName) : ℕ → ℕ → Walk →
    Option (Except WalkError Walk)
  | fuel, n, w =>
    if w.pending = ∅ then some (.ok w)
    else match fuel with
      | 0 => none
      | fuel + 1 =>
        match visitAll env repository { w with pending := ∅ } ((env.drainOrder n).list w.pending) with
        | .ok w => walk env repository fuel (n + 1) w
        | .error e => some (.error e)

/-- The walk ends before it runs out of fuel, which every blob record that has not been analysed
    pays for once. -/
def walkFuel (env : ExtractEnv) : ℕ := env.trees.blobs.size + 1

/-- `Extractor::extract`: the manifest's own dependencies and those of the blobs it has analysed, and
    the calls of `get_blob_path` on the way; `none`: the walk does not end within its fuel. `data` is
    the text of the pushed file. -/
def extract (env : ExtractEnv) (repository : RepositoryName) (contentType : String)
    (data : Option String) : Option (Except WalkError (Extracted × List Digest)) :=
  match data with
  | none => some (.error ⟨.unknownError, []⟩)
  | some data =>
    if validate env.tools contentType data = false then
      some (.error ⟨.schemaValidationError, []⟩)
    else match extractOne env.tools contentType data with
      | .error _ => some (.error ⟨.unknownError, []⟩)
      | .ok dependencies =>
        let own := (env.manifestOrder.list dependencies).map (·.digest)
        (walk env repository (walkFuel env) 0 ⟨[], dependencies, ∅, []⟩).map fun
          | .ok w => .ok (⟨contentType, own, w.analysis⟩, w.paths)
          | .error e => .error e

/-! ### What the walk asks of a dependency -/

/-- A blob of the repository, of the declared size if one is declared. -/
def Owned (trees : Trees) (repository : RepositoryName) (e : Extraction) : Prop :=
  ∃ blob ∈ trees.blobs[e.digest]?, repository ∈ blob.repositories ∧
    (e.size.isSome → e.size = blob.size)

/-- The blob has been analysed. -/
def Analysed (trees : Trees) (digest : Digest) : Prop :=
  ∃ blob ∈ trees.blobs[digest]?, blob.contentType.isSome

instance (trees : Trees) (repository : RepositoryName) (e : Extraction) :
    Decidable (Owned trees repository e) :=
  inferInstanceAs (Decidable (∃ blob ∈ trees.blobs[e.digest]?, repository ∈ blob.repositories ∧
    (e.size.isSome → e.size = blob.size)))

instance (trees : Trees) (digest : Digest) : Decidable (Analysed trees digest) :=
  inferInstanceAs (Decidable (∃ blob ∈ trees.blobs[digest]?, blob.contentType.isSome))

/-- The manifest's own dependencies. -/
def ownDependencies (tools : JsonTools) (contentType : String) (data : Option String) :
    Finset Extraction :=
  match data with
  | some data =>
    match extractOne tools contentType data with
    | .ok dependencies => dependencies
    | .error _ => ∅
  | none => ∅

section

variable {env : ExtractEnv} {repository : RepositoryName}

/-- Everything one visit can do when it does not fail: nothing, if the digest has been seen or the
    blob analysed; else the dependency is owned, and its digest is seen from now on. -/
theorem visit_ok {w w' : Walk} {e : Extraction} (h : visit env repository w e = .ok w') :
    (w' = w ∧ (e.digest ∈ w.seen ∨ Analysed env.trees e.digest)) ∨
    (e.digest ∉ w.seen ∧ ¬ Analysed env.trees e.digest ∧ Owned env.trees repository e ∧
      w'.seen = insert e.digest w.seen ∧
      (w'.paths = w.paths ∨ w'.paths = w.paths ++ [e.digest])) := by
  simp only [visit] at h
  split at h
  case isTrue hseen =>
    cases h
    exact .inl ⟨rfl, .inl hseen⟩
  case isFalse hseen =>
    split at h
    case h_2 => cases h
    case h_1 blob hblob =>
      split at h
      case isTrue hanalysed =>
        cases h
        exact .inl ⟨rfl, .inr ⟨blob, hblob, hanalysed⟩⟩
      case isFalse hanalysed =>
        have hnot : ¬ Analysed env.trees e.digest := by
          rintro ⟨blob', hblob', hsome⟩
          obtain rfl := Option.some.inj (hblob.symm.trans hblob')
          exact hanalysed hsome
        split at h
        · cases h
        · rename_i hrepo
          split at h
          · cases h
          · rename_i hsize
            have howned : Owned env.trees repository e := by
              refine ⟨blob, hblob, not_not.mp hrepo, ?_⟩
              intro hsome
              by_contra hne
              exact hsize ⟨hsome, hne⟩
            split at h
            · cases h
              exact .inr ⟨hseen, hnot, howned, rfl, .inl rfl⟩
            · split at h
              · split at h
                · cases h
                  exact .inr ⟨hseen, hnot, howned, rfl, .inr rfl⟩
                · cases h
              · cases h

/-- The inner loop: what it has gone through is analysed or seen, and what it has newly seen is
    there for a dependency that is owned. -/
theorem visitAll_ok {drain : List Extraction} {w w' : Walk}
    (h : visitAll env repository w drain = .ok w') :
    w.seen ⊆ w'.seen ∧
    (∀ e ∈ drain, Analysed env.trees e.digest ∨ e.digest ∈ w'.seen) ∧
    (∀ d ∈ w'.seen, d ∈ w.seen ∨ ∃ e ∈ drain, e.digest = d ∧ ¬ Analysed env.trees d ∧
      Owned env.trees repository e) := by
  induction drain generalizing w with
  | nil =>
    cases h
    exact ⟨Finset.Subset.refl _, by simp, fun d hd => .inl hd⟩
  | cons e drain ih =>
    rw [visitAll] at h
    split at h
    case h_2 => cases h
    case h_1 m hm =>
      obtain ⟨hsub, hall, hnew⟩ := ih h
      rcases visit_ok hm with ⟨rfl, hskip⟩ | ⟨hseen, hnot, howned, hset, -⟩
      · refine ⟨hsub, ?_, ?_⟩
        · intro x hx
          rcases List.mem_cons.mp hx with rfl | hx
          · rcases hskip with hold | hanalysed
            · exact .inr (hsub hold)
            · exact .inl hanalysed
          · exact hall x hx
        · intro d hd
          rcases hnew d hd with hold | ⟨x, hx, hrest⟩
          · exact .inl hold
          · exact .inr ⟨x, List.mem_cons_of_mem _ hx, hrest⟩
      · rw [hset] at hsub hnew
        refine ⟨(Finset.subset_insert _ _).trans hsub, ?_, ?_⟩
        · intro x hx
          rcases List.mem_cons.mp hx with rfl | hx
          · exact .inr (hsub (Finset.mem_insert_self _ _))
          · exact hall x hx
        · intro d hd
          rcases hnew d hd with hold | ⟨x, hx, hrest⟩
          · rcases Finset.mem_insert.mp hold with rfl | hold
            · exact .inr ⟨e, List.mem_cons_self .., rfl, hnot, howned⟩
            · exact .inl hold
          · exact .inr ⟨x, List.mem_cons_of_mem _ hx, hrest⟩

/-- The records that the walk has not seen yet. -/
def unseen (env : ExtractEnv) (w : Walk) : Finset Digest :=
  env.trees.blobs.keys.toFinset \ w.seen

/-- A visit that finds new work has seen a record for the first time. -/
theorem visit_progress {w w' : Walk} {e : Extraction} (h : visit env repository w e = .ok w') :
    w' = w ∨ unseen env w' ⊂ unseen env w := by
  rcases visit_ok h with ⟨hsame, -⟩ | ⟨hnew, -, ⟨blob, hblob, -⟩, hseen, -⟩
  · exact .inl hsame
  · right
    have hkey : e.digest ∈ env.trees.blobs.keys.toFinset := by
      rw [List.mem_toFinset, Std.ExtTreeMap.mem_keys, Std.ExtTreeMap.mem_iff_isSome_getElem?, hblob]
      rfl
    rw [unseen, unseen, hseen]
    refine (Finset.ssubset_iff_of_subset ?_).mpr ⟨e.digest, ?_, ?_⟩
    · exact Finset.sdiff_subset_sdiff le_rfl (Finset.subset_insert _ _)
    · exact Finset.mem_sdiff.mpr ⟨hkey, hnew⟩
    · simp

/-- A turn that leaves work for the next one has seen a record for the first time. -/
theorem visitAll_progress {drain : List Extraction} {w w' : Walk}
    (h : visitAll env repository w drain = .ok w') :
    w' = w ∨ unseen env w' ⊂ unseen env w := by
  induction drain generalizing w with
  | nil =>
    cases h
    exact .inl rfl
  | cons e drain ih =>
    rw [visitAll] at h
    split at h
    case h_2 => cases h
    case h_1 m hm =>
      rcases visit_progress hm with rfl | hlt
      · exact ih h
      · rcases ih h with rfl | hlt'
        · exact .inr hlt
        · exact .inr (hlt'.trans hlt)

theorem walk_isSome {fuel n : ℕ} {w : Walk}
    (hfuel : w.pending = ∅ ∨ (unseen env w).card < fuel) :
    (walk env repository fuel n w).isSome := by
  induction fuel generalizing n w with
  | zero =>
    have hempty : w.pending = ∅ := hfuel.resolve_right (Nat.not_lt_zero _)
    rw [walk, if_pos hempty]
    rfl
  | succ fuel ih =>
    rw [walk]
    split
    · rfl
    · rename_i hwork
      split
      · rename_i w' hturn
        refine ih ?_
        rcases visitAll_progress hturn with rfl | hlt
        · exact .inl rfl
        · right
          have hcard := Finset.card_lt_card hlt
          have hle : (unseen env { w with pending := ∅ }).card < fuel + 1 := hfuel.resolve_left hwork
          omega
      · rfl

/-- TERMINATION: `extract` ends, with an analysis or an error, also where blobs refer to each other
    in circles. -/
theorem extract_isSome (env : ExtractEnv) (repository : RepositoryName) (contentType : String)
    (data : Option String) : (extract env repository contentType data).isSome := by
  unfold extract
  split
  · rfl
  · split
    · rfl
    · split
      · rfl
      · rename_i dependencies _
        rw [Option.isSome_map]
        refine walk_isSome (.inr ?_)
        have hsub : (unseen env ⟨[], dependencies, ∅, []⟩).card ≤ env.trees.blobs.size := by
          rw [unseen, Finset.sdiff_empty, ← Std.ExtTreeMap.length_keys]
          exact List.toFinset_card_le _
        rw [walkFuel]
        omega

/-- The first turn drains the manifest's own dependencies: each of them is analysed, or shares its
    digest with one that is owned. -/
theorem extract_own {contentType : String} {data : Option String} {x : Extracted}
    {paths : List Digest}
    (h : extract env repository contentType data = some (.ok (x, paths))) :
    ∀ e ∈ ownDependencies env.tools contentType data, Analysed env.trees e.digest ∨
      ∃ e' ∈ ownDependencies env.tools contentType data, e'.digest = e.digest ∧
        Owned env.trees repository e' := by
  unfold extract at h
  split at h
  case h_1 => cases h
  case h_2 data =>
    split at h
    · cases h
    · split at h
      · cases h
      · rename_i dependencies hdeps
        obtain ⟨res, hwalk, hres⟩ := Option.map_eq_some_iff.mp h
        simp only [ownDependencies, hdeps]
        intro e he
        have hne : dependencies ≠ ∅ := Finset.ne_empty_of_mem he
        rw [walkFuel, walk, if_neg hne] at hwalk
        simp only at hwalk
        split at hwalk
        · rename_i w hturn
          obtain ⟨-, hall, hnew⟩ := visitAll_ok hturn
          rcases hall e ((Iteration.mem_list _).mpr he) with hanalysed | hseen
          · exact .inl hanalysed
          · rcases hnew _ hseen with hold | ⟨e', he', hd, -, howned⟩
            · simp at hold
            · exact .inr ⟨e', (Iteration.mem_list _).mp he', hd, howned⟩
        · cases hwalk
          cases hres

/-- OWNED: an accepted manifest refers to blobs of its own repository only, exactly if that is so for
    the dependencies that had been analysed before, and for those that the manifest names again with
    another size. -/
theorem owned_iff {contentType : String} {data : Option String} {x : Extracted}
    {paths : List Digest}
    (h : extract env repository contentType data = some (.ok (x, paths))) :
    (∀ e ∈ ownDependencies env.tools contentType data, Owned env.trees repository e) ↔
      ∀ e ∈ ownDependencies env.tools contentType data,
        (Analysed env.trees e.digest ∨ ∃ e' ∈ ownDependencies env.tools contentType data,
          e'.digest = e.digest ∧ e'.size ≠ e.size) → Owned env.trees repository e := by
  constructor
  · exact fun hall e he _ => hall e he
  · intro hcond e he
    rcases extract_own h e he with hanalysed | ⟨e', he', hd, blob, hblob, hrepo, hsize⟩
    · exact hcond e he (.inl hanalysed)
    · by_cases hsame : e'.size = e.size
      · rw [hd] at hblob
        rw [hsame] at hsize
        exact ⟨blob, hblob, hrepo, hsize⟩
      · exact hcond e he (.inr ⟨e', he', hd, hsame⟩)

/-! ### The paths that the walk asks for -/

/-- The calls of `get_blob_path` up to now, or up to the error. -/
def pathsOf : Except WalkError Walk → List Digest
  | .ok w => w.paths
  | .error e => e.paths

/-- All of them are for blobs with a record. -/
def PathsRecorded (env : ExtractEnv) (paths : List Digest) : Prop :=
  ∀ d ∈ paths, env.trees.blobs[d]? ≠ none

theorem visit_paths {w : Walk} (e : Extraction) (h : PathsRecorded env w.paths) :
    PathsRecorded env (pathsOf (visit env repository w e)) := by
  simp only [visit]
  split
  · exact h
  · split
    · rename_i blob hblob
      have hnext : PathsRecorded env (w.paths ++ [e.digest]) := by
        intro d hd
        rcases List.mem_append.mp hd with hd | hd
        · exact h d hd
        · rw [List.mem_singleton.mp hd, hblob]
          simp
      repeat' split
      all_goals first | exact h | exact hnext
    · exact h

theorem visitAll_paths {drain : List Extraction} {w : Walk} (h : PathsRecorded env w.paths) :
    PathsRecorded env (pathsOf (visitAll env repository w drain)) := by
  induction drain generalizing w with
  | nil => exact h
  | cons e drain ih =>
    have hone : PathsRecorded env (pathsOf (visit env repository w e)) := visit_paths e h
    rw [visitAll]
    split
    · rename_i w' hw'
      rw [hw'] at hone
      exact ih hone
    · rename_i err herr
      rw [herr] at hone
      exact hone

theorem walk_paths {fuel n : ℕ} {w : Walk} {res : Except WalkError Walk}
    (h : PathsRecorded env w.paths) (hres : walk env repository fuel n w = some res) :
    PathsRecorded env (pathsOf res) := by
  induction fuel generalizing n w with
  | zero =>
    rw [walk] at hres
    split at hres
    · cases hres
      exact h
    · cases hres
  | succ fuel ih =>
    rw [walk] at hres
    split at hres
    · cases hres
      exact h
    · have hturn : PathsRecorded env (pathsOf (visitAll env repository { w with pending := ∅ }
          ((env.drainOrder n).list w.pending))) := visitAll_paths h
      split at hres
      · rename_i w' hw'
        rw [hw'] at hturn
        exact ih hturn hres
      · rename_i err herr
        rw [herr] at hturn
        cases hres
        exact hturn

/-- `extract` asks for paths of blobs with a record only, also when it fails. -/
theorem extract_paths {contentType : String} {data : Option String}
    {res : Except WalkError (Extracted × List Digest)}
    (h : extract env repository contentType data = some res) :
    PathsRecorded env (match res with | .ok (_, paths) => paths | .error e => e.paths) := by
  have hnone : PathsRecorded env [] := fun d hd => by cases hd
  unfold extract at h
  cases data with
  | none =>
    cases h
    exact hnone
  | some data =>
    simp only at h
    split at h
    · cases h
      exact hnone
    · split at h
      · cases h
        exact hnone
      · obtain ⟨w, hw, rfl⟩ := Option.map_eq_some_iff.mp h
        have hpaths := walk_paths hnone hw
        cases w <;> exact hpaths

end

/-! ### An image, and a list with it -/

/-- An image without layers. -/
def imageText : String :=
  "\x7b\"schemaVersion\":2," ++
  "\"mediaType\":\"application/vnd.docker.distribution.manifest.v2+json\"," ++
  "\"config\":\x7b\"mediaType\":\"application/vnd.docker.container.image.v1+json\",\"size\":12," ++
  "\"digest\":" ++
  "\"sha256:09ca7e4eaa6e8ae9c7d261167129184883644d07dfba7cbfbc4c8a2e08360d5b\"\x7d," ++
  "\"layers\":[]\x7d"

def imageJson : Json :=
  .object [("schemaVersion", .unsigned 2),
    ("mediaType", .string "application/vnd.docker.distribution.manifest.v2+json"),
    ("config", .object [("mediaType", .string "application/vnd.docker.container.image.v1+json"),
      ("size", .unsigned 12),
      ("digest",
        .string "sha256:09ca7e4eaa6e8ae9c7d261167129184883644d07dfba7cbfbc4c8a2e08360d5b")]),
    ("layers", .array [])]

/-- The tools on the texts of this input; the document is valid under its schema. -/
def imageTools : JsonTools where
  fromStr s := if s = imageText then some imageJson else none
  isValid _ _ := true

/-- The config has been uploaded to `library/a`. -/
def configUploaded : List RegistryAction :=
  [.blobMounted 0 helloDigest ⟨"library/a"⟩ "alice", .blobStat 1 helloDigest 12,
   .blobStored 2 helloDigest 1 "alice"]

/-- A manifest in `library/a` refers to it. -/
def configAnalysed : List RegistryAction :=
  configUploaded ++ [.blobInfo 3 helloDigest [] "application/vnd.docker.container.image.v1+json"]

/-- The extractor on a node that has applied the actions. -/
def imageEnv (actions : List RegistryAction) : ExtractEnv where
  tools := imageTools
  trees := (applyActions .empty actions).getD .empty
  blobText d := if d = helloDigest then some "hello, world" else none
  manifestOrder := .ascending
  blobOrder _ := .ascending
  drainOrder _ := .ascending

theorem eq_ok_of_toOption {ε α : Type} {res : Except ε α} {a : α} (h : res.toOption = some a) :
    res = .ok a := by
  cases res with
  | ok b => exact congrArg _ (Option.some.inj h)
  | error e => cases h

/-- The digest of the image without layers. -/
def childDigest : Digest :=
  ⟨"sha256", "9de83a35b22a49c02991e6d9752e47a2ea4b6a766697e8903c39cb9d98eb85fa"⟩

/-- A list of this image. -/
def platformsText : String :=
  "\x7b\"schemaVersion\":2," ++
  "\"mediaType\":\"application/vnd.docker.distribution.manifest.list.v2+json\"," ++
  "\"manifests\":[\x7b" ++
  "\"mediaType\":\"application/vnd.docker.distribution.manifest.v2+json\",\"size\":263," ++
  "\"digest\":" ++
  "\"sha256:9de83a35b22a49c02991e6d9752e47a2ea4b6a766697e8903c39cb9d98eb85fa\"," ++
  "\"platform\":\x7b\"architecture\":\"amd64\",\"os\":\"linux\"\x7d\x7d]\x7d"

def platformsJson : Json :=
  .object [("schemaVersion", .unsigned 2),
    ("mediaType", .string "application/vnd.docker.distribution.manifest.list.v2+json"),
    ("manifests", .array [.object [
      ("mediaType", .string "application/vnd.docker.distribution.manifest.v2+json"),
      ("size", .unsigned 263),
      ("digest",
        .string "sha256:9de83a35b22a49c02991e6d9752e47a2ea4b6a766697e8903c39cb9d98eb85fa"),
      ("platform", .object [("architecture", .string "amd64"), ("os", .string "linux")])]])]

/-- The image has been uploaded as a blob, next to its config. -/
def imageUploaded : List RegistryAction :=
  configUploaded ++ [.blobMounted 3 childDigest ⟨"library/a"⟩ "alice", .blobStat 4 childDigest 263,
    .blobStored 5 childDigest 1 "alice"]

/-- The extractor there, which reads the image and this text of the config. -/
def nestedEnv (configText : String) : ExtractEnv :=
  { imageEnv imageUploaded with
    tools := ⟨fun s => if s = imageText then some imageJson
      else if s = platformsText then some platformsJson else none, fun _ _ => true⟩
    blobText := fun d => if d = childDigest then some imageText
      else if d = helloDigest then some configText else none }

/-- The list is pushed: its image and the config of the image are analysed with it. -/
theorem owned_iff_nestedEnv :
    (∃ x, extract (nestedEnv "hello, world") ⟨"library/a"⟩
      "application/vnd.docker.distribution.manifest.list.v2+json" (some platformsText) =
        some (.ok (x, [childDigest, helloDigest]))) ∧
    ∀ e ∈ ownDependencies (nestedEnv "hello, world").tools
      "application/vnd.docker.distribution.manifest.list.v2+json" (some platformsText),
      Owned (nestedEnv "hello, world").trees ⟨"library/a"⟩ e := by
  have hok : ((extract (nestedEnv "hello, world") ⟨"library/a"⟩
      "application/vnd.docker.distribution.manifest.list.v2+json" (some platformsText)).bind
        Except.toOption).map Prod.snd = some [childDigest, helloDigest] := by decide +kernel
  obtain ⟨⟨x, paths⟩, hx, rfl⟩ := Option.map_eq_some_iff.mp hok
  obtain ⟨res, hres, htoOption⟩ := Option.bind_eq_some_iff.mp hx
  obtain rfl := eq_ok_of_toOption htoOption
  exact ⟨⟨x, hres⟩, (owned_iff hres).mpr (by decide +kernel)⟩

/-- The same manifest is pushed to `library/b`, which does not have the config. -/
theorem configAnalysed_accepted :
    ∃ x paths, extract (imageEnv configAnalysed) ⟨"library/b"⟩
        "application/vnd.docker.distribution.manifest.v2+json" (some imageText) =
          some (.ok (x, paths)) ∧
      ∃ e ∈ ownDependencies imageTools "application/vnd.docker.distribution.manifest.v2+json"
        (some imageText), ¬ Owned (imageEnv configAnalysed).trees ⟨"library/b"⟩ e := by
  have hok : ((extract (imageEnv configAnalysed) ⟨"library/b"⟩
      "application/vnd.docker.distribution.manifest.v2+json" (some imageText)).bind
        Except.toOption).map Prod.snd = some [] := by decide +kernel
  obtain ⟨⟨x, paths⟩, hx, -⟩ := Option.map_eq_some_iff.mp hok
  obtain ⟨res, hres, htoOption⟩ := Option.bind_eq_some_iff.mp hx
  obtain rfl := eq_ok_of_toOption htoOption
  exact ⟨x, paths, hres, by decide +kernel⟩

end Distribd.Registry
