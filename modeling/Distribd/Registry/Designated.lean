import Distribd.Schemes.JsonSchema
import Distribd.Registry.DigestText
import Distribd.Registry.Extractor

/-! What a manifest designates, and what is extracted from it (`extractor.rs`, `schemas/`). A document
    is validated under the schema of its content type, and then read as the first of three forms that
    fits, whatever its content type. A document that fits no form is not rejected: it is recorded
    without dependencies.

    So the digests that are extracted are the ones that the content type designates exactly if the
    document can be read in the form of its content type and in no form that is tried before; or,
    where that is not so, if they happen to be the same (`dependencies_exact_iff`). The schemas leave
    open what can keep a document from being read: digests of another algorithm, sizes that are no
    `u64`, keys that are written twice, and `urls` that are no list of strings. -/

namespace Distribd.Registry
open Schemes Store Cluster

/-! ### The schemas, without descriptions -/

/-- `platform` of a list and of an index. -/
def platformSchema : Schema := .object
  [("architecture", .string), ("os", .string), ("os.version", .string),
   ("os.features", .array .string), ("variant", .string), ("features", .array .string)]
  ["architecture", "os"]

/-- `vnd.docker.distribution.manifest.v2+json.json`. -/
def manifestV2Schema : Schema := .object
  [("schemaVersion", .exactly 2),
   ("mediaType", .oneOf ["application/vnd.docker.distribution.manifest.v2+json"]),
   ("config", .object
      [("mediaType", .oneOf ["application/vnd.docker.container.image.v1+json"]),
       ("size", .number), ("digest", .string)]
      ["mediaType", "digest"]),
   ("layers", .array (.object
      [("mediaType", .oneOf ["application/vnd.docker.image.rootfs.diff.tar.gzip",
         "application/vnd.docker.image.rootfs.foreign.diff.tar.gzip"]),
       ("size", .number), ("digest", .string)]
      ["mediaType", "digest"]))]
  ["schemaVersion", "mediaType", "config", "layers"]

/-- `vnd.docker.distribution.manifest.list.v2+json.json`. -/
def manifestListSchema : Schema := .object
  [("schemaVersion", .exactly 2),
   ("mediaType", .oneOf ["application/vnd.docker.distribution.manifest.list.v2+json"]),
   ("manifests", .array (.object
      [("mediaType", .oneOf ["application/vnd.docker.distribution.manifest.v2+json",
         "application/vnd.docker.distribution.manifest.v1+json"]),
       ("size", .number), ("digest", .string), ("platform", platformSchema)]
      ["mediaType", "size", "digest", "platform"]))]
  ["schemaVersion", "mediaType", "manifests"]

/-- `vnd.oci.image.manifest.v1+json.json`. -/
def imageManifestSchema : Schema := .object
  [("schemaVersion", .exactly 2),
   ("mediaType", .oneOf ["application/vnd.oci.image.config.v1+json"]),
   ("config", .object
      [("mediaType", .oneOf ["application/vnd.oci.image.manifest.v1+json",
         "application/vnd.oci.image.index.v1+json", "application/vnd.oci.image.config.v1+json"]),
       ("size", .number), ("digest", .string), ("annotations", .object [] []),
       ("urls", .array .string)]
      ["mediaType", "size", "digest"]),
   ("layers", .array (.object
      [("mediaType", .oneOf ["application/vnd.oci.image.layer.v1.tar",
         "application/vnd.oci.image.layer.v1.tar+gzip",
         "application/vnd.oci.image.layer.nondistributable.v1.tar",
         "application/vnd.oci.image.layer.nondistributable.v1.tar+gzip"]),
       ("size", .number), ("digest", .string), ("annotations", .object [] []),
       ("urls", .array .string)]
      ["mediaType", "size", "digest"]))]
  ["schemaVersion", "config", "layers"]

/-- `vnd.oci.image.index.v1+json.json`. -/
def imageIndexSchema : Schema := .object
  [("schemaVersion", .exactly 2),
   ("mediaType", .oneOf ["application/vnd.oci.image.index.v1+json"]),
   ("manifests", .array (.object
      [("mediaType", .oneOf ["application/vnd.oci.image.manifest.v1+json",
         "application/vnd.oci.image.index.v1+json"]),
       ("size", .number), ("digest", .string), ("annotations", .object [] []),
       ("urls", .array .string), ("platform", platformSchema)]
      ["mediaType", "size", "digest", "platform"])),
   ("annotations", .object [] [])]
  ["schemaVersion", "manifests"]

/-- `vnd.docker.distribution.manifest.v1+json.json`, and the one of the `prettyjws` type. -/
def manifestV1Schema : Schema := .object
  [("signatures", .array (.object
      [("protected", .string),
       ("header", .object [("alg", .string), ("jwk", .object [] [])] ["alg", "jwk"]),
       ("signature", .string)]
      ["protected", "header", "signature"])),
   ("name", .string), ("tag", .string),
   ("history", .array (.object [("v1Compatibility", .string)] ["v1Compatibility"])),
   ("fsLayers", .array (.object [("blobSum", .string)] ["blobSum"]))]
  ["tag", "name", "fsLayers", "history"]

/-- The schemas of the manifests. -/
def schemaOf : String → Option Schema
  | "application/vnd.docker.distribution.manifest.v1+json" => some manifestV1Schema
  | "application/vnd.docker.distribution.manifest.v1+prettyjws" => some manifestV1Schema
  | "application/vnd.docker.distribution.manifest.v2+json" => some manifestV2Schema
  | "application/vnd.docker.distribution.manifest.list.v2+json" => some manifestListSchema
  | "application/vnd.oci.image.index.v1+json" => some imageIndexSchema
  | "application/vnd.oci.image.manifest.v1+json" => some imageManifestSchema
  | _ => none

/-- The tools with these schemas; the parser, its rounding of floats and the schema of image configs,
    which is of no manifest, are given. -/
def schemaTools (fromStr : String → Option Json) (floatValue : String → ℚ)
    (imageConfig : Json → Bool) : JsonTools where
  fromStr := fromStr
  isValid contentType value :=
    match schemaOf contentType with
    | some schema => schema.valid floatValue value
    | none => imageConfig value

/-! ### The forms of a document -/

/-- The variants of `Manifest`, in the order in which they are tried. -/
inductive Form where | manifestV2 | distributionManifestListV2 | distributionManifestV1
  deriving DecidableEq

/-- The form of a content type. -/
def formOf : String → Option Form
  | "application/vnd.docker.distribution.manifest.v1+json" => some .distributionManifestV1
  | "application/vnd.docker.distribution.manifest.v1+prettyjws" => some .distributionManifestV1
  | "application/vnd.docker.distribution.manifest.v2+json" => some .manifestV2
  | "application/vnd.docker.distribution.manifest.list.v2+json" => some .distributionManifestListV2
  | "application/vnd.oci.image.index.v1+json" => some .distributionManifestListV2
  | "application/vnd.oci.image.manifest.v1+json" => some .manifestV2
  | _ => none

/-- The forms that are tried before. -/
def Form.earlier : Form → List Form
  | .manifestV2 => []
  | .distributionManifestListV2 => [.manifestV2]
  | .distributionManifestV1 => [.manifestV2, .distributionManifestListV2]

/-- A document read in one form. -/
def readAs : Form → Json → Option Document
  | .manifestV2, .object entries =>
    (Json.required readConfig entries "config").bind fun config =>
      (Json.required (Json.asVec readLayer) entries "layers").map (Document.manifestV2 config)
  | .distributionManifestListV2, .object entries =>
    (Json.required (Json.asVec readLayer) entries "manifests").map
      Document.distributionManifestListV2
  | .distributionManifestV1, .object entries =>
    (Json.required (Json.asVec readV1Layer) entries "fsLayers").map
      Document.distributionManifestV1
  | _, _ => none

/-- The first form that fits is the one that is read. -/
theorem readDocument_eq (json : Json) : readDocument json =
    (readAs .manifestV2 json).or
      ((readAs .distributionManifestListV2 json).or (readAs .distributionManifestV1 json)) := by
  cases json <;> rfl

/-- The document is read in this form: it fits, and none does that is tried before. -/
def FirstRead (form : Form) (json : Json) : Prop :=
  (readAs form json).isSome ∧ ∀ other ∈ form.earlier, readAs other json = none

instance (form : Form) (json : Json) : Decidable (FirstRead form json) :=
  inferInstanceAs (Decidable (_ ∧ _))

theorem readDocument_of_firstRead {form : Form} {json : Json} (h : FirstRead form json) :
    readDocument json = readAs form json := by
  obtain ⟨hsome, hnone⟩ := h
  rw [readDocument_eq]
  cases form with
  | manifestV2 => rw [Option.or_of_isSome hsome]
  | distributionManifestListV2 =>
    rw [hnone .manifestV2 (by simp [Form.earlier]), Option.none_or, Option.or_of_isSome hsome]
  | distributionManifestV1 =>
    rw [hnone .manifestV2 (by simp [Form.earlier]),
      hnone .distributionManifestListV2 (by simp [Form.earlier]), Option.none_or, Option.none_or]

/-- Some form is the first, or none fits. -/
theorem firstRead_or (json : Json) :
    (∃ form, FirstRead form json) ∨ ∀ form, readAs form json = none := by
  cases h₁ : readAs .manifestV2 json with
  | some d => exact .inl ⟨.manifestV2, by rw [h₁]; rfl, by simp [Form.earlier]⟩
  | none =>
    cases h₂ : readAs .distributionManifestListV2 json with
    | some d => exact .inl ⟨.distributionManifestListV2, by rw [h₂]; rfl, by simp [Form.earlier, h₁]⟩
    | none =>
      cases h₃ : readAs .distributionManifestV1 json with
      | some d =>
        exact .inl ⟨.distributionManifestV1, by rw [h₃]; rfl, by simp [Form.earlier, h₁, h₂]⟩
      | none =>
        right
        intro form
        cases form
        · exact h₁
        · exact h₂
        · exact h₃

/-- Only one form is the first. -/
theorem firstRead_unique {form other : Form} {json : Json} (h : FirstRead form json)
    (h' : FirstRead other json) : form = other := by
  by_contra hne
  have horder : form ∈ other.earlier ∨ other ∈ form.earlier := by
    cases form <;> cases other <;> simp [Form.earlier] at hne ⊢
  rcases horder with hmem | hmem
  · have hsome := h.1
    rw [h'.2 form hmem] at hsome
    cases hsome
  · have hsome := h'.1
    rw [h.2 other hmem] at hsome
    cases hsome

/-! ### What a form designates -/

/-- The value of a key of an object. -/
def valueOf (name : String) : Json → Option Json
  | .object entries => Json.get entries name
  | _ => none

/-- The text of a key of an object. -/
def textOf (name : String) (json : Json) : Option String := (valueOf name json).bind Json.asString

/-- The elements of the array under a key. -/
def elementsOf (name : String) (json : Json) : List Json :=
  match valueOf name json with
  | some (.array elements) => elements
  | _ => []

/-- The texts of the digests that a form designates in a document. -/
def Form.designated : Form → Json → List String
  | .manifestV2, json => ((valueOf "config" json).bind (textOf "digest")).toList ++
      (elementsOf "layers" json).filterMap (textOf "digest")
  | .distributionManifestListV2, json => (elementsOf "manifests" json).filterMap (textOf "digest")
  | .distributionManifestV1, json => (elementsOf "fsLayers" json).filterMap (textOf "blobSum")

/-- The texts of the digests in a document that has been read. -/
def Document.texts (document : Document) : List String :=
  document.extractions.map fun e => Digest.text e.digest

/-! ### Entries -/

/-- What the schemas say of a config and of a layer, and of an entry of a list. -/
def Described (json : Json) : Prop :=
  ∃ entries, json = .object entries ∧ (∃ m, Json.get entries "mediaType" = some (.string m)) ∧
    (∃ s, Json.get entries "digest" = some (.string s)) ∧
    ∀ v ∈ Json.get entries "size", v.type = some .number

/-- And of a layer of a v1 manifest. -/
def DescribedV1 (json : Json) : Prop :=
  ∃ entries s, json = .object entries ∧ Json.get entries "blobSum" = some (.string s)

/-- A config without surprises: its keys are written once, the size is a `u64` if there is one, and
    the digest is of SHA-256. -/
def PlainConfig (json : Json) : Prop :=
  ∃ entries, json = .object entries ∧
    (∀ name ∈ ["mediaType", "size", "digest"], Json.Once entries name) ∧
    (∀ v ∈ Json.get entries "size", v.asU64.isSome) ∧
    ∀ s, Json.get entries "digest" = some (.string s) → IsSha256 s

/-- Such a layer; its `urls`, if there are any, are a list of strings, or `null`. -/
def PlainLayer (json : Json) : Prop :=
  PlainConfig json ∧ ∃ entries, json = .object entries ∧ Json.Once entries "urls" ∧
    ∀ v ∈ Json.get entries "urls", v = .null ∨ ∃ urls : List String, v = .array (urls.map .string)

/-- Such a layer of a v1 manifest. -/
def PlainV1Layer (json : Json) : Prop :=
  ∃ entries, json = .object entries ∧ Json.Once entries "blobSum" ∧
    ∀ s, Json.get entries "blobSum" = some (.string s) → IsSha256 s

theorem asOption_asU64_isSome {v : Json} (h : v.type = some .number) :
    (v.asOption Json.asU64).isSome ↔ v.asU64.isSome := by
  cases v <;> simp [Json.type, Json.asOption, Json.asU64] at h ⊢

theorem urls_isSome {v : Json} : (v.asOption (Json.asVec Json.asString)).isSome ↔
    v = .null ∨ ∃ urls : List String, v = .array (urls.map .string) := by
  cases v with
  | null => simp [Json.asOption]
  | array elements =>
    simp only [Json.asOption, Option.isSome_map, Json.asVec_isSome, reduceCtorEq, false_or,
      Json.array.injEq]
    constructor
    · intro h
      induction elements with
      | nil => exact ⟨[], rfl⟩
      | cons e elements ih =>
        obtain ⟨urls, rfl⟩ := ih fun json hjson => h json (List.mem_cons_of_mem _ hjson)
        have hhead := h e (by simp)
        cases e <;> simp [Json.asString] at hhead
        rename_i url
        exact ⟨url :: urls, rfl⟩
    · rintro ⟨urls, rfl⟩ json hjson
      obtain ⟨url, -, rfl⟩ := List.mem_map.mp hjson
      rfl
  | _ => simp [Json.asOption, Json.asVec]

theorem required_isSome {α : Type} {read : Json → Option α} {entries : List (String × Json)}
    {name : String} {json : Json} (h : Json.get entries name = some json) :
    (Json.required read entries name).isSome ↔
      Json.Once entries name ∧ (read json).isSome := by
  rw [Json.required_eq, h]
  by_cases honce : Json.Once entries name <;> simp [honce]

/-- The fields that a config and a layer have in common. -/
theorem plainConfig_fields {entries : List (String × Json)} (h : Described (.object entries)) :
    PlainConfig (.object entries) ↔ ((Json.required Json.asString entries "mediaType").isSome ∧
      (Json.optional Json.asU64 entries "size").isSome ∧
      (Json.required readDigest entries "digest").isSome) ∧
      ∀ s ∈ textOf "digest" (.object entries), IsSha256 s := by
  obtain ⟨entries', hentries, ⟨m, hm⟩, ⟨s, hs⟩, hsize⟩ := h
  cases hentries
  have htext : textOf "digest" (.object entries) = some s := by
    rw [textOf, valueOf, hs]
    rfl
  have hdigest : readDigest (.string s) = Digest.tryFrom s := rfl
  have hsizes : (∀ v ∈ Json.get entries "size", (v.asOption Json.asU64).isSome) ↔
      ∀ v ∈ Json.get entries "size", v.asU64.isSome :=
    forall₂_congr fun v hv => asOption_asU64_isSome (hsize v hv)
  rw [required_isSome hm, required_isSome hs, Json.optional_isSome, htext, hsizes, hdigest]
  constructor
  · rintro ⟨_, ⟨⟩, honce, hu64, hsha⟩
    have hsha' : IsSha256 s := hsha s hs
    refine ⟨⟨⟨honce _ (by simp), rfl⟩, ⟨honce _ (by simp), hu64⟩, honce _ (by simp),
      tryFrom_of_isSha256 hsha'⟩, ?_⟩
    rintro _ ⟨⟩
    exact hsha'
  · rintro ⟨⟨⟨hmedia, -⟩, ⟨hsize, hu64⟩, hdigest, -⟩, hsha⟩
    refine ⟨entries, rfl, ?_, hu64, ?_⟩
    · simp [hmedia, hsize, hdigest]
    · intro s' hs'
      obtain rfl : s = s' := by simpa using hs.symm.trans hs'
      exact hsha s rfl

/-- A plain config is one that can be read, with the text of a digest. -/
theorem plainConfig_iff {json : Json} (h : Described json) : PlainConfig json ↔
    (readConfig json).isSome ∧ ∀ s ∈ textOf "digest" json, IsSha256 s := by
  obtain ⟨entries, rfl, -⟩ := id h
  rw [plainConfig_fields h]
  refine and_congr_left fun _ => ?_
  rw [readConfig]
  cases Json.required Json.asString entries "mediaType" <;>
    cases Json.optional Json.asU64 entries "size" <;>
      cases Json.required readDigest entries "digest" <;> simp

theorem plainLayer_iff {json : Json} (h : Described json) : PlainLayer json ↔
    (readLayer json).isSome ∧ ∀ s ∈ textOf "digest" json, IsSha256 s := by
  obtain ⟨entries, rfl, -⟩ := id h
  have hurls : (∃ entries', Json.object entries = .object entries' ∧ Json.Once entries' "urls" ∧
      ∀ v ∈ Json.get entries' "urls", v = .null ∨
        ∃ urls : List String, v = .array (urls.map .string)) ↔
      (Json.optional (Json.asVec Json.asString) entries "urls").isSome := by
    simp only [Json.optional_isSome, urls_isSome, Json.object.injEq, exists_eq_left']
  rw [PlainLayer, plainConfig_fields h, hurls, and_right_comm]
  refine and_congr_left fun _ => ?_
  rw [readLayer]
  cases Json.required Json.asString entries "mediaType" <;>
    cases Json.optional Json.asU64 entries "size" <;>
      cases Json.required readDigest entries "digest" <;>
        cases Json.optional (Json.asVec Json.asString) entries "urls" <;> simp

theorem plainV1Layer_iff {json : Json} (h : DescribedV1 json) : PlainV1Layer json ↔
    (readV1Layer json).isSome ∧ ∀ s ∈ textOf "blobSum" json, IsSha256 s := by
  obtain ⟨entries, s, rfl, hs⟩ := h
  have htext : textOf "blobSum" (.object entries) = some s := by
    rw [textOf, valueOf, hs]
    rfl
  rw [readV1Layer, Option.isSome_map, required_isSome hs, htext]
  constructor
  · rintro ⟨_, ⟨⟩, honce, hsha⟩
    have hsha' : IsSha256 s := hsha s hs
    refine ⟨⟨honce, tryFrom_of_isSha256 hsha'⟩, ?_⟩
    rintro _ ⟨⟩
    exact hsha'
  · rintro ⟨⟨honce, -⟩, hsha⟩
    refine ⟨entries, rfl, honce, ?_⟩
    intro s' hs'
    obtain rfl : s = s' := by simpa using hs.symm.trans hs'
    exact hsha s rfl

/-- The digest that is read is the entry of its key. -/
theorem required_readDigest {entries : List (String × Json)} {name : String} {d : Digest}
    (h : Json.required readDigest entries name = some d) :
    ∃ s, textOf name (.object entries) = some s ∧ Digest.tryFrom s = some d := by
  rw [Json.required_eq] at h
  split at h
  · obtain ⟨json, hget, hread⟩ := Option.bind_eq_some_iff.mp h
    obtain ⟨s, hs, hd⟩ := Option.bind_eq_some_iff.mp hread
    refine ⟨s, ?_, hd⟩
    rw [textOf, valueOf, hget]
    exact hs
  · cases h

theorem readConfig_digest {json : Json} {config : ManifestV2Config} (h : Described json)
    (hread : readConfig json = some config) :
    ∃ s, textOf "digest" json = some s ∧ Digest.tryFrom s = some config.digest := by
  obtain ⟨entries, rfl, -⟩ := h
  obtain ⟨m, -, hread⟩ := Option.bind_eq_some_iff.mp hread
  obtain ⟨size, -, hread⟩ := Option.bind_eq_some_iff.mp hread
  obtain ⟨d, hd, rfl⟩ := Option.map_eq_some_iff.mp hread
  exact required_readDigest hd

theorem readLayer_digest {json : Json} {layer : ManifestV2Layer} (h : Described json)
    (hread : readLayer json = some layer) :
    ∃ s, textOf "digest" json = some s ∧ Digest.tryFrom s = some layer.digest := by
  obtain ⟨entries, rfl, -⟩ := h
  obtain ⟨m, -, hread⟩ := Option.bind_eq_some_iff.mp hread
  obtain ⟨size, -, hread⟩ := Option.bind_eq_some_iff.mp hread
  obtain ⟨d, hd, hread⟩ := Option.bind_eq_some_iff.mp hread
  obtain ⟨urls, -, rfl⟩ := Option.map_eq_some_iff.mp hread
  exact required_readDigest hd

theorem readV1Layer_digest {json : Json} {layer : DistributionManifestV1Layer}
    (h : DescribedV1 json) (hread : readV1Layer json = some layer) :
    ∃ s, textOf "blobSum" json = some s ∧ Digest.tryFrom s = some layer.digest := by
  obtain ⟨entries, s, rfl, -⟩ := h
  obtain ⟨d, hd, rfl⟩ := Option.map_eq_some_iff.mp hread
  exact required_readDigest hd

/-! ### Documents -/

/-- Texts and what they are read as. -/
abbrev ReadFrom : List String → List Digest → Prop :=
  List.Forall₂ fun text d => Digest.tryFrom text = some d

/-- The elements of an array are read with the digests of their texts. -/
theorem readFrom_elements {α : Type} {read : Json → Option α} {text : Json → Option String}
    (digest : α → Digest) {elements : List Json} {values : List α}
    (hread : List.Forall₂ (fun json value => read json = some value) elements values)
    (hdigest : ∀ json ∈ elements, ∀ value, read json = some value →
      ∃ s, text json = some s ∧ Digest.tryFrom s = some (digest value)) :
    ReadFrom (elements.filterMap text) (values.map digest) := by
  induction hread with
  | nil => exact .nil
  | cons hone _ ih =>
    obtain ⟨s, hs, hd⟩ := hdigest _ (by simp) _ hone
    rw [List.filterMap_cons_some hs, List.map_cons]
    exact .cons hd (ih fun json hjson => hdigest json (List.mem_cons_of_mem _ hjson))

/-- What the schemas say of a document of this form. -/
def Form.Described : Form → Json → Prop
  | .manifestV2, json => ∃ entries, json = .object entries ∧
      (∃ config, Json.get entries "config" = some config ∧ Registry.Described config) ∧
      ∃ layers, Json.get entries "layers" = some (.array layers) ∧
        ∀ layer ∈ layers, Registry.Described layer
  | .distributionManifestListV2, json => ∃ entries, json = .object entries ∧
      ∃ manifests, Json.get entries "manifests" = some (.array manifests) ∧
        ∀ manifest ∈ manifests, Registry.Described manifest
  | .distributionManifestV1, json => ∃ entries, json = .object entries ∧
      ∃ layers, Json.get entries "fsLayers" = some (.array layers) ∧
        ∀ layer ∈ layers, DescribedV1 layer

/-- A document without surprises for its form: the keys that the form reads are written once, and all
    entries are plain. -/
def Form.Plain : Form → Json → Prop
  | .manifestV2, json => ∃ entries, json = .object entries ∧
      Json.Once entries "config" ∧ Json.Once entries "layers" ∧
      (∀ config ∈ Json.get entries "config", PlainConfig config) ∧
      ∀ layer ∈ elementsOf "layers" json, PlainLayer layer
  | .distributionManifestListV2, json => ∃ entries, json = .object entries ∧
      Json.Once entries "manifests" ∧ ∀ manifest ∈ elementsOf "manifests" json, PlainLayer manifest
  | .distributionManifestV1, json => ∃ entries, json = .object entries ∧
      Json.Once entries "fsLayers" ∧ ∀ layer ∈ elementsOf "fsLayers" json, PlainV1Layer layer

theorem elementsOf_object {entries : List (String × Json)} {name : String} {elements : List Json}
    (h : Json.get entries name = some (.array elements)) :
    elementsOf name (.object entries) = elements := by
  rw [elementsOf, valueOf, h]

/-- An array of entries can be read exactly if its key is written once and each entry can. -/
theorem required_asVec_isSome {α : Type} {read : Json → Option α} {entries : List (String × Json)}
    {name : String} {elements : List Json} (h : Json.get entries name = some (.array elements)) :
    (Json.required (Json.asVec read) entries name).isSome ↔
      Json.Once entries name ∧ ∀ json ∈ elements, (read json).isSome := by
  rw [required_isSome h, Json.asVec_isSome]

/-- Plain entries, all together. -/
theorem plain_elements {α : Type} {read : Json → Option α} {text : Json → Option String}
    {plain : Json → Prop} {elements : List Json} (h : ∀ json ∈ elements,
      plain json ↔ (read json).isSome ∧ ∀ s ∈ text json, IsSha256 s) :
    (∀ json ∈ elements, plain json) ↔ (∀ json ∈ elements, (read json).isSome) ∧
      ∀ s ∈ elements.filterMap text, IsSha256 s := by
  rw [forall₂_congr h]
  constructor
  · intro hall
    refine ⟨fun json hjson => (hall json hjson).1, ?_⟩
    intro s hs
    obtain ⟨json, hjson, htext⟩ := List.mem_filterMap.mp hs
    exact (hall json hjson).2 s htext
  · rintro ⟨hread, hsha⟩ json hjson
    exact ⟨hread json hjson, fun s hs => hsha s (List.mem_filterMap.mpr ⟨json, hjson, hs⟩)⟩

/-- A document of its form is plain exactly if it can be read in it, with the texts of digests. -/
theorem plain_iff {form : Form} {json : Json} (h : form.Described json) : form.Plain json ↔
    (readAs form json).isSome ∧ ∀ text ∈ form.designated json, IsSha256 text := by
  cases form with
  | manifestV2 =>
    obtain ⟨entries, rfl, ⟨config, hconfig, hone⟩, layers, hlayers, hall⟩ := h
    have hread : (readAs .manifestV2 (.object entries)).isSome ↔
        (Json.required readConfig entries "config").isSome ∧
          (Json.required (Json.asVec readLayer) entries "layers").isSome := by
      rw [readAs]
      cases Json.required readConfig entries "config" <;>
        cases Json.required (Json.asVec readLayer) entries "layers" <;> simp
    have htexts : Form.manifestV2.designated (.object entries) =
        (textOf "digest" config).toList ++ layers.filterMap (textOf "digest") := by
      rw [Form.designated, elementsOf_object hlayers, valueOf, hconfig, Option.bind_some]
    have hentries := plain_elements (fun layer hlayer => plainLayer_iff (hall layer hlayer))
    rw [hread, htexts, required_isSome hconfig, required_asVec_isSome hlayers,
      List.forall_mem_append]
    simp only [Form.Plain, Json.object.injEq, exists_eq_left', elementsOf_object hlayers, hconfig,
      Option.mem_def, Option.some.injEq, forall_eq', plainConfig_iff hone, hentries,
      Option.mem_toList]
    tauto
  | distributionManifestListV2 =>
    obtain ⟨entries, rfl, manifests, hmanifests, hall⟩ := h
    have hentries := plain_elements (fun layer hlayer => plainLayer_iff (hall layer hlayer))
    rw [readAs, Option.isSome_map, required_asVec_isSome hmanifests, Form.designated,
      elementsOf_object hmanifests]
    simp only [Form.Plain, Json.object.injEq, exists_eq_left', elementsOf_object hmanifests,
      hentries, and_assoc]
  | distributionManifestV1 =>
    obtain ⟨entries, rfl, layers, hlayers, hall⟩ := h
    have hentries := plain_elements (fun layer hlayer => plainV1Layer_iff (hall layer hlayer))
    rw [readAs, Option.isSome_map, required_asVec_isSome hlayers, Form.designated,
      elementsOf_object hlayers]
    simp only [Form.Plain, Json.object.injEq, exists_eq_left', elementsOf_object hlayers,
      hentries, and_assoc]

/-- What a required array holds is read element by element. -/
theorem required_asVec {α : Type} {read : Json → Option α} {entries : List (String × Json)}
    {name : String} {elements : List Json} {values : List α}
    (h : Json.get entries name = some (.array elements))
    (hread : Json.required (Json.asVec read) entries name = some values) :
    List.Forall₂ (fun json value => read json = some value) elements values := by
  rw [Json.required_eq, h] at hread
  split at hread
  · exact Json.asVec_array.mp hread
  · cases hread

/-- A document of its form is read with the digests of the texts that it designates. -/
theorem readAs_readFrom {form : Form} {json : Json} {document : Document}
    (h : form.Described json) (hread : readAs form json = some document) :
    ReadFrom (form.designated json) (document.extractions.map (·.digest)) := by
  cases form with
  | manifestV2 =>
    obtain ⟨entries, rfl, ⟨config, hconfig, hone⟩, layers, hlayers, hall⟩ := h
    obtain ⟨c, hc, hread⟩ := Option.bind_eq_some_iff.mp hread
    obtain ⟨ls, hls, rfl⟩ := Option.map_eq_some_iff.mp hread
    have hreadConfig : readConfig config = some c := by
      rw [Json.required_eq, hconfig] at hc
      split at hc
      · exact hc
      · cases hc
    obtain ⟨s, hs, hd⟩ := readConfig_digest hone hreadConfig
    rw [Form.designated, elementsOf_object hlayers, valueOf, hconfig, Option.bind_some, hs,
      Document.extractions, List.map_cons, List.map_map]
    exact .cons hd (readFrom_elements ManifestV2Layer.digest
      (required_asVec hlayers hls) fun json hjson value => readLayer_digest (hall json hjson))
  | distributionManifestListV2 =>
    obtain ⟨entries, rfl, manifests, hmanifests, hall⟩ := h
    obtain ⟨ms, hms, rfl⟩ := Option.map_eq_some_iff.mp hread
    rw [Form.designated, elementsOf_object hmanifests, Document.extractions, List.map_map]
    exact readFrom_elements ManifestV2Layer.digest
      (required_asVec hmanifests hms) fun json hjson value => readLayer_digest (hall json hjson)
  | distributionManifestV1 =>
    obtain ⟨entries, rfl, layers, hlayers, hall⟩ := h
    obtain ⟨ls, hls, rfl⟩ := Option.map_eq_some_iff.mp hread
    rw [Form.designated, elementsOf_object hlayers, Document.extractions, List.map_map]
    exact readFrom_elements DistributionManifestV1Layer.digest
      (required_asVec hlayers hls) fun json hjson value => readV1Layer_digest (hall json hjson)

/-! ### What the schemas say -/

section

variable {floatValue : String → ℚ} {fromStr : String → Option Json} {imageConfig : Json → Bool}

/-- The entries of all the schemas but those of v1. -/
theorem described_of_valid {types names : List String} {rest : List (String × Schema)}
    {json : Json} (h : (Schema.object (("mediaType", .oneOf types) :: ("size", .number) ::
      ("digest", .string) :: rest) names).valid floatValue json = true)
    (hnames : "mediaType" ∈ names ∧ "digest" ∈ names) : Described json := by
  obtain ⟨entries, rfl, hrequired, hproperties⟩ := Schema.valid_object.mp h
  obtain ⟨m, hm⟩ := Option.isSome_iff_exists.mp (hrequired _ hnames.1)
  obtain ⟨d, hd⟩ := Option.isSome_iff_exists.mp (hrequired _ hnames.2)
  obtain ⟨type, -, rfl⟩ := Schema.valid_oneOf.mp (hproperties _ (.head _) m hm)
  obtain ⟨text, rfl⟩ := Schema.valid_string.mp
    (hproperties _ (.tail _ (.tail _ (.head _))) d hd)
  refine ⟨entries, rfl, ⟨type, hm⟩, ⟨text, hd⟩, ?_⟩
  intro v hv
  simpa [Schema.number, Schema.valid] using hproperties _ (.tail _ (.head _)) v hv

/-- A required property of a valid object. -/
theorem valid_property {properties : List (String × Schema)} {names : List String} {name : String}
    {schema : Schema} {entries : List (String × Json)}
    (h : (Schema.object properties names).valid floatValue (.object entries) = true)
    (hname : name ∈ names) (hproperty : (name, schema) ∈ properties) :
    ∃ v, Json.get entries name = some v ∧ schema.valid floatValue v = true := by
  obtain ⟨_, ⟨⟩, hrequired, hproperties⟩ := Schema.valid_object.mp h
  obtain ⟨v, hv⟩ := Option.isSome_iff_exists.mp (hrequired _ hname)
  exact ⟨v, hv, hproperties _ hproperty v hv⟩

/-- A required array of a valid object. -/
theorem valid_array_property {properties : List (String × Schema)} {names : List String}
    {name : String} {schema : Schema} {entries : List (String × Json)}
    (h : (Schema.object properties names).valid floatValue (.object entries) = true)
    (hname : name ∈ names) (hproperty : (name, Schema.array schema) ∈ properties) :
    ∃ elements, Json.get entries name = some (.array elements) ∧
      ∀ json ∈ elements, schema.valid floatValue json = true := by
  obtain ⟨v, hv, hvalid⟩ := valid_property h hname hproperty
  obtain ⟨elements, rfl, hall⟩ := Schema.valid_array.mp hvalid
  exact ⟨elements, hv, hall⟩

theorem described_manifestV2 {json : Json} (h : manifestV2Schema.valid floatValue json = true ∨
    imageManifestSchema.valid floatValue json = true) : Form.manifestV2.Described json := by
  rcases h with h | h
  all_goals
    obtain ⟨entries, rfl, -⟩ := Schema.valid_object.mp h
    obtain ⟨config, hconfig, hone⟩ := valid_property h (by simp)
      (.tail _ (.tail _ (.head _)))
    obtain ⟨layers, hlayers, hall⟩ := valid_array_property h (by simp)
      (.tail _ (.tail _ (.tail _ (.head _))))
    exact ⟨entries, rfl, ⟨config, hconfig, described_of_valid hone (by simp)⟩, layers, hlayers,
      fun layer hlayer => described_of_valid (hall layer hlayer) (by simp)⟩

theorem described_list {json : Json} (h : manifestListSchema.valid floatValue json = true ∨
    imageIndexSchema.valid floatValue json = true) :
    Form.distributionManifestListV2.Described json := by
  rcases h with h | h
  all_goals
    obtain ⟨entries, rfl, -⟩ := Schema.valid_object.mp h
    obtain ⟨manifests, hmanifests, hall⟩ := valid_array_property h (by simp)
      (.tail _ (.tail _ (.head _)))
    exact ⟨entries, rfl, manifests, hmanifests,
      fun manifest hmanifest => described_of_valid (hall manifest hmanifest) (by simp)⟩

theorem described_manifestV1 {json : Json} (h : manifestV1Schema.valid floatValue json = true) :
    Form.distributionManifestV1.Described json := by
  obtain ⟨entries, rfl, -⟩ := Schema.valid_object.mp h
  obtain ⟨layers, hlayers, hall⟩ := valid_array_property h (by simp)
    (.tail _ (.tail _ (.tail _ (.tail _ (.head _)))))
  refine ⟨entries, rfl, layers, hlayers, ?_⟩
  intro layer hlayer
  obtain ⟨fields, rfl, -⟩ := Schema.valid_object.mp (hall layer hlayer)
  obtain ⟨v, hv, hvalid⟩ := valid_property (hall _ hlayer) (by simp) (.head _)
  obtain ⟨text, rfl⟩ := Schema.valid_string.mp hvalid
  exact ⟨fields, text, rfl, hv⟩

/-- A valid manifest has what the schemas say of its form. -/
theorem form_described {contentType data : String} {form : Form} {json : Json}
    (hform : formOf contentType = some form)
    (hvalid : validate (schemaTools fromStr floatValue imageConfig) contentType data = true)
    (hjson : fromStr data = some json) : form.Described json := by
  have hisValid : (schemaTools fromStr floatValue imageConfig).isValid contentType json = true := by
    unfold validate at hvalid
    split at hvalid
    · rw [show (schemaTools fromStr floatValue imageConfig).fromStr data = some json from hjson]
        at hvalid
      exact hvalid
    · cases hvalid
  unfold formOf at hform
  split at hform
  all_goals cases hform
  · exact described_manifestV1 hisValid
  · exact described_manifestV1 hisValid
  · exact described_manifestV2 (.inl hisValid)
  · exact described_list (.inl hisValid)
  · exact described_list (.inr hisValid)
  · exact described_manifestV2 (.inr hisValid)

end

/-! ### Nothing dropped -/

/-- `extract_one` returns the digests that the form designates, all of them and no others; if it
    fails, one of the texts is not that of a digest. -/
def NothingDropped (tools : JsonTools) (contentType data : String) (form : Form) : Prop :=
  ∀ json, tools.fromStr data = some json →
    match extractOne tools contentType data with
    | .ok found => (found.image fun e => Digest.text e.digest) = (form.designated json).toFinset
    | .error _ => ∃ text ∈ form.designated json, ¬ IsSha256 text

section

variable {tools : JsonTools} {contentType data : String} {form : Form} {json : Json}

/-- What is dropped can be seen from the document as it is read. -/
theorem nothingDropped_iff (hjson : tools.fromStr data = some json) :
    NothingDropped tools contentType data form ↔
      (match readDocument json with
        | some document => document.texts.toFinset
        | none => ∅) = (form.designated json).toFinset := by
  have hextract : extractOne tools contentType data = .ok (match readDocument json with
      | some document => document.extractions.toFinset
      | none => ∅) := by
    rw [extractOne, hjson, Option.bind_some]
    cases readDocument json <;> rfl
  unfold NothingDropped
  simp only [hjson, Option.some.injEq, forall_eq', hextract]
  cases readDocument json with
  | none => rfl
  | some document =>
    have htexts : (document.extractions.toFinset.image fun e => Digest.text e.digest) =
        document.texts.toFinset := by
      ext text
      simp [Document.texts]
    rw [htexts]

theorem readFrom_of_mem {texts : List String} {digests : List Digest} (h : ReadFrom texts digests)
    {d : Digest} (hd : d ∈ digests) : ∃ text, Digest.tryFrom text = some d := by
  induction h with
  | nil => cases hd
  | cons hone _ ih =>
    rcases List.mem_cons.mp hd with rfl | hd
    · exact ⟨_, hone⟩
    · exact ih hd

/-- Where the document is read in its own form, nothing is dropped exactly if its texts are those of
    digests. -/
theorem texts_iff {texts : List String} {digests : List Digest} (h : ReadFrom texts digests) :
    (digests.map Digest.text).toFinset = texts.toFinset ↔ ∀ text ∈ texts, IsSha256 text := by
  constructor
  · intro heq text htext
    rw [← List.mem_toFinset, ← heq, List.mem_toFinset] at htext
    obtain ⟨d, hd, rfl⟩ := List.mem_map.mp htext
    obtain ⟨text, hparse⟩ := readFrom_of_mem h hd
    exact (text_of_tryFrom hparse).1
  · intro hall
    have heq : digests.map Digest.text = texts := by
      induction h with
      | nil => rfl
      | cons hone _ ih =>
        rw [List.map_cons, (text_of_tryFrom hone).2 (hall _ (by simp)),
          ih fun text htext => hall text (List.mem_cons_of_mem _ htext)]
    rw [heq]

end

/-- NOTHING IS DROPPED from a valid manifest exactly if it is plain in the form of its content type
    and cannot be read in one that is tried before; or, failing that, if the form that it is read in
    happens to name the same digests, or it is read in none and designates none. -/
theorem dependencies_exact_iff {fromStr : String → Option Json} {floatValue : String → ℚ}
    {imageConfig : Json → Bool} {contentType data : String} {form : Form} {json : Json}
    (hform : formOf contentType = some form)
    (hvalid : validate (schemaTools fromStr floatValue imageConfig) contentType data = true)
    (hjson : fromStr data = some json) :
    NothingDropped (schemaTools fromStr floatValue imageConfig) contentType data form ↔
      (form.Plain json ∧ ∀ other ∈ form.earlier, readAs other json = none) ∨
      (∃ other document, other ≠ form ∧ FirstRead other json ∧ readAs other json = some document ∧
        document.texts.toFinset = (form.designated json).toFinset) ∨
      ((∀ other, readAs other json = none) ∧ form.designated json = []) := by
  have hdescribed := form_described hform hvalid hjson
  have hread : (schemaTools fromStr floatValue imageConfig).fromStr data = some json := hjson
  rw [nothingDropped_iff hread,
    plain_iff hdescribed]
  rcases firstRead_or json with ⟨first, hfirst⟩ | hnone
  · rw [readDocument_of_firstRead hfirst]
    obtain ⟨document, hdocument⟩ := Option.isSome_iff_exists.mp hfirst.1
    simp only [hdocument]
    by_cases hown : first = form
    · subst hown
      have htexts : document.texts =
          (document.extractions.map (·.digest)).map Digest.text := by
        rw [Document.texts, List.map_map]
        rfl
      rw [htexts, texts_iff (readAs_readFrom hdescribed hdocument)]
      constructor
      · exact fun hall => .inl ⟨⟨hfirst.1, hall⟩, hfirst.2⟩
      · rintro (⟨⟨-, hall⟩, -⟩ | ⟨other, -, hne, hother, -⟩ | ⟨hnone, -⟩)
        · exact hall
        · exact (hne (firstRead_unique hother hfirst)).elim
        · rw [hnone first] at hdocument
          cases hdocument
    · constructor
      · exact fun heq => .inr (.inl ⟨first, document, hown, hfirst, hdocument, heq⟩)
      · rintro (⟨⟨hsome, -⟩, hearlier⟩ | ⟨other, read, -, hother, hread, heq⟩ | ⟨hnone, -⟩)
        · exact (hown (firstRead_unique hfirst ⟨hsome, hearlier⟩)).elim
        · obtain rfl := firstRead_unique hother hfirst
          obtain rfl := Option.some.inj (hread.symm.trans hdocument)
          exact heq
        · rw [hnone first] at hdocument
          cases hdocument
  · have hunread : readDocument json = none := by
      rw [readDocument_eq, hnone, hnone, hnone]
      rfl
    rw [hunread]
    constructor
    · intro hempty
      exact .inr (.inr ⟨hnone, List.toFinset_eq_empty_iff _ |>.mp hempty.symm⟩)
    · rintro (⟨⟨hsome, -⟩, -⟩ | ⟨other, read, -, hother, -⟩ | ⟨-, hdesignated⟩)
      · rw [hnone form] at hsome
        cases hsome
      · have hsome := hother.1
        rw [hnone other] at hsome
        cases hsome
      · rw [hdesignated]
        rfl

/-! ### An image with a layer of another algorithm -/

/-- What is read from the texts of an input. -/
def readOnly (text : String) (json : Json) (s : String) : Option Json :=
  if s = text then some json else none

theorem readOnly_self (text : String) (json : Json) : readOnly text json text = some json :=
  if_pos rfl

/-- The tools on these inputs, none of which has a float. -/
def schemasFor (text : String) (json : Json) : JsonTools :=
  schemaTools (readOnly text json) (fun _ => 0) fun _ => true

theorem dependencies_exact_image : NothingDropped (schemasFor imageText imageJson)
    "application/vnd.docker.distribution.manifest.v2+json" imageText .manifestV2 := by
  have hform : formOf "application/vnd.docker.distribution.manifest.v2+json" =
      some .manifestV2 := rfl
  have hvalid : validate (schemasFor imageText imageJson)
      "application/vnd.docker.distribution.manifest.v2+json" imageText = true := by decide +kernel
  have hjson := readOnly_self imageText imageJson
  have htexts : Form.manifestV2.designated imageJson = [Digest.text helloDigest] := by
    decide +kernel
  have hparse : Digest.tryFrom (Digest.text helloDigest) = some helloDigest := by decide +kernel
  have hplain : Form.manifestV2.Plain imageJson := by
    refine (plain_iff (form_described hform hvalid hjson)).mpr ⟨by decide +kernel, ?_⟩
    intro text htext
    have heq : text = Digest.text helloDigest := List.mem_singleton.mp (htexts ▸ htext)
    exact heq ▸ (text_of_tryFrom hparse).1
  have hearlier : ∀ other ∈ Form.manifestV2.earlier, readAs other imageJson = none := by
    simp [Form.earlier]
  rw [schemasFor, dependencies_exact_iff hform hvalid hjson]
  exact .inl ⟨hplain, hearlier⟩

/-- The image with one layer, whose digest is of SHA-512. -/
def sha512Text : String :=
  "\x7b\"schemaVersion\":2," ++
  "\"mediaType\":\"application/vnd.docker.distribution.manifest.v2+json\"," ++
  "\"config\":\x7b\"mediaType\":\"application/vnd.docker.container.image.v1+json\",\"size\":12," ++
  "\"digest\":" ++
  "\"sha256:09ca7e4eaa6e8ae9c7d261167129184883644d07dfba7cbfbc4c8a2e08360d5b\"\x7d," ++
  "\"layers\":[\x7b\"mediaType\":\"application/vnd.docker.image.rootfs.diff.tar.gzip\"," ++
  "\"size\":3,\"digest\":" ++
  "\"sha512:ddaf35a193617abacc417349ae20413112e6fa4e89a97ea20a9eeee64b55d39a" ++
  "2192992a274fc1a836ba3c23a3feebbd454d4423643ce80e2a9ac94fa54ca49f\"\x7d]\x7d"

def sha512Json : Json :=
  .object [("schemaVersion", .unsigned 2),
    ("mediaType", .string "application/vnd.docker.distribution.manifest.v2+json"),
    ("config", .object [("mediaType", .string "application/vnd.docker.container.image.v1+json"),
      ("size", .unsigned 12),
      ("digest",
        .string "sha256:09ca7e4eaa6e8ae9c7d261167129184883644d07dfba7cbfbc4c8a2e08360d5b")]),
    ("layers", .array [.object [
      ("mediaType", .string "application/vnd.docker.image.rootfs.diff.tar.gzip"),
      ("size", .unsigned 3),
      ("digest", .string <|
        "sha512:ddaf35a193617abacc417349ae20413112e6fa4e89a97ea20a9eeee64b55d39a" ++
        "2192992a274fc1a836ba3c23a3feebbd454d4423643ce80e2a9ac94fa54ca49f")]])]

/-- It is valid, and recorded without its config and its layer. -/
theorem sha512_dropped :
    validate (schemasFor sha512Text sha512Json)
        "application/vnd.docker.distribution.manifest.v2+json" sha512Text = true ∧
      extractOne (schemasFor sha512Text sha512Json)
        "application/vnd.docker.distribution.manifest.v2+json" sha512Text = .ok ∅ ∧
      ¬ NothingDropped (schemasFor sha512Text sha512Json)
        "application/vnd.docker.distribution.manifest.v2+json" sha512Text .manifestV2 := by
  have hjson : (schemasFor sha512Text sha512Json).fromStr sha512Text = some sha512Json := by
    simp only [schemasFor, schemaTools, readOnly_self]
  have hread : readDocument sha512Json = none := by decide +kernel
  have hdesignated : Form.manifestV2.designated sha512Json ≠ [] := by decide +kernel
  refine ⟨by decide +kernel, ?_, ?_⟩
  · rw [extractOne, hjson, Option.bind_some, hread]
  · rw [nothingDropped_iff hjson, hread]
    exact fun hempty => hdesignated (List.toFinset_eq_empty_iff _ |>.mp hempty.symm)

end Distribd.Registry
