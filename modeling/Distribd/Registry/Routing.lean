import Mathlib.Data.List.Chain
import Mathlib.Data.List.DropRight
import Distribd.Schemes.PathPattern
import Distribd.Schemes.Url
import Distribd.Registry.DigestText
import Distribd.Registry.Requests

/-! Which handler answers a request (`lib.rs`, and the route of each handler in `registry/`). The name
    of a repository has slashes of its own, so the pattern of a route lets it take as much as it can;
    the first resource, in the order in which they are registered, that has the method of the request
    and a pattern that reads the path gets it.

    The path that a client makes for a resource comes back as that resource with its parameters,
    with or without slashes behind it (`routed_iff`). There is one exception. The digest in the path
    of a manifest may have slashes, so a path with `/manifests/sha256:` anywhere in it is read as the
    path of a manifest with a digest; a repository with that in its name has no tags.

    Paths are as the router gets them, and parameters as it hands them over: escapes are decoded
    before and after that. A `Location` header is put together from the name of the repository as it
    is, so it leads back only for names that a URL carries literally. -/

namespace Distribd.Registry
open Schemes Store

/-! ### The resources -/

/-- The method of a request. -/
inductive Method where | get | head | post | put | patch | delete
  deriving DecidableEq, Repr

/-- `{repository:[^{}]+}`. -/
def repositoryPart : PartKind := ⟨[], fun c => c ≠ '\x7b' && c ≠ '\x7d', false⟩

/-- `{upload_id}`, `{digest}` of a blob and `{tag}`. -/
def segmentPart : PartKind := ⟨[], (· ≠ '/'), false⟩

/-- `{digest:sha256:.*}`. -/
def digestPart : PartKind := ⟨"sha256:".toList, fun _ => true, true⟩

/-- The services of the scope `/v2`. -/
inductive Resource where
  | uploadsDelete | uploadsGet | uploadsPatch | uploadsPost | uploadsPut
  | blobsHead | blobsGet | blobsDelete
  | manifestsPut | manifestsHead | manifestsHeadByTag | manifestsGet | manifestsGetByTag
  | manifestsDelete | manifestsDeleteByTag
  | tagsGet
  | rootGet | rootHead
  deriving DecidableEq, Repr

/-- The order in which they are registered. -/
def services : List Resource :=
  [.uploadsDelete, .uploadsGet, .uploadsPatch, .uploadsPost, .uploadsPut,
   .blobsHead, .blobsGet, .blobsDelete,
   .manifestsPut, .manifestsHead, .manifestsHeadByTag, .manifestsGet, .manifestsGetByTag,
   .manifestsDelete, .manifestsDeleteByTag,
   .tagsGet,
   .rootGet, .rootHead]

/-- The forms of their paths. -/
inductive PathForm where
  | uploads | session | blob | manifestByDigest | manifestByTag | tags | root
  deriving DecidableEq, Repr

/-- A pattern of a repository. -/
def inRepository (rest : PathPattern) : PathPattern :=
  .text "/".toList :: .part repositoryPart :: rest

/-- The pattern of such a path, below the scope. -/
def PathForm.pattern : PathForm → PathPattern
  | uploads => inRepository [.text "/blobs/uploads".toList]
  | session => inRepository [.text "/blobs/uploads/".toList, .part segmentPart]
  | blob => inRepository [.text "/blobs/".toList, .part segmentPart]
  | manifestByDigest => inRepository [.text "/manifests/".toList, .part digestPart]
  | manifestByTag => inRepository [.text "/manifests/".toList, .part segmentPart]
  | tags => inRepository [.text "/tags/list".toList]
  | root => []

namespace Resource

/-- The method that a resource is guarded by. -/
def method : Resource → Method
  | uploadsGet | blobsGet | manifestsGet | manifestsGetByTag | tagsGet | rootGet => .get
  | blobsHead | manifestsHead | manifestsHeadByTag | rootHead => .head
  | uploadsPost => .post
  | uploadsPut | manifestsPut => .put
  | uploadsPatch => .patch
  | uploadsDelete | blobsDelete | manifestsDelete | manifestsDeleteByTag => .delete

/-- The form of its path. -/
def form : Resource → PathForm
  | uploadsPost => .uploads
  | uploadsDelete | uploadsGet | uploadsPatch | uploadsPut => .session
  | blobsHead | blobsGet | blobsDelete => .blob
  | manifestsHead | manifestsGet | manifestsDelete => .manifestByDigest
  | manifestsPut | manifestsHeadByTag | manifestsGetByTag | manifestsDeleteByTag => .manifestByTag
  | tagsGet => .tags
  | rootGet | rootHead => .root

end Resource

/-- The path that a client makes. -/
def PathForm.path (form : PathForm) (params : List String) : String :=
  "/v2" ++ String.ofList (form.pattern.write (params.map String.toList))

/-! ### Routing -/

/-- One slash for several. -/
def mergeSlashes : List Char → List Char
  | [] => []
  | [c] => [c]
  | c :: c' :: cs =>
    if c = '/' ∧ c' = '/' then mergeSlashes (c' :: cs) else c :: mergeSlashes (c' :: cs)

/-- `NormalizePath::trim`. -/
def normalizePath (path : List Char) : List Char :=
  let path := mergeSlashes (path.rdropWhile (· = '/'))
  if path = [] then ['/'] else path

/-- What is left of a path below the scope `/v2`. -/
def belowScope (path : List Char) : Option (List Char) :=
  if "/v2".toList.isPrefixOf path then
    match path.drop "/v2".toList.length with
    | [] => some []
    | c :: rest => if c = '/' then some (c :: rest) else none
  else none

/-- The first resource that has the method and reads the path, and its parameters. -/
def route (method : Method) (path : String) : Option (Resource × List String) :=
  (belowScope (normalizePath path.toList)).bind fun rest =>
    services.findSome? fun ρ =>
      if ρ.method = method then
        (ρ.form.pattern.read rest).map fun parts => (ρ, parts.map String.ofList)
      else none

/-- The query of an upload. -/
structure UploadQuery where
  mount : Option String
  source : Option String
  digest : Option String

/-- What the handler of a resource gets; `none` for those of upload sessions, tags and the root. -/
def Resource.call (query : UploadQuery) : Resource → List String → Option Call
  | uploadsPost, [r] =>
    some (.postUpload ⟨r⟩ query.mount (query.source.map RepositoryName.mk) query.digest)
  | uploadsPut, [r, _] => query.digest.map (.putUpload ⟨r⟩)
  | blobsHead, [r, d] => some (.headBlob ⟨r⟩ d)
  | blobsGet, [r, d] => some (.getBlob ⟨r⟩ d)
  | blobsDelete, [r, d] => some (.deleteBlob ⟨r⟩ d)
  | manifestsPut, [r, t] => some (.putManifest ⟨r⟩ t)
  | manifestsHead, [r, d] => some (.headManifest ⟨r⟩ d)
  | manifestsHeadByTag, [r, t] => some (.headManifestByTag ⟨r⟩ t)
  | manifestsGet, [r, d] => some (.getManifest ⟨r⟩ d)
  | manifestsGetByTag, [r, t] => some (.getManifestByTag ⟨r⟩ t)
  | manifestsDelete, [r, d] => some (.deleteManifest ⟨r⟩ d)
  | manifestsDeleteByTag, [r, t] => some (.deleteManifestByTag ⟨r⟩ t)
  | _, _ => none

/-! ### What is in order -/

/-- No slash follows a slash. -/
def NoDouble (cs : List Char) : Prop := cs.IsChain fun a b => ¬ (a = '/' ∧ b = '/')

instance (cs : List Char) : Decidable (NoDouble cs) := inferInstanceAs (Decidable (List.IsChain _ cs))

/-- The name of a repository. -/
structure RepositoryFits (r : String) : Prop where
  part : repositoryPart.admits r.toList = true
  slashes : NoDouble r.toList
  first : r.toList.head? ≠ some '/'
  last : r.toList.getLast? ≠ some '/'

/-- Parameters that a path can have: they are what the pattern admits, and have no slashes that are
    trimmed or merged. -/
def PathForm.Fits : PathForm → List String → Prop
  | uploads, params | tags, params => ∃ r, params = [r] ∧ RepositoryFits r
  | session, params | blob, params | manifestByTag, params =>
    ∃ r x, params = [r, x] ∧ RepositoryFits r ∧ segmentPart.admits x.toList = true
  | manifestByDigest, params =>
    ∃ r d, params = [r, d] ∧ RepositoryFits r ∧ segmentPart.admits d.toList = true ∧
      digestPart.admits d.toList = true
  | root, params => params = []

/-- A path that is read as that of a manifest with a digest: `/manifests/sha256:` is in it. -/
def PathForm.Shadowed : PathForm → List String → Prop
  | manifestByTag, [r, t] =>
    "/manifests/sha256:".toList <:+: r.toList ++ "/manifests/".toList ++ t.toList
  | tags, [r] => "/manifests/sha256:".toList <:+: r.toList ++ "/tags/list".toList
  | _, _ => False

/-- A `Location` header. -/
inductive Location where
  | upload (repository : RepositoryName) (uploadId : String)
  | blob (repository : RepositoryName) (digest : Digest)
  | manifest (repository : RepositoryName) (digest : Digest)

namespace Location

/-- Its text. -/
def text : Location → String
  | upload r uploadId => "/v2/" ++ r.name ++ "/blobs/uploads/" ++ uploadId
  | blob r d => "/v2/" ++ r.name ++ "/blobs/" ++ Digest.text d
  | manifest r d => "/v2/" ++ r.name ++ "/manifests/" ++ Digest.text d

/-- The form of its path, and the parameters. -/
def target : Location → PathForm × List String
  | upload r uploadId => (.session, [r.name, uploadId])
  | blob r d => (.blob, [r.name, Digest.text d])
  | manifest r d => (.manifestByDigest, [r.name, Digest.text d])

/-- The path that somebody asks for who follows it, as the router gets it. -/
def requestedPath (loc : Location) : String :=
  String.ofList (requested (fun c => c = '%' || c = '/' || c = '+') loc.text.toList)

/-- The names are literal; upload ids are made up, and digests are those of a content. -/
def Fits : Location → Prop
  | upload r uploadId => (RepositoryFits r.name ∧ IsLiteral r.name.toList) ∧
    segmentPart.admits uploadId.toList = true ∧ IsLiteral uploadId.toList
  | blob r d | manifest r d => (RepositoryFits r.name ∧ IsLiteral r.name.toList) ∧ WellFormed d

end Location

theorem segmentPart_admits {x : List Char} :
    segmentPart.admits x = true ↔ x ≠ [] ∧ '/' ∉ x := by
  simp [PartKind.admits, segmentPart, List.length_pos_iff, and_comm, List.forall_mem_ne']

theorem repositoryPart_admits {r : List Char} :
    repositoryPart.admits r = true ↔ r ≠ [] ∧ ∀ c ∈ r, c ≠ '\x7b' ∧ c ≠ '\x7d' := by
  simp [PartKind.admits, repositoryPart, List.length_pos_iff, and_comm]

theorem digestPart_admits {d : List Char} :
    digestPart.admits d = true ↔ "sha256:".toList <+: d := PartKind.admits_any _ d

/-! ### Slashes -/

theorem mergeSlashes_eq_self {cs : List Char} (h : NoDouble cs) : mergeSlashes cs = cs := by
  unfold NoDouble at h
  induction cs using mergeSlashes.induct with
  | case1 => rfl
  | case2 c => rfl
  | case3 c c' cs hslashes ih =>
    rw [List.isChain_cons_cons] at h
    exact absurd hslashes h.1
  | case4 c c' cs hslashes ih =>
    rw [List.isChain_cons_cons] at h
    rw [mergeSlashes, if_neg hslashes, ih h.2]

theorem normalizePath_eq_self {cs : List Char} (hne : cs ≠ []) (h : NoDouble cs)
    (hlast : cs.getLast? ≠ some '/') :
    normalizePath cs = cs := by
  have htrim : cs.rdropWhile (· = '/') = cs := by
    rw [List.rdropWhile_eq_self_iff]
    intro hne hslash
    rw [decide_eq_true_eq] at hslash
    exact hlast (by rw [List.getLast?_eq_getLast_of_ne_nil hne, hslash])
  simp only [normalizePath, htrim, mergeSlashes_eq_self h, if_neg hne]

/-- Slashes behind a path do not count. -/
theorem normalizePath_append (cs : List Char) (n : ℕ) :
    normalizePath (cs ++ List.replicate n '/') = normalizePath cs := by
  induction n with
  | zero => simp
  | succ n ih =>
    rw [List.replicate_succ', ← List.append_assoc, ← ih, normalizePath, normalizePath,
      List.rdropWhile_concat_pos _ _ _ (by simp)]

/-! ### Paths of a repository -/

section Reading

variable {m a b r x cs : List Char} {k : PartKind} {parts : List (List Char)}

theorem write_one : (inRepository [.text m]).write [r] = '/' :: (r ++ m) := by
  simp [inRepository, PathPattern.write]

theorem write_two : (inRepository [.text m, .part k]).write [r, x] = '/' :: (r ++ m ++ x) := by
  simp [inRepository, PathPattern.write]

/-- A last part stands in a directory. -/
theorem write_dir :
    (inRepository [.text (a ++ ['/']), .part k]).write [r, x] = '/' :: (r ++ a ++ '/' :: x) := by
  simp [write_two]

theorem admits_one :
    (inRepository [.text m]).Admits parts ↔ ∃ r, parts = [r] ∧ repositoryPart.admits r = true := by
  constructor
  · intro h
    match parts, h with
    | [r], h => exact ⟨r, rfl, h.1⟩
  · rintro ⟨r, rfl, hr⟩
    exact ⟨hr, rfl⟩

theorem admits_two :
    (inRepository [.text m, .part k]).Admits parts ↔
      ∃ r x, parts = [r, x] ∧ repositoryPart.admits r = true ∧ k.admits x = true := by
  constructor
  · intro h
    match parts, h with
    | [r, x], h => exact ⟨r, x, rfl, h.1, h.2.1⟩
  · rintro ⟨r, x, rfl, hr, hx⟩
    exact ⟨hr, hx, rfl⟩

theorem read_one (hr : repositoryPart.admits r = true) :
    (inRepository [.text m]).read ('/' :: (r ++ m)) = some [r] := by
  rw [← write_one]
  refine PathPattern.read_write (admits_one.mpr ⟨r, rfl, hr⟩) ?_
  intro parts hadmits hwrite
  obtain ⟨r', rfl, -⟩ := admits_one.mp hadmits
  rw [write_one, write_one, List.cons_inj_right] at hwrite
  rw [List.append_cancel_right hwrite]
  exact PathPattern.noLonger_refl _

/-- A last part without a slash can be read in one way. -/
theorem read_segment (hr : repositoryPart.admits r = true) (hx : segmentPart.admits x = true) :
    (inRepository [.text (a ++ ['/']), .part segmentPart]).read ('/' :: (r ++ a ++ '/' :: x)) =
      some [r, x] := by
  rw [← write_dir (k := segmentPart)]
  refine PathPattern.read_write (admits_two.mpr ⟨r, x, rfl, hr, hx⟩) ?_
  intro parts hadmits hsame
  obtain ⟨r', x', rfl, -, hx'⟩ := admits_two.mp hadmits
  rw [write_two, write_two, List.cons_inj_right] at hsame
  have hslash := (segmentPart_admits.mp hx).2
  have hslash' := (segmentPart_admits.mp hx').2
  obtain ⟨hdir, rfl⟩ := eq_of_last (a := r' ++ a) (b := r ++ a) (by simpa using hsame) hslash'
    hslash
  rw [List.append_cancel_right hdir]
  exact PathPattern.noLonger_refl _

/-- Nothing is read in another directory. -/
theorem read_segment_eq_none (hne : ∀ s s' : List Char, s ++ a ≠ s' ++ b) (hx : '/' ∉ x) :
    (inRepository [.text (a ++ ['/']), .part segmentPart]).read ('/' :: (r ++ b ++ '/' :: x)) =
      none := by
  by_contra hread
  obtain ⟨parts, hread⟩ := Option.ne_none_iff_exists'.mp hread
  obtain ⟨hadmits, hwrite⟩ := PathPattern.write_of_read hread
  obtain ⟨r', x', rfl, -, hx'⟩ := admits_two.mp hadmits
  rw [write_two, List.cons_inj_right] at hwrite
  have hslash := (segmentPart_admits.mp hx').2
  exact hne r' r (eq_of_last (a := r' ++ a) (b := r ++ b) (by simpa using hwrite) hslash hx).1

/-- A last part that may have slashes is as short as can be. -/
theorem read_digest (hr : repositoryPart.admits r = true) (hx : digestPart.admits x = true)
    (hslash : '/' ∉ x) :
    (inRepository [.text (a ++ ['/']), .part digestPart]).read ('/' :: (r ++ a ++ '/' :: x)) =
      some [r, x] := by
  rw [← write_dir (k := digestPart)]
  refine PathPattern.read_write (admits_two.mpr ⟨r, x, rfl, hr, hx⟩) ?_
  intro parts hadmits hsame
  obtain ⟨r', x', rfl, -, -⟩ := admits_two.mp hadmits
  rw [write_two, write_two, List.cons_inj_right] at hsame
  have hle := length_le_of_last (a := r' ++ a) (b := r ++ a) (by simpa using hsame) hslash
  have hlength := congrArg List.length hsame
  simp only [List.length_append] at hle hlength
  rcases (show r'.length ≤ r.length by omega).lt_or_eq with hlt | heq
  · exact .inl hlt
  · exact .inr ⟨heq, .inr ⟨by omega, trivial⟩⟩

/-- When a path is read as that of a manifest with a digest. -/
theorem read_digest_isSome_iff (hr : repositoryPart.admits r = true) (hfirst : r.head? ≠ some '/')
    (hlength : a.length ≤ "/manifests".length) (hx : '/' ∉ x) :
    ((inRepository [.text "/manifests/".toList, .part digestPart]).read
        ('/' :: (r ++ a ++ '/' :: x))).isSome ↔
      "/manifests/sha256:".toList <:+: r ++ a ++ '/' :: x := by
  constructor
  · intro hsome
    obtain ⟨parts, hread⟩ := Option.isSome_iff_exists.mp hsome
    obtain ⟨hadmits, hwrite⟩ := PathPattern.write_of_read hread
    obtain ⟨r', d, rfl, -, hd⟩ := admits_two.mp hadmits
    rw [write_two, List.cons_inj_right] at hwrite
    obtain ⟨rest, rfl⟩ := digestPart_admits.mp hd
    refine ⟨r', rest, ?_⟩
    rw [← hwrite]
    simp
  · rintro ⟨r', rest, heq⟩
    have hsplit : r' ++ "/manifests".toList ++ '/' :: ("sha256:".toList ++ rest) =
        r ++ a ++ '/' :: x := by
      rw [← heq]
      simp
    have hle := length_le_of_last hsplit hx
    have hshort : r'.length ≤ r.length := by
      simp only [List.length_append] at hle
      have hmanifests : "/manifests".toList.length = "/manifests".length := rfl
      omega
    obtain ⟨hne, hbraces⟩ := repositoryPart_admits.mp hr
    have hstart : r' <+: r := by
      have hread : r' <+: r ++ a ++ '/' :: x := by
        rw [← hsplit, List.append_assoc]
        exact List.prefix_append _ _
      have hname : r <+: r ++ a ++ '/' :: x := by
        rw [List.append_assoc]
        exact List.prefix_append _ _
      exact List.prefix_of_prefix_length_le hread hname hshort
    have hr' : repositoryPart.admits r' = true := by
      refine repositoryPart_admits.mpr ⟨?_, fun c hc => hbraces c (hstart.subset hc)⟩
      rintro rfl
      -- the name would begin with the slash
      obtain ⟨c, cs, rfl⟩ := List.exists_cons_of_ne_nil hne
      have hhead := congrArg List.head? hsplit
      simp at hhead
      exact hfirst (by simp [← hhead])
    have hread := PathPattern.read_isSome (admits_two.mpr
      ⟨r', "sha256:".toList ++ rest, rfl, hr', digestPart_admits.mpr (List.prefix_append _ _)⟩ :
        (inRepository [.text "/manifests/".toList, .part digestPart]).Admits _)
    rw [write_two] at hread
    rw [← hsplit]
    simpa using hread

end Reading

/-! ### Which resource comes first -/

namespace Resource

/-- The resources with the same method that are registered before. -/
def before (ρ : Resource) : List Resource :=
  (services.takeWhile (· ≠ ρ)).filter (·.method = ρ.method)

end Resource

/-- The forms that stand before a form, for some method. -/
def PathForm.earlier : PathForm → List PathForm
  | uploads | session => []
  | blob => [session]
  | manifestByDigest => [session, blob]
  | manifestByTag => [session, blob, manifestByDigest]
  | tags => [session, blob, manifestByDigest, manifestByTag]
  | root => [session, blob, manifestByDigest, manifestByTag, tags]

theorem form_of_before (ρ : Resource) : ∀ σ ∈ ρ.before, σ.form ∈ ρ.form.earlier := by
  cases ρ <;> decide

/-- Nothing but a path with a digest stands before the PUT of a manifest. -/
theorem form_of_before_put (ρ : Resource) (h : ρ.method = .put) :
    ∀ σ ∈ ρ.before, σ.form ≠ .manifestByDigest := by
  cases ρ <;> revert h <;> decide

/-- The paths with a digest come before those with a tag and that of the tags. -/
theorem byDigest_before (ρ : Resource) (h : ρ.form = .manifestByTag ∨ ρ.form = .tags)
    (hput : ρ.method ≠ .put) : ∃ σ ∈ ρ.before, σ.form = .manifestByDigest := by
  cases ρ <;> revert h hput <;> decide

theorem services_split (ρ : Resource) :
    ∃ rest, services = services.takeWhile (· ≠ ρ) ++ ρ :: rest := by
  cases ρ <;> exact ⟨_, rfl⟩

/-- Directories with other last letters are not the same. -/
theorem append_ne_append {a b : List Char} (h : a.reverse.take 2 ≠ b.reverse.take 2)
    (ha : 2 ≤ a.length) (hb : 2 ≤ b.length) (s s' : List Char) : s ++ a ≠ s' ++ b := by
  intro heq
  refine h ?_
  have hlast := congrArg (fun l => l.reverse.take 2) heq
  simp only [List.reverse_append] at hlast
  rwa [List.take_append_of_le_length (by simpa using ha),
    List.take_append_of_le_length (by simpa using hb)] at hlast

theorem read_self {form : PathForm} {params : List String} (hfits : form.Fits params) :
    form.pattern.read (form.pattern.write (params.map String.toList)) =
      some (params.map String.toList) := by
  cases form with
  | uploads =>
    obtain ⟨r, rfl, hr⟩ := hfits
    exact (congrArg _ write_one).trans (read_one hr.part)
  | session =>
    obtain ⟨r, x, rfl, hr, hx⟩ := hfits
    exact (congrArg _ (write_dir (a := "/blobs/uploads".toList))).trans (read_segment hr.part hx)
  | blob =>
    obtain ⟨r, x, rfl, hr, hx⟩ := hfits
    exact (congrArg _ (write_dir (a := "/blobs".toList))).trans (read_segment hr.part hx)
  | manifestByDigest =>
    obtain ⟨r, d, rfl, hr, hd, hdigest⟩ := hfits
    exact (congrArg _ (write_dir (a := "/manifests".toList))).trans
      (read_digest hr.part hdigest (segmentPart_admits.mp hd).2)
  | manifestByTag =>
    obtain ⟨r, x, rfl, hr, hx⟩ := hfits
    exact (congrArg _ (write_dir (a := "/manifests".toList))).trans (read_segment hr.part hx)
  | tags =>
    obtain ⟨r, rfl, hr⟩ := hfits
    exact (congrArg _ write_one).trans (read_one hr.part)
  | root =>
    obtain rfl : params = [] := hfits
    rfl

/-- What stands before the last slash of a path, after the repository. -/
def PathForm.dir : PathForm → List Char
  | session => "/blobs/uploads".toList
  | uploads | blob => "/blobs".toList
  | manifestByDigest | manifestByTag => "/manifests".toList
  | tags => "/tags".toList
  | root => []

theorem write_form {form : PathForm} {params : List String} (hfits : form.Fits params)
    (hroot : form ≠ .root) : ∃ r x, RepositoryFits r ∧ x ≠ [] ∧ '/' ∉ x ∧
      form.pattern.write (params.map String.toList) = '/' :: (r.toList ++ form.dir ++ '/' :: x) := by
  have htext : ∀ r m x : List Char, r ++ (m ++ x) = r ++ m ++ x := by simp
  cases form with
  | uploads =>
    obtain ⟨r, rfl, hr⟩ := hfits
    exact ⟨r, "uploads".toList, hr, by simp, by simp,
      write_one.trans (congrArg _ (htext r.toList "/blobs".toList "/uploads".toList))⟩
  | session =>
    obtain ⟨r, x, rfl, hr, hx⟩ := hfits
    obtain ⟨hne, hslash⟩ := segmentPart_admits.mp hx
    exact ⟨r, x.toList, hr, hne, hslash, write_dir (a := "/blobs/uploads".toList)⟩
  | blob =>
    obtain ⟨r, x, rfl, hr, hx⟩ := hfits
    obtain ⟨hne, hslash⟩ := segmentPart_admits.mp hx
    exact ⟨r, x.toList, hr, hne, hslash, write_dir (a := "/blobs".toList)⟩
  | manifestByDigest =>
    obtain ⟨r, d, rfl, hr, hd, -⟩ := hfits
    obtain ⟨hne, hslash⟩ := segmentPart_admits.mp hd
    exact ⟨r, d.toList, hr, hne, hslash, write_dir (a := "/manifests".toList)⟩
  | manifestByTag =>
    obtain ⟨r, x, rfl, hr, hx⟩ := hfits
    obtain ⟨hne, hslash⟩ := segmentPart_admits.mp hx
    exact ⟨r, x.toList, hr, hne, hslash, write_dir (a := "/manifests".toList)⟩
  | tags =>
    obtain ⟨r, rfl, hr⟩ := hfits
    exact ⟨r, "list".toList, hr, by simp, by simp,
      write_one.trans (congrArg _ (htext r.toList "/tags".toList "/list".toList))⟩
  | root => exact absurd rfl hroot

theorem dir_of_earlier (form : PathForm) (hroot : form ≠ .root) : ∀ form' ∈ form.earlier,
    form' ≠ .manifestByDigest → form'.dir.reverse.take 2 ≠ form.dir.reverse.take 2 := by
  cases form <;> revert hroot <;> decide

theorem two_le_dir (form : PathForm) (hroot : form ≠ .root) : 2 ≤ form.dir.length := by
  cases form <;> revert hroot <;> decide

theorem pattern_of_earlier {form form' : PathForm} (hroot : form ≠ .root)
    (h : form' ∈ form.earlier) (hdigest : form' ≠ .manifestByDigest) : form' ≠ .root ∧
      form'.pattern = inRepository [.text (form'.dir ++ ['/']), .part segmentPart] := by
  cases form' with
  | session | blob | manifestByTag => exact ⟨by simp, rfl⟩
  | manifestByDigest => exact absurd rfl hdigest
  | uploads => exact absurd h (by cases form <;> decide)
  | tags => exact absurd h (by cases form <;> revert hroot <;> decide)
  | root => exact absurd h (by cases form <;> decide)

/-- A path is shadowed exactly if it can be read as that of a manifest with a digest. -/
theorem shadowed_iff {form : PathForm} {params : List String} (hfits : form.Fits params)
    (hform : form = .manifestByTag ∨ form = .tags) : form.Shadowed params ↔
      (PathForm.manifestByDigest.pattern.read
        (form.pattern.write (params.map String.toList))).isSome := by
  rcases hform with rfl | rfl
  · obtain ⟨r, x, rfl, hr, hx⟩ := hfits
    have hread := read_digest_isSome_iff (a := "/manifests".toList) hr.part hr.first (by decide)
      (segmentPart_admits.mp hx).2
    rw [← write_dir (k := segmentPart)] at hread
    refine Iff.trans ?_ hread.symm
    rw [PathForm.Shadowed, show "/manifests/".toList = "/manifests".toList ++ ['/'] from rfl]
    simp
  · obtain ⟨r, rfl, hr⟩ := hfits
    have hread := read_digest_isSome_iff (a := "/tags".toList) (x := "list".toList) hr.part hr.first
      (by decide) (by simp)
    rw [List.append_assoc, ← write_one] at hread
    exact hread.symm

/-- No earlier form reads the path, unless it is shadowed. -/
theorem read_earlier {form form' : PathForm} {params : List String} (hfits : form.Fits params)
    (hform : form' ∈ form.earlier)
    (hshadowed : form' = .manifestByDigest → ¬ form.Shadowed params) :
    form'.pattern.read (form.pattern.write (params.map String.toList)) = none := by
  by_cases hroot : form = .root
  · subst hroot
    obtain rfl : params = [] := hfits
    cases form' with
    | root => revert hform; decide
    | _ => rfl
  · by_cases hdigest : form' = .manifestByDigest
    · subst hdigest
      have hlater : form = .manifestByTag ∨ form = .tags := by
        cases form <;> revert hform hroot <;> decide
      have hread := mt (shadowed_iff hfits hlater).mpr (hshadowed rfl)
      simpa using hread
    · obtain ⟨hroot', hpattern⟩ := pattern_of_earlier hroot hform hdigest
      obtain ⟨r, x, -, -, hslash, hwrite⟩ := write_form hfits hroot
      rw [hpattern, hwrite]
      exact read_segment_eq_none (append_ne_append (dir_of_earlier form hroot form' hform hdigest)
        (two_le_dir form' hroot') (two_le_dir form hroot)) hslash

theorem noDouble_append {cs ds : List Char} (hcs : NoDouble cs) (hds : NoDouble ds)
    (h : cs.getLast? ≠ some '/' ∨ ds.head? ≠ some '/') : NoDouble (cs ++ ds) := by
  refine List.isChain_append.mpr ⟨hcs, hds, ?_⟩
  rintro a ha b hb ⟨rfl, rfl⟩
  rcases h with h | h
  · exact h ha
  · exact h hb

theorem noDouble_cons {c : Char} {ds : List Char} (hds : NoDouble ds)
    (h : c ≠ '/' ∨ ds.head? ≠ some '/') : NoDouble (c :: ds) := by
  have hc : NoDouble [c] := List.IsChain.singleton c
  refine noDouble_append hc hds ?_
  rcases h with h | h
  · left
    simpa using h
  · exact .inr h

theorem noDouble_of_not_mem {cs : List Char} (h : '/' ∉ cs) : NoDouble cs := by
  induction cs with
  | nil => exact List.IsChain.nil
  | cons c cs ih =>
    rw [List.mem_cons, not_or] at h
    exact noDouble_cons (ih h.2) (.inl (Ne.symm h.1))

theorem noDouble_dir (form : PathForm) : NoDouble form.dir ∧ form.dir.getLast? ≠ some '/' := by
  cases form <;> decide

/-- A path that fits is normal. -/
theorem normal_path {form : PathForm} {params : List String} (hfits : form.Fits params) :
    normalizePath ("/v2".toList ++ form.pattern.write (params.map String.toList)) =
      "/v2".toList ++ form.pattern.write (params.map String.toList) := by
  by_cases hroot : form = .root
  · subst hroot
    obtain rfl : params = [] := hfits
    decide
  · obtain ⟨r, x, hr, hne, hslash, hwrite⟩ := write_form hfits hroot
    obtain ⟨hdir, hdirLast⟩ := noDouble_dir form
    obtain ⟨hempty, -⟩ := repositoryPart_admits.mp hr.part
    have hx : x.head? ≠ some '/' := fun h => hslash (List.mem_of_head? h)
    have hend : NoDouble ('/' :: x) :=
      noDouble_cons (noDouble_of_not_mem hslash) (.inr hx)
    have hname : NoDouble (r.toList ++ form.dir ++ '/' :: x) := by
      rw [List.append_assoc]
      exact noDouble_append hr.slashes (noDouble_append hdir hend (.inl hdirLast)) (.inl hr.last)
    have hhead : (r.toList ++ form.dir ++ '/' :: x).head? ≠ some '/' := by
      rw [List.append_assoc, List.head?_append_of_ne_nil _ hempty]
      exact hr.first
    have hrest : NoDouble ('/' :: (r.toList ++ form.dir ++ '/' :: x)) :=
      noDouble_cons hname (.inr hhead)
    have hlast : ("/v2".toList ++ '/' :: (r.toList ++ form.dir ++ '/' :: x)).getLast? =
        x.getLast? := by
      rw [show "/v2".toList ++ '/' :: (r.toList ++ form.dir ++ '/' :: x) =
        "/v2/".toList ++ r.toList ++ form.dir ++ ['/'] ++ x by simp, List.getLast?_append,
        List.getLast?_eq_some_getLast hne, Option.some_or]
    rw [hwrite]
    refine normalizePath_eq_self (by simp) (noDouble_append (by decide) hrest (.inl (by decide))) ?_
    rw [hlast]
    exact fun h => hslash (List.mem_of_getLast? h)

/-- Below the scope, the path is what the pattern writes. -/
theorem belowScope_write {form : PathForm} {params : List String} (hfits : form.Fits params) :
    belowScope ("/v2".toList ++ form.pattern.write (params.map String.toList)) =
      some (form.pattern.write (params.map String.toList)) := by
  have hscope : "/v2".toList.isPrefixOf
      ("/v2".toList ++ form.pattern.write (params.map String.toList)) = true :=
    List.isPrefixOf_iff_prefix.mpr (List.prefix_append _ _)
  rw [belowScope, if_pos hscope, List.drop_left]
  by_cases hroot : form = .root
  · subst hroot
    rfl
  · obtain ⟨r, x, -, -, -, hwrite⟩ := write_form hfits hroot
    rw [hwrite]
    rfl

/-! ### Routes -/

/-- What is routed below the scope. -/
theorem route_path {form : PathForm} {params : List String} (hfits : form.Fits params)
    (method : Method) (n : ℕ) :
    route method (form.path params ++ String.ofList (List.replicate n '/')) =
      services.findSome? fun ρ =>
        if ρ.method = method then
          (ρ.form.pattern.read (form.pattern.write (params.map String.toList))).map
            fun parts => (ρ, parts.map String.ofList)
        else none := by
  have htext : (form.path params ++ String.ofList (List.replicate n '/')).toList =
      "/v2".toList ++ form.pattern.write (params.map String.toList) ++ List.replicate n '/' := by
    simp [PathForm.path]
  rw [route, htext, normalizePath_append, normal_path hfits, belowScope_write hfits]
  rfl

/-- SOUND: the method and the path are those of the resource and its parameters. -/
theorem route_sound {method : Method} {path : String} {ρ : Resource} {params : List String}
    (h : route method path = some (ρ, params)) : ρ.method = method ∧
      ρ.form.pattern.Admits (params.map String.toList) ∧
      (ρ.form.path params).toList = normalizePath path.toList := by
  obtain ⟨rest, hrest, h⟩ := Option.bind_eq_some_iff.mp h
  obtain ⟨σ, -, h⟩ := List.exists_of_findSome?_eq_some h
  obtain ⟨hmethod, h⟩ := Option.ite_none_right_eq_some.mp h
  obtain ⟨parts, hparts, heq⟩ := Option.map_eq_some_iff.mp h
  obtain ⟨rfl, rfl⟩ := Prod.mk.inj heq
  obtain ⟨hadmits, hwrite⟩ := PathPattern.write_of_read hparts
  have hparts' : (parts.map String.ofList).map String.toList = parts := by
    simp [Function.comp_def]
  refine ⟨hmethod, hparts'.symm ▸ hadmits, ?_⟩
  unfold belowScope at hrest
  split at hrest
  · rename_i hscope
    obtain ⟨below, hbelow⟩ := List.isPrefixOf_iff_prefix.mp hscope
    rw [← hbelow, List.drop_left] at hrest
    have hsame : below = rest := by
      split at hrest
      · exact Option.some.inj hrest
      · exact (Option.ite_none_right_eq_some.mp hrest).2 |> Option.some.inj
    simp [PathForm.path, Function.comp_def, hwrite, ← hbelow, hsame]
  · cases hrest

theorem mem_of_mem_takeWhile {α : Type*} {p : α → Bool} {l₁ l₂ : List α} {a b : α}
    (h : b ∈ (l₁ ++ a :: l₂).takeWhile p) (ha : p a = false) : b ∈ l₁ := by
  induction l₁ with
  | nil => simp [ha] at h
  | cons c l₁ ih =>
    rw [List.cons_append, List.takeWhile_cons] at h
    split at h
    · rcases List.mem_cons.mp h with rfl | h
      · exact List.mem_cons_self ..
      · exact List.mem_cons_of_mem _ (ih h)
    · cases h

/-- ROUTED: the path of a resource is routed to it, with its parameters, with or without slashes
    behind it, unless it is a path that can be read as one with a digest, which is only tried for
    other methods than PUT. -/
theorem routed_iff {ρ : Resource} {params : List String} (hfits : ρ.form.Fits params) (n : ℕ) :
    route ρ.method (ρ.form.path params ++ String.ofList (List.replicate n '/')) =
        some (ρ, params) ↔
      ρ.method = .put ∨ ¬ ρ.form.Shadowed params := by
  rw [route_path hfits, List.findSome?_eq_some_iff]
  constructor
  · rintro ⟨l₁, σ, l₂, hservices, hσ, hbefore⟩
    obtain ⟨-, hσ⟩ := Option.ite_none_right_eq_some.mp hσ
    obtain ⟨parts, -, heq⟩ := Option.map_eq_some_iff.mp hσ
    obtain rfl := (Prod.mk.inj heq).1
    by_contra hnot
    rw [not_or, not_not] at hnot
    obtain ⟨hput, hshadowed⟩ := hnot
    have hform : σ.form = .manifestByTag ∨ σ.form = .tags := by
      revert hshadowed
      cases σ.form <;> simp [PathForm.Shadowed]
    obtain ⟨τ, hτ, hdigest⟩ := byDigest_before σ hform hput
    rw [Resource.before, List.mem_filter, decide_eq_true_eq, hservices] at hτ
    have hnone := hbefore τ (mem_of_mem_takeWhile hτ.1 (by simp))
    rw [if_pos hτ.2, Option.map_eq_none_iff, hdigest] at hnone
    have hsome := (shadowed_iff hfits hform).mp hshadowed
    rw [hnone] at hsome
    cases hsome
  · intro h
    obtain ⟨rest, hrest⟩ := services_split ρ
    refine ⟨_, ρ, rest, hrest, ?_, ?_⟩
    · rw [if_pos rfl, read_self hfits]
      simp [Function.comp_def]
    · intro σ hσ
      split
      · rename_i hmethod
        have hbefore : σ ∈ ρ.before := by
          rw [Resource.before, List.mem_filter, decide_eq_true_eq]
          exact ⟨hσ, hmethod⟩
        rw [read_earlier hfits (form_of_before ρ σ hbefore), Option.map_none]
        rintro hdigest
        rcases h with hput | h
        · exact absurd hdigest (form_of_before_put ρ hput σ hbefore)
        · exact h
      · rfl

/-- The repository of a call is the first parameter. -/
theorem repository_of_call {ρ : Resource} {params : List String} {query : UploadQuery} {call : Call}
    (h : ρ.call query params = some call) :
    ∃ r rest, call.repository = some ⟨r⟩ ∧ params = r :: rest ∧ ρ.form ≠ .root := by
  unfold Resource.call at h
  split at h
  case h_2 r u =>
    obtain ⟨d, -, rfl⟩ := Option.map_eq_some_iff.mp h
    exact ⟨r, [u], rfl, rfl, by simp [Resource.form]⟩
  case h_13 => cases h
  all_goals
    cases h
    exact ⟨_, _, rfl, rfl, by simp [Resource.form]⟩

/-- It stands in the path. -/
theorem repository_in_path {form : PathForm} {r : String} {rest : List String}
    (hroot : form ≠ .root) : ("/v2/" ++ r ++ "/").toList <+: (form.path (r :: rest)).toList := by
  have hstart : ∀ m cs : List Char, "/".toList <+: m → "/v2/".toList ++ r.toList ++ "/".toList <+:
      "/v2".toList ++ ("/".toList ++ (r.toList ++ (m ++ cs))) := by
    rintro m cs ⟨m, rfl⟩
    exact ⟨m ++ cs, by simp⟩
  cases form with
  | root => exact absurd rfl hroot
  | _ =>
    simp only [PathForm.path, PathForm.pattern, inRepository, PathPattern.write, String.toList_append,
      String.toList_ofList, List.map_cons]
    exact hstart _ _ (by decide)

theorem text_of_target (loc : Location) : loc.text = loc.target.1.path loc.target.2 := by
  refine String.toList_injective ?_
  cases loc <;> simp [Location.text, Location.target, PathForm.path, PathForm.pattern, inRepository,
    PathPattern.write]

/-- The text of a digest of a content has no slashes. -/
theorem text_fits {d : Digest} (h : WellFormed d) : segmentPart.admits (Digest.text d).toList = true ∧
    digestPart.admits (Digest.text d).toList = true := by
  obtain ⟨algo, hash⟩ := d
  obtain ⟨rfl, -, hhex⟩ := h
  rw [segmentPart_admits, digestPart_admits]
  refine ⟨⟨by simp [Digest.text], ?_⟩, ⟨hash.toList, by simp [Digest.text]⟩⟩
  have hslash : '/' ∉ hash.toList := fun hmem => absurd (hhex _ hmem) (by decide)
  simp [Digest.text, hslash]

theorem fits_target {loc : Location} (h : loc.Fits) : loc.target.1.Fits loc.target.2 := by
  cases loc with
  | upload r uploadId => exact ⟨r.name, uploadId, rfl, h.1.1, h.2.1⟩
  | blob r d => exact ⟨r.name, Digest.text d, rfl, h.1.1, (text_fits h.2).1⟩
  | manifest r d => exact ⟨r.name, Digest.text d, rfl, h.1.1, text_fits h.2⟩

/-- Nor anything else that a URL would not carry. -/
theorem text_literal {d : Digest} (h : WellFormed d) : IsLiteral (Digest.text d).toList := by
  obtain ⟨algo, hash⟩ := d
  obtain ⟨rfl, -, hhex⟩ := h
  have htext : (Digest.text ⟨"sha256", hash⟩).toList = "sha256:".toList ++ hash.toList := by
    simp [Digest.text]
  have hdigits : ∀ c ∈ hexLower, isPathChar c := by
    simp [hexLower, isPathChar, isUnreserved, Char.isAlphanum]
  rw [htext]
  refine isLiteral_segment ?_ ?_ ?_
  · rw [List.forall_mem_append]
    exact ⟨by simp [isPathChar, isUnreserved, Char.isAlphanum], fun c hc => hdigits c (hhex c hc)⟩
  · simp
  · simp

/-- A location whose names are literal is asked for as it is written. -/
theorem requestedPath_eq_text {loc : Location} (h : loc.Fits) : loc.requestedPath = loc.text := by
  have hsegment : ∀ s ∈ ["v2", "blobs", "uploads", "manifests"], IsLiteral s.toList := by
    intro s hs
    simp only [List.mem_cons, List.not_mem_nil, or_false] at hs
    rcases hs with rfl | rfl | rfl | rfl <;>
      exact isLiteral_segment (by simp [isPathChar, isUnreserved, Char.isAlphanum]) (by simp)
        (by simp)
  have hroot : ∀ rest, IsLiteral rest → IsLiteral ([] ++ '/' :: ("v2".toList ++ '/' :: rest)) :=
    fun rest hrest => isLiteral_append.mpr ⟨isLiteral_segment (by simp) (by simp) (by simp),
      isLiteral_append.mpr ⟨hsegment "v2" (by simp), hrest⟩⟩
  have hliteral : IsLiteral loc.text.toList := by
    cases loc with
    | upload r uploadId =>
      have htext : (Location.upload r uploadId).text.toList = [] ++ '/' :: ("v2".toList ++ '/' ::
          (r.name.toList ++ '/' :: ("blobs".toList ++ '/' ::
            ("uploads".toList ++ '/' :: uploadId.toList)))) := by
        simp [Location.text]
      rw [htext]
      exact hroot _ (isLiteral_append.mpr ⟨h.1.2, isLiteral_append.mpr ⟨hsegment "blobs" (by simp),
        isLiteral_append.mpr ⟨hsegment "uploads" (by simp), h.2.2⟩⟩⟩)
    | blob r d =>
      have htext : (Location.blob r d).text.toList = [] ++ '/' :: ("v2".toList ++ '/' ::
          (r.name.toList ++ '/' :: ("blobs".toList ++ '/' :: (Digest.text d).toList))) := by
        simp [Location.text]
      rw [htext]
      exact hroot _ (isLiteral_append.mpr ⟨h.1.2, isLiteral_append.mpr ⟨hsegment "blobs" (by simp),
        text_literal h.2⟩⟩)
    | manifest r d =>
      have htext : (Location.manifest r d).text.toList = [] ++ '/' :: ("v2".toList ++ '/' ::
          (r.name.toList ++ '/' :: ("manifests".toList ++ '/' :: (Digest.text d).toList))) := by
        simp [Location.text]
      rw [htext]
      exact hroot _ (isLiteral_append.mpr ⟨h.1.2,
        isLiteral_append.mpr ⟨hsegment "manifests" (by simp), text_literal h.2⟩⟩)
  rw [Location.requestedPath, requested_eq_self hliteral, String.ofList_toList]

/-- A name with a `?` in it is not literal. -/
example : (Location.upload ⟨"a?b"⟩ "1").requestedPath = "/v2/a" := by decide +kernel

end Distribd.Registry
