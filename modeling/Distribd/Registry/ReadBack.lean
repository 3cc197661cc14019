import Distribd.Registry.Sessions
import Distribd.Registry.Provenance

/-! A manifest is pushed and read back on one node. The PUT has one route: whatever stands after
    `manifests/` is the name of the tag that it sets, also if it looks like a digest, and nothing
    compares it with the digest of the body. The GET has two routes: what begins with `sha256:` is
    taken for a digest, and anything else for a tag. So a manifest that was pushed to something that
    looks like a digest can be read back there only if it is its own digest (`read_back_iff`). -/

namespace Distribd.Registry
open Schemes Store Cluster
open Node (Bytes)

/-! ### Manifests on a node -/

/-- What the manifest PUT finds of its temporary file; `text` reads it as a string. -/
def manifestFile (body : Body) (text : Bytes → Option String) (io : Io) : UploadFile where
  written := decide (body.result = .complete)
  content := if io.readable then some body.appended else none
  text := text body.appended
  size := if io.stat then some body.appended.length else none
  renamed := io.renamed

/-- `registry::manifests::put` on the state of its node: 201 with the digest of the body, an error, or
    a panic (`none`); the temporary file has a name of its own. -/
def Local.putManifest (s : Local) (sha : Sha256) (now : Clock) (env : ExtractEnv) (token : Token)
    (repository : RepositoryName) (tag : String) (contentType : Option String) (body : Body)
    (text : Bytes → Option String) (io : Io) : Option (Except RegistryError Digest) × Local :=
  if token.hasPermission repository "push" ∧ body.result = .panicked then (none, s)
  else match Manifests.put s.app sha env token repository tag contentType
      (manifestFile body text io) with
    | none => (none, s)
    | some reply =>
      match reply.result with
      | .error e => (some (.error e), s)
      | .ok .session => (some (.error .manifestInvalid), s)
      | .ok (.submits req) =>
        let digest := sha.digest body.appended
        let s := s.setObject .manifest digest body.appended
        match s.consistentWrite now req io.logged with
        | some s => (some (.ok digest), s)
        | none => (some (.error .manifestInvalid), s)

/-- The route of the GET by digest, `{digest:sha256:.*}`. -/
def looksLikeDigest (reference : String) : Bool := "sha256:".toList.isPrefixOf reference.toList

/-- An answer of 200 has the content type and the digest as headers, and the file as body; `none`: the
    file is gone when it is opened. -/
def Local.withBody (s : Local) (reply : Reply Served) :
    Option (Except RegistryError (Served × Bytes)) :=
  match reply.result with
  | .error e => some (.error e)
  | .ok served => (s.objects .manifest served.dockerContentDigest).map fun body =>
      .ok (served, body)

/-- The GET of a manifest as it is routed. -/
def Local.getManifest (s : Local) (token : Token) (repository : RepositoryName)
    (reference : String) : Option (Except RegistryError (Served × Bytes)) :=
  if looksLikeDigest reference then
    (Digest.tryFrom reference).bind fun digest =>
      s.withBody (Manifests.get s.app token repository digest)
  else s.withBody (Manifests.getByTag s.app token repository reference)

/-- The GET of a manifest with this digest goes on to `wait_for_manifest`, and is answered when the
    mirror has fetched it. -/
def Local.Waits (s : Local) (digest : Digest) : Prop :=
  ∃ o ∈ s.db.manifests[digest]?, s.id ∉ o.locations

/-! ### What a PUT leaves -/

section

variable {s s' : Local} {sha : Sha256} {now : Clock} {env : ExtractEnv} {token : Token}
  {repository : RepositoryName} {tag : String} {contentType : Option String} {body : Body}
  {text : Bytes → Option String} {io : Io} {digest : Digest}

/-- An extraction has the content type that it was asked for. -/
theorem extract_contentType {ct : String} {data : Option String} {x : Extracted}
    {paths : List Digest} (h : extract env repository ct data = some (.ok (x, paths))) :
    x.contentType = ct := by
  unfold extract at h
  cases data with
  | none => cases h
  | some data =>
    simp only at h
    split at h
    · cases h
    · split at h
      · cases h
      · obtain ⟨res, -, hres⟩ := Option.map_eq_some_iff.mp h
        cases res with
        | ok w =>
          cases hres
          rfl
        | error e => cases hres

/-- A manifest PUT that goes through hands in the digest and the size of its body, with the content
    type that it came with. -/
theorem putManifest_submits {app : App} {file : UploadFile} {reply : Reply Accepted} {req : Request}
    (h : Manifests.put app sha env token repository tag contentType file = some reply)
    (hreq : reply.result = .ok (.submits req)) :
    ∃ ct size content x user, contentType = some ct ∧ file.size = some size ∧
      file.content = some content ∧ x.contentType = ct ∧ file.written = true ∧
      req = .put app.id repository tag (sha.digest content) size x user := by
  unfold Manifests.put at h
  split at h
  · cases h
    cases hreq
  · split at h
    · unfold putManifest at h
      split at h
      · rename_i size digest hwritten hsize hhash
        obtain ⟨content, hcontent, rfl⟩ := Option.map_eq_some_iff.mp hhash
        obtain ⟨ct, hct, h⟩ := Option.bind_eq_some_iff.mp h
        obtain ⟨res, hres, rfl⟩ := Option.map_eq_some_iff.mp h
        cases res with
        | ok found =>
          obtain ⟨x, paths⟩ := found
          simp only at hreq
          split at hreq
          · cases hreq
            exact ⟨ct, size, content, x, _, hct, hsize, hcontent, extract_contentType hres,
              hwritten, rfl⟩
          · cases hreq
        | error e => cases hreq
      · cases h
        cases hreq
    · cases h
      cases hreq

/-- After a 201 the manifest is there with all that a GET needs, on this node, and the tag points at
    it. -/
theorem putManifest_created
    (h : s.putManifest sha now env token repository tag contentType body text io =
      (some (.ok digest), s')) :
    digest = sha.digest body.appended ∧ s'.objects .manifest digest = some body.appended ∧
      s'.db.tags[(⟨repository, tag⟩ : TagKey)]? = some digest ∧
      ∃ ct o, contentType = some ct ∧ s'.db.manifests[digest]? = some o ∧
        o.contentType = some ct ∧ o.size.isSome ∧ repository ∈ o.repositories ∧
        s'.id ∈ o.locations := by
  unfold Local.putManifest at h
  split at h
  · cases h
  · split at h
    · cases h
    · rename_i reply hreply
      split at h
      · cases h
      · cases h
      · rename_i req hreq
        simp only at h
        split at h
        · rename_i t hwrite
          cases h
          obtain ⟨ct, size, content, x, user, hct, hsize, hcontent, hx, -, rfl⟩ :=
            putManifest_submits hreply hreq
          obtain rfl : body.appended = content := by
            simp only [manifestFile] at hcontent
            split at hcontent
            · exact Option.some.inj hcontent
            · cases hcontent
          unfold Local.consistentWrite at hwrite
          split at hwrite
          · obtain ⟨actions, hactions, hwrite⟩ := Option.bind_eq_some_iff.mp hwrite
            obtain ⟨trees, htrees, rfl⟩ := Option.map_eq_some_iff.mp hwrite
            obtain rfl := Option.some.inj hactions
            obtain ⟨-, o, ho, -, hoct, hosize, hrepo, hloc⟩ := put_manifests htrees
            refine ⟨rfl, ?_, ?_, ct, o, hct, ho, ?_, ?_, hrepo, hloc⟩
            · simp
            · rw [put_tags htrees]
              exact Std.ExtTreeMap.getElem?_insert_self
            · rw [hoct, hx]
            · simp [hosize]
          · cases hwrite
        · cases h

/-- What the handlers by digest and by tag serve then. -/
theorem pull_manifest {ct : String} {o : Object} {content : Bytes}
    (hfile : s.objects .manifest digest = some content)
    (ho : s.db.manifests[digest]? = some o) (hct : o.contentType = some ct)
    (hsize : o.size.isSome) (hrepo : repository ∈ o.repositories) :
    (pull s.app .manifest repository digest).result = .ok ⟨ct, digest⟩ := by
  obtain ⟨n, hn⟩ := Option.isSome_iff_exists.mp hsize
  unfold pull
  rw [show (s.app.trees.tree .manifest)[digest]? = some o from ho]
  simp only [hrepo, if_true, serve, contentTypeOf, hct, hn]
  rw [if_pos (show s.app.isFile .manifest digest = true by simp [Local.app, hfile])]

theorem withBody_eq {reply : Reply Served} {served : Served} {content : Bytes} :
    s.withBody reply = some (.ok (served, content)) ↔
      reply.result = .ok served ∧ s.objects .manifest served.dockerContentDigest = some content := by
  unfold Local.withBody
  cases reply.result with
  | error e => simp
  | ok served' =>
    simp only [Option.map_eq_some_iff, Except.ok.injEq, Prod.mk.injEq]
    constructor
    · rintro ⟨content', hcontent, rfl, rfl⟩
      exact ⟨rfl, hcontent⟩
    · rintro ⟨rfl, hcontent⟩
      exact ⟨content, hcontent, rfl, rfl⟩

/-- What is served by digest has that digest. -/
theorem get_digest {app : App} {served : Served}
    (h : (Manifests.get app token repository digest).result = .ok served) :
    served.dockerContentDigest = digest := by
  unfold Manifests.get authorized at h
  split at h
  · cases h
  · split at h
    · unfold pull at h
      split at h
      · cases h
      · split at h
        · unfold serve at h
          split at h
          · simp only at h
            split at h
            · cases h
              rfl
            · cases h
          · cases h
        · cases h
    · cases h

/-- READ BACK: after a PUT that is answered 201, a GET of the same reference in the same repository
    answers 200 with the body, the content type and the digest of the body exactly if the reference
    does not look like a digest, or is the digest of the body. It does not wait for the mirror. -/
theorem read_back_iff {reader : Token}
    (h : s.putManifest sha now env token repository tag contentType body text io =
      (some (.ok digest), s')) (hpull : reader.hasPermission repository "pull") :
    ¬ s'.Waits digest ∧
    ((∃ ct, contentType = some ct ∧ s'.getManifest reader repository tag =
      some (.ok (⟨ct, sha.digest body.appended⟩, body.appended))) ↔
    (looksLikeDigest tag = false ∨ Digest.tryFrom tag = some (sha.digest body.appended))) := by
  obtain ⟨rfl, hfile, htag, ct, o, hct, ho, hoct, hosize, hrepo, hloc⟩ := putManifest_created h
  have hpulled := pull_manifest hfile ho hoct hosize hrepo
  have hvalid := validated_of_hasPermission hpull
  have hauthorized : ∀ answer, authorized s'.app reader repository answer = answer := by
    intro answer
    rw [authorized, dif_neg (by simp [hvalid]), if_pos hpull]
  have hhere : ¬ s'.Waits (sha.digest body.appended) := by
    rintro ⟨o', ho', hno⟩
    obtain rfl := Option.some.inj (ho.symm.trans ho')
    exact hno hloc
  refine ⟨hhere, ?_⟩
  cases hroute : looksLikeDigest tag with
  | false =>
    refine iff_of_true ⟨ct, hct, ?_⟩ (.inl rfl)
    rw [Local.getManifest, if_neg (by simp [hroute]), withBody_eq]
    refine ⟨?_, hfile⟩
    rw [Manifests.getByTag, hauthorized, getTag,
      show s'.app.trees.tags[(⟨repository, tag⟩ : TagKey)]? = _ from htag]
    exact hpulled
  | true =>
    simp only [Local.getManifest, hroute, if_true, reduceCtorEq, false_or]
    constructor
    · rintro ⟨ct', -, hget⟩
      obtain ⟨d, hd, hserved⟩ := Option.bind_eq_some_iff.mp hget
      obtain ⟨hresult, -⟩ := withBody_eq.mp hserved
      rw [hd, ← get_digest hresult]
    · intro hd
      refine ⟨ct, hct, ?_⟩
      rw [hd, Option.bind_some, withBody_eq]
      refine ⟨?_, hfile⟩
      rw [Manifests.get, hauthorized]
      exact hpulled

end

/-! ### An empty manifest list -/

/-- The list. -/
def listText : String :=
  "\x7b\"manifests\":[],\"mediaType\":" ++
  "\"application/vnd.docker.distribution.manifest.list.v2+json\",\"schemaVersion\":2\x7d"

def listJson : Json :=
  .object [("manifests", .array []),
    ("mediaType", .string "application/vnd.docker.distribution.manifest.list.v2+json"),
    ("schemaVersion", .unsigned 2)]

/-- Its digest. -/
def listDigest : Digest :=
  ⟨"sha256", "a3f9bc842ffddfb3d3deed4fac54a2e8b4ac0e900d2a88125cd46e2947485ed1"⟩

set_option maxRecDepth 2000 in
theorem isHash_listDigest : IsHash listDigest.hash := by
  have h : listDigest.hash = String.ofList
      ['a', '3', 'f', '9', 'b', 'c', '8', '4', '2', 'f', 'f', 'd', 'd', 'f', 'b', '3', 'd', '3',
       'd', 'e', 'e', 'd', '4', 'f', 'a', 'c', '5', '4', 'a', '2', 'e', '8', 'b', '4', 'a', 'c',
       '0', 'e', '9', '0', '0', 'd', '2', 'a', '8', '8', '1', '2', '5', 'c', 'd', '4', '6', 'e',
       '2', '9', '4', '7', '4', '8', '5', 'e', 'd', '1'] := rfl
  rw [h]
  refine isHash_ofList ⟨rfl, ?_⟩
  simp [hexLower]

/-- A hash function that is SHA-256 on the list. -/
def listSha : Sha256 where
  hex bytes := if bytes = listText.toUTF8.toList then listDigest.hash else helloDigest.hash
  isHash bytes := by
    split
    · exact isHash_listDigest
    · exact isHash_helloDigest

/-- The tools on the list, which is valid under its schema. -/
def listEnv : ExtractEnv :=
  { imageEnv [] with tools := ⟨fun s => if s = listText then some listJson else none,
      fun _ _ => true⟩ }

/-- The list is pushed to a new node. -/
def pushList (reference : String) : Option (Except RegistryError Digest) × Local :=
  (Local.new 1).putManifest listSha (ticking 10) listEnv .anonymous ⟨"library/a"⟩ reference
    (some "application/vnd.docker.distribution.manifest.list.v2+json")
    (Body.of [listText.toUTF8.toList])
    (fun bytes => if bytes = listText.toUTF8.toList then some listText else none) .ok

theorem pushList_created {reference : String}
    (h : (pushList reference).1.bind Except.toOption = some listDigest) :
    pushList reference = (some (.ok listDigest), (pushList reference).2) := by
  obtain ⟨reply, hreply, hok⟩ := Option.bind_eq_some_iff.mp h
  obtain rfl := eq_ok_of_toOption hok
  exact Prod.ext hreply rfl

theorem read_back_latest :
    ∃ ct, (pushList "latest").2.getManifest .anonymous ⟨"library/a"⟩ "latest" =
      some (.ok (⟨ct, listSha.digest (Body.of [listText.toUTF8.toList]).appended⟩,
        (Body.of [listText.toUTF8.toList]).appended)) := by
  have hcreated : (pushList "latest").1.bind Except.toOption = some listDigest := by
    decide +kernel
  have hpull : Token.anonymous.hasPermission ⟨"library/a"⟩ "pull" = true := by decide
  obtain ⟨-, hread⟩ := read_back_iff (pushList_created hcreated) hpull
  obtain ⟨ct, -, hget⟩ := hread.mpr (.inl (by decide))
  exact ⟨ct, hget⟩

/-- A push to the digest of something else is answered 201, and 404 by the GET after it. -/
theorem push_under_other_digest :
    (pushList ("sha256:" ++ helloDigest.hash)).1.bind Except.toOption = some listDigest ∧
      (((pushList ("sha256:" ++ helloDigest.hash)).2.getManifest .anonymous ⟨"library/a"⟩
        ("sha256:" ++ helloDigest.hash)).bind Except.toOption).isSome = false := by
  decide +kernel

end Distribd.Registry
