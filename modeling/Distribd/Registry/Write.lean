import Distribd.Registry.Read
import Distribd.Registry.Extractor
import Distribd.Node.Content

/-! The handlers that change the registry: POST and PUT of a blob upload, PUT of a manifest and the
    three DELETEs. Each asks for a validated token with `push` on the repository of its path, and a
    mount for `pull` on the source as well. What a handler does with files is given by what it finds
    (`UploadFile`): the content that it hashes is any content, since others may write to a session.
    A handler that goes through hands a `Request` to `consistent_write`, with the transaction that
    the cluster model computes for it.

    A PATCH, the GET and the DELETE of a session and the list of tags send nothing and ask for no
    path of an object; they are modules of their own. -/

namespace Distribd.Registry
open Schemes Store Cluster Node

/-! ### What the handlers find -/

/-- SHA-256 in lower-case hexadecimal digits. -/
structure Sha256 where
  hex : Bytes → String
  isHash : ∀ bytes, IsHash (hex bytes)

/-- The digest of a content. -/
def Sha256.digest (sha : Sha256) (bytes : Bytes) : Digest := fromSha256 (sha.hex bytes)

theorem Sha256.wellFormed (sha : Sha256) (bytes : Bytes) : WellFormed (sha.digest bytes) :=
  ⟨rfl, sha.isHash bytes⟩

/-- The file of an upload, step by step: whether the body is written, what the file holds when it is
    hashed (`none`: it cannot be read) and when it is read as text, its size, and whether it can be
    renamed. -/
structure UploadFile where
  written : Bool
  content : Option Bytes
  text : Option String
  size : Option ℕ
  renamed : Bool

/-- `get_hash`. -/
def getHash (sha : Sha256) (file : UploadFile) : Option Digest := file.content.map sha.digest

/-- `validate_hash`. -/
def validateHash (sha : Sha256) (file : UploadFile) (expectedHash : Digest) : Bool :=
  match getHash sha file with
  | some actualDigest => decide (actualDigest = expectedHash)
  | none => false

/-- How a handler that goes through ends. -/
inductive Accepted where
  /-- A transaction is handed to `consistent_write`; the answer says how that goes. -/
  | submits (request : Request)
  /-- An upload session is open. -/
  | session

/-- The checks of the token that come first in every handler but the POST. -/
def pushAuthorized (app : App) (token : Token) (repository : RepositoryName)
    (answer : Reply Accepted) : Reply Accepted :=
  if h : token.validatedToken = false then
    refuse (.mustAuthenticate (token.getPushChallenge h app.order repository))
  else if token.hasPermission repository "push" then answer
  else refuse .accessDenied

/-! ### Uploads -/

/-- `BlobUploadPostQuery`. -/
structure BlobUploadPostQuery where
  mount : Option Digest
  source : Option RepositoryName
  digest : Option Digest

/-- The end of an upload, the same in POST and PUT. -/
def finishUpload (app : App) (sha : Sha256) (repository : RepositoryName) (digest : Digest)
    (user : String) (file : UploadFile) : Reply Accepted :=
  if file.written = false then refuse .uploadInvalid
  else if validateHash sha file digest = false then refuse .digestInvalid
  else
    ⟨match file.size with
      | none => .error .uploadInvalid
      | some size =>
        if file.renamed then .ok (.submits (.upload app.id repository digest size user))
        else .error .uploadInvalid,
      [(.blob, digest)]⟩

/-- POST once there is nothing to mount: the whole blob, or a session. -/
def startUpload (app : App) (sha : Sha256) (repository : RepositoryName) (digest : Option Digest)
    (user : String) (file : UploadFile) (opened : Bool) : Reply Accepted :=
  match digest with
  | some digest => finishUpload app sha repository digest user file
  | none => if opened then ⟨.ok .session, []⟩ else refuse .uploadInvalid

/-- `registry::blobs::uploads::post`; `opened` says whether a session file can be created. -/
def Uploads.post (app : App) (sha : Sha256) (token : Token) (repository : RepositoryName)
    (query : BlobUploadPostQuery) (file : UploadFile) (opened : Bool) : Reply Accepted :=
  if h : token.validatedToken = false then
    let access := ⟨repository, {"pull", "push"}⟩ :: query.source.toList.map (⟨·, {"pull"}⟩)
    refuse (.mustAuthenticate (token.getChallenge h app.order access))
  else if token.hasPermission repository "push" = false then refuse .accessDenied
  else match query.mount, query.source with
    | some mount, some source =>
      if source = repository then refuse .uploadInvalid
      else if token.hasPermission source "pull" = false then refuse .uploadInvalid
      else match app.trees.blobs[mount]? with
        | some blob =>
          if source ∈ blob.repositories then
            ⟨.ok (.submits (.mount repository source mount token.sub)), []⟩
          else startUpload app sha repository query.digest token.sub file opened
        | none => startUpload app sha repository query.digest token.sub file opened
    | _, _ => startUpload app sha repository query.digest token.sub file opened

/-- `registry::blobs::uploads::put`; `isFile` says whether the session file is there. -/
def Uploads.put (app : App) (sha : Sha256) (token : Token) (repository : RepositoryName)
    (digest : Digest) (file : UploadFile) (isFile : Bool) : Reply Accepted :=
  pushAuthorized app token repository <|
    if digest.algo ≠ "sha256" then refuse .uploadInvalid
    else if isFile = false then refuse .uploadInvalid
    else finishUpload app sha repository digest token.sub file

/-! ### Manifests -/

/-- `registry::manifests::put` after the checks; `none`: it panics, without a content type. -/
def putManifest (app : App) (sha : Sha256) (env : ExtractEnv) (repository : RepositoryName)
    (tag : String) (contentType : Option String) (user : String) (file : UploadFile) :
    Option (Reply Accepted) :=
  match file.written, file.size, getHash sha file with
  | true, some size, some digest =>
    contentType.bind fun contentType =>
      (extract { env with trees := app.trees } repository contentType file.text).map fun
        | .ok (extracted, paths) =>
          ⟨if file.renamed then
              .ok (.submits (.put app.id repository tag digest size extracted user))
            else .error .manifestInvalid,
            paths.map (.blob, ·) ++ [(.manifest, digest)]⟩
        | .error e => ⟨.error .manifestInvalid, e.paths.map (.blob, ·)⟩
  | _, _, _ => some (refuse .manifestInvalid)

/-- `registry::manifests::put`. -/
def Manifests.put (app : App) (sha : Sha256) (env : ExtractEnv) (token : Token)
    (repository : RepositoryName) (tag : String) (contentType : Option String)
    (file : UploadFile) : Option (Reply Accepted) :=
  if h : token.validatedToken = false then
    some (refuse (.mustAuthenticate (token.getPushChallenge h app.order repository)))
  else if token.hasPermission repository "push" then
    putManifest app sha env repository tag contentType token.sub file
  else some (refuse .accessDenied)

/-! ### Removals -/

/-- The record is there and has the repository. -/
def isMounted (app : App) (k : Kind) (repository : RepositoryName) (digest : Digest) : Bool :=
  match (app.trees.tree k)[digest]? with
  | some o => decide (repository ∈ o.repositories)
  | none => false

/-- The DELETE of an object by its digest. -/
def deleteObject (app : App) (token : Token) (k : Kind) (repository : RepositoryName)
    (digest : Digest) : Reply Accepted :=
  pushAuthorized app token repository <|
    if isMounted app k repository digest then
      ⟨.ok (.submits (.delete k repository digest token.sub)), []⟩
    else refuse (notFound k)

/-- `registry::blobs::delete`. -/
def Blobs.delete (app : App) (token : Token) (repository : RepositoryName) (digest : Digest) :
    Reply Accepted := deleteObject app token .blob repository digest

/-- `registry::manifests::delete`. -/
def Manifests.delete (app : App) (token : Token) (repository : RepositoryName) (digest : Digest) :
    Reply Accepted := deleteObject app token .manifest repository digest

/-- `registry::manifests::delete_by_tag`. -/
def Manifests.deleteByTag (app : App) (token : Token) (repository : RepositoryName)
    (tag : String) : Reply Accepted :=
  pushAuthorized app token repository <|
    match getTag app.trees repository tag with
    | none => refuse .manifestNotFound
    | some digest =>
      if isMounted app .manifest repository digest then
        ⟨.ok (.submits (.deleteTag repository tag token.sub)), []⟩
      else refuse .manifestNotFound

/-! ### What a request needs -/

/-- The conditions of a request: `push` on its repository, an upload or a push of a content with the
    digest, and for a mount `pull` on a source that has the blob. -/
def Permitted (app : App) (sha : Sha256) (token : Token) (file : UploadFile) : Request → Prop
  | .upload _ r d _ _ | .put _ r _ d _ _ _ =>
    token.hasPermission r "push" ∧ ∃ bytes ∈ file.content, sha.digest bytes = d
  | .mount r source d _ =>
    token.hasPermission r "push" ∧ token.hasPermission source "pull" ∧
      ∃ blob ∈ app.trees.blobs[d]?, source ∈ blob.repositories
  | .delete _ r _ _ | .deleteTag r _ _ => token.hasPermission r "push"
  | .mirror .. | .phase1 .. | .phase2 .. => False

section

variable {app : App} {sha : Sha256} {token : Token} {repository : RepositoryName}
  {file : UploadFile} {req : Request}

theorem exists_of_validateHash {d : Digest} (h : validateHash sha file d = true) :
    ∃ bytes ∈ file.content, sha.digest bytes = d := by
  unfold validateHash getHash at h
  split at h
  · rename_i actual hactual
    obtain ⟨bytes, hbytes, rfl⟩ := Option.map_eq_some_iff.mp hactual
    exact ⟨bytes, hbytes, of_decide_eq_true h⟩
  · cases h

theorem finishUpload_submits {d : Digest} {u : String}
    (h : (finishUpload app sha repository d u file).result = .ok (.submits req)) :
    (∃ n, req = .upload app.id repository d n u) ∧ ∃ bytes ∈ file.content, sha.digest bytes = d := by
  unfold finishUpload at h
  split at h
  · cases h
  · split at h
    · cases h
    · rename_i hvalid
      simp only at h
      split at h
      · cases h
      · rename_i size _
        split at h
        · cases h
          exact ⟨⟨size, rfl⟩, exists_of_validateHash (Bool.eq_true_of_not_eq_false hvalid)⟩
        · cases h

theorem startUpload_submits {d : Option Digest} {u : String} {opened : Bool}
    (h : (startUpload app sha repository d u file opened).result = .ok (.submits req)) :
    ∃ d n, req = .upload app.id repository d n u ∧ ∃ bytes ∈ file.content, sha.digest bytes = d := by
  unfold startUpload at h
  split at h
  · obtain ⟨⟨n, rfl⟩, hbytes⟩ := finishUpload_submits h
    exact ⟨_, n, rfl, hbytes⟩
  · split at h <;> cases h

theorem pushAuthorized_submits {answer : Reply Accepted}
    (h : (pushAuthorized app token repository answer).result = .ok (.submits req)) :
    token.hasPermission repository "push" ∧ answer.result = .ok (.submits req) := by
  unfold pushAuthorized at h
  split at h
  · cases h
  · split at h
    · rename_i hpush
      exact ⟨hpush, h⟩
    · cases h

theorem post_permitted {query : BlobUploadPostQuery} {opened : Bool}
    (h : (Uploads.post app sha token repository query file opened).result = .ok (.submits req)) :
    Permitted app sha token file req := by
  unfold Uploads.post at h
  split at h
  · cases h
  · split at h
    · cases h
    · rename_i hpush
      have hpush := Bool.eq_true_of_not_eq_false hpush
      have hupload : ∀ {d : Option Digest},
          (startUpload app sha repository d token.sub file opened).result = .ok (.submits req) →
            Permitted app sha token file req := by
        intro d hd
        obtain ⟨d, n, rfl, hbytes⟩ := startUpload_submits hd
        exact ⟨hpush, hbytes⟩
      split at h
      · split at h
        · cases h
        · split at h
          · cases h
          · rename_i hpull
            split at h
            · rename_i blob hblob
              split at h
              · rename_i hmem
                cases h
                exact ⟨hpush, Bool.eq_true_of_not_eq_false hpull, blob, hblob, hmem⟩
              · exact hupload h
            · exact hupload h
      · exact hupload h

theorem put_permitted {d : Digest} {isFile : Bool}
    (h : (Uploads.put app sha token repository d file isFile).result = .ok (.submits req)) :
    Permitted app sha token file req := by
  obtain ⟨hpush, h⟩ := pushAuthorized_submits h
  split at h
  · cases h
  · split at h
    · cases h
    · obtain ⟨⟨n, rfl⟩, hbytes⟩ := finishUpload_submits h
      exact ⟨hpush, hbytes⟩

theorem putManifest_permitted {env : ExtractEnv} {tag : String} {contentType : Option String}
    {reply : Reply Accepted}
    (h : Manifests.put app sha env token repository tag contentType file = some reply)
    (hreq : reply.result = .ok (.submits req)) : Permitted app sha token file req := by
  unfold Manifests.put at h
  split at h
  · cases h
    cases hreq
  · split at h
    · rename_i hpush
      unfold putManifest at h
      split at h
      · rename_i digest _ _ hhash
        obtain ⟨ct, -, h⟩ := Option.bind_eq_some_iff.mp h
        obtain ⟨res, -, rfl⟩ := Option.map_eq_some_iff.mp h
        cases res with
        | ok found =>
          obtain ⟨x, paths⟩ := found
          simp only at hreq
          split at hreq
          · cases hreq
            obtain ⟨bytes, hbytes, hdigest⟩ := Option.map_eq_some_iff.mp hhash
            exact ⟨hpush, bytes, hbytes, hdigest⟩
          · cases hreq
        | error e => cases hreq
      · cases h
        cases hreq
    · cases h
      cases hreq

theorem deleteObject_permitted {k : Kind} {d : Digest}
    (h : (deleteObject app token k repository d).result = .ok (.submits req)) :
    Permitted app sha token file req := by
  obtain ⟨hpush, h⟩ := pushAuthorized_submits h
  split at h
  · cases h
    exact hpush
  · cases h

theorem deleteByTag_permitted {tag : String}
    (h : (Manifests.deleteByTag app token repository tag).result = .ok (.submits req)) :
    Permitted app sha token file req := by
  obtain ⟨hpush, h⟩ := pushAuthorized_submits h
  split at h
  · cases h
  · split at h
    · cases h
      exact hpush
    · cases h

end

/-! ### A hash function for worked inputs -/

/-- A hash function that is SHA-256 on `hello, world`. -/
def helloSha : Sha256 where
  hex bytes := if bytes = "hello, world".toUTF8.toList then helloDigest.hash
    else String.ofList (List.replicate 64 '0')
  isHash bytes := by
    split
    · exact isHash_helloDigest
    · refine isHash_ofList ⟨by simp, ?_⟩
      intro c hc
      rw [List.eq_of_mem_replicate hc]
      simp [hexLower]

end Distribd.Registry
