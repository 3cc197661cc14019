import Distribd.Store.Tags
import Distribd.Schemes.Worklist

/-! The handlers that hand out objects. On the registry port these are GET and HEAD of a blob, of a
    manifest by digest and of a manifest by tag (`registry/`); each asks for a validated token with
    `pull` on the repository and for a record that is mounted there. On the raft port a peer asks for
    a blob or a manifest by its digest alone (`network/raft.rs`) and gets it if the node is one of
    its locations. All of them need the record to say how large the object is, and a manifest also
    what it is; what is missing is answered as "not found", like an object that does not exist.

    A handler that finds no copy on its own node waits for one and goes on with the record that it
    has read. `paths` lists the calls of `get_blob_path` and `get_manifest_path` that it makes;
    `result` is what it answers when these return. -/

namespace Distribd.Registry
open Schemes Store

/-! ### Tokens -/

/-- `extractors::token::Access`. -/
structure Access where
  repository : RepositoryName
  permissions : Finset String
  deriving DecidableEq

/-- `extractors::Token`. Of the three places that build one, the one whose token is not validated
    knows the token server. -/
structure Token where
  access : List Access
  sub : String
  validatedToken : Bool
  admin : Bool
  realm : Option String
  service : Option String
  configured : validatedToken = false → realm.isSome ∧ service.isSome

/-- A validated token does without the token server. -/
theorem validated_configured :
    true = false → (none : Option String).isSome = true ∧ (none : Option String).isSome = true := by
  intro h
  cases h

/-- The token of every request when there is no token server. -/
def Token.anonymous : Token where
  access := []
  sub := "anonymous"
  validatedToken := true
  admin := true
  realm := none
  service := none
  configured := validated_configured

/-- `Token::has_permission`. -/
def Token.hasPermission (token : Token) (repository : RepositoryName) (permission : String) :
    Bool :=
  if token.validatedToken = false then false
  else if token.admin then true
  else token.access.any fun access =>
    decide (access.repository = repository) && decide (permission ∈ access.permissions)

/-- `Token::get_challenge`; `order` is the order of a hash set of permissions. -/
def Token.getChallenge (token : Token) (h : token.validatedToken = false) (order : Iteration String)
    (access : List Access) : String :=
  let service := token.service.get (token.configured h).2
  let realm := token.realm.get (token.configured h).1
  let scopes := access.map fun req =>
    "repository:" ++ req.repository.name ++ ":" ++ ",".intercalate (order.list req.permissions)
  "Bearer realm=\"" ++ realm ++ "\",service=\"" ++ service ++ "\",scope=\"" ++
    " ".intercalate scopes ++ "\""

/-- `Token::get_pull_challenge`. -/
def Token.getPullChallenge (token : Token) (h : token.validatedToken = false)
    (order : Iteration String) (repository : RepositoryName) : String :=
  token.getChallenge h order [⟨repository, {"pull"}⟩]

/-- `Token::get_push_challenge`. -/
def Token.getPushChallenge (token : Token) (h : token.validatedToken = false)
    (order : Iteration String) (repository : RepositoryName) : String :=
  token.getChallenge h order [⟨repository, {"pull", "push"}⟩]

/-- Only a validated token has permissions. -/
theorem validated_of_hasPermission {token : Token} {r : RepositoryName} {p : String}
    (h : token.hasPermission r p = true) : token.validatedToken = true := by
  unfold Token.hasPermission at h
  split at h
  · cases h
  · case isFalse hv => exact Bool.eq_true_of_not_eq_false hv

/-! ### Answers -/

/-- `registry::errors::RegistryError`. -/
inductive RegistryError where
  | mustAuthenticate (challenge : String)
  | accessDenied
  | repositoryNotFound
  | manifestNotFound
  | manifestInvalid
  | digestInvalid
  | blobNotFound
  | uploadNotFound
  | uploadInvalid
  | rangeNotSatisfiable (repository : RepositoryName) (uploadId : String) (size : ℕ)
  deriving DecidableEq

/-- The status code of an error response. -/
def RegistryError.statusCode : RegistryError → ℕ
  | .mustAuthenticate _ => 401
  | .accessDenied => 403
  | .repositoryNotFound | .manifestNotFound | .blobNotFound | .uploadNotFound => 404
  | .manifestInvalid | .digestInvalid | .uploadInvalid => 400
  | .rangeNotSatisfiable .. => 416

/-- A `200 OK` with the file of the object. -/
structure Served where
  contentType : String
  dockerContentDigest : Digest
  deriving DecidableEq

/-- What a handler answers, and the paths of objects that it asks for on the way. -/
structure Reply (α : Type) where
  result : Except RegistryError α
  paths : List (Kind × Digest)

/-- An error before any path is asked for. -/
def refuse {α : Type} (e : RegistryError) : Reply α := ⟨.error e, []⟩

/-- The status code of the answer. -/
def Reply.status (reply : Reply Served) : ℕ :=
  match reply.result with
  | .ok _ => 200
  | .error e => e.statusCode

/-- What a handler of a node sees: its id, the trees when it looks an object up, which files are
    there when it looks for one, and the order of a hash set of permissions. -/
structure App where
  id : RegistryNodeId
  trees : Trees
  isFile : Kind → Digest → Bool
  order : Iteration String

/-- `BlobNotFound` or `ManifestNotFound`. -/
def notFound : Kind → RegistryError
  | .blob => .blobNotFound
  | .manifest => .manifestNotFound

/-- The content type of the response: a blob without one is a stream of bytes. -/
def contentTypeOf : Kind → Object → Option String
  | .blob, o => some (o.contentType.getD "application/octet-steam")
  | .manifest, o => o.contentType

/-- The end of every handler: the content type and the size of the record, then the file. -/
def serve (app : App) (k : Kind) (digest : Digest) (o : Object) : Reply Served :=
  match contentTypeOf k o, o.size with
  | some contentType, some _ =>
    ⟨if app.isFile k digest then .ok ⟨contentType, digest⟩ else .error (notFound k), [(k, digest)]⟩
  | _, _ => refuse (notFound k)

/-- The handlers of the registry port once they know the digest. -/
def pull (app : App) (k : Kind) (repository : RepositoryName) (digest : Digest) : Reply Served :=
  match (app.trees.tree k)[digest]? with
  | none => refuse (notFound k)
  | some o => if repository ∈ o.repositories then serve app k digest o else refuse (notFound k)

/-- The checks of the token that come first. -/
def authorized (app : App) (token : Token) (repository : RepositoryName)
    (answer : Reply Served) : Reply Served :=
  if h : token.validatedToken = false then
    refuse (.mustAuthenticate (token.getPullChallenge h app.order repository))
  else if token.hasPermission repository "pull" then answer
  else refuse .accessDenied

/-! ### The handlers -/

/-- `registry::blobs::get`. -/
def Blobs.get (app : App) (token : Token) (repository : RepositoryName) (digest : Digest) :
    Reply Served :=
  authorized app token repository (pull app .blob repository digest)

/-- `registry::blobs::head`, the same code. -/
def Blobs.head (app : App) (token : Token) (repository : RepositoryName) (digest : Digest) :
    Reply Served :=
  authorized app token repository (pull app .blob repository digest)

/-- `registry::manifests::get`. -/
def Manifests.get (app : App) (token : Token) (repository : RepositoryName) (digest : Digest) :
    Reply Served :=
  authorized app token repository (pull app .manifest repository digest)

/-- `registry::manifests::head`, the same code. -/
def Manifests.head (app : App) (token : Token) (repository : RepositoryName) (digest : Digest) :
    Reply Served :=
  authorized app token repository (pull app .manifest repository digest)

/-- `registry::manifests::get_by_tag`. -/
def Manifests.getByTag (app : App) (token : Token) (repository : RepositoryName) (tag : String) :
    Reply Served :=
  authorized app token repository <|
    match getTag app.trees repository tag with
    | none => refuse .manifestNotFound
    | some digest => pull app .manifest repository digest

/-- `registry::manifests::head_by_tag`, the same code. -/
def Manifests.headByTag (app : App) (token : Token) (repository : RepositoryName) (tag : String) :
    Reply Served :=
  authorized app token repository <|
    match getTag app.trees repository tag with
    | none => refuse .manifestNotFound
    | some digest => pull app .manifest repository digest

/-- The two endpoints for peers: only what is recorded as stored on this node. -/
def peerGet (app : App) (k : Kind) (digest : Digest) : Reply Served :=
  match (app.trees.tree k)[digest]? with
  | none => refuse (notFound k)
  | some o => if app.id ∈ o.locations then serve app k digest o else refuse (notFound k)

/-- `network::raft::get_blob`. -/
def Network.getBlob (app : App) (digest : Digest) : Reply Served := peerGet app .blob digest

/-- `network::raft::get_manifest`. -/
def Network.getManifest (app : App) (digest : Digest) : Reply Served := peerGet app .manifest digest

/-! ### What an answer says -/

/-- The record has what the handlers of its kind need. -/
def Servable (k : Kind) (o : Object) : Prop :=
  o.size.isSome ∧ (k = .manifest → o.contentType.isSome)

/-- A record that has what it takes is served when its file is there. -/
theorem serve_ok {app : App} {k : Kind} {d : Digest} {o : Object} (ho : Servable k o)
    (hfile : app.isFile k d = true) : ∃ ct, (serve app k d o).result = .ok ⟨ct, d⟩ := by
  obtain ⟨n, hn⟩ := Option.isSome_iff_exists.mp ho.1
  cases k with
  | blob => exact ⟨_, by simp [serve, contentTypeOf, hn, hfile]; rfl⟩
  | manifest =>
    obtain ⟨ct, hct⟩ := Option.isSome_iff_exists.mp (ho.2 rfl)
    exact ⟨ct, by simp [serve, contentTypeOf, hn, hct, hfile]⟩

@[simp] theorem notFound_statusCode (k : Kind) : (notFound k).statusCode = 404 := by
  cases k <;> rfl

@[simp] theorem refuse_status (e : RegistryError) :
    (refuse e : Reply Served).status = e.statusCode := rfl

/-- An object is handed out only so. -/
theorem serve_status_iff {app : App} {k : Kind} {d : Digest} {o : Object} :
    (serve app k d o).status = 200 ↔ Servable k o ∧ app.isFile k d = true := by
  constructor
  · intro h
    cases hsize : o.size with
    | none => simp [serve, hsize] at h
    | some n =>
      cases hct : contentTypeOf k o with
      | none => simp [serve, hct] at h
      | some ct =>
        cases hfile : app.isFile k d with
        | false => simp [serve, hsize, hct, hfile, Reply.status] at h
        | true =>
          refine ⟨⟨by rw [hsize]; rfl, ?_⟩, rfl⟩
          rintro rfl
          exact Option.isSome_iff_exists.mpr ⟨ct, hct⟩
  · rintro ⟨ho, hfile⟩
    obtain ⟨ct, hserve⟩ := serve_ok ho hfile
    simp [Reply.status, hserve]

/-- A peer gets what is stored on the node, and can be served. -/
theorem peerGet_status_iff {app : App} {k : Kind} {d : Digest} :
    (peerGet app k d).status = 200 ↔ ∃ o, (app.trees.tree k)[d]? = some o ∧
      app.id ∈ o.locations ∧ Servable k o ∧ app.isFile k d = true := by
  unfold peerGet
  cases (app.trees.tree k)[d]? with
  | none => simp
  | some o =>
    by_cases hid : app.id ∈ o.locations
    · simp [hid, serve_status_iff]
    · simp [hid]

end Distribd.Registry
