import Distribd.Schemes.PathPattern
import Distribd.Registry.Confined
import Distribd.Registry.TagList
import Distribd.Registry.Tokens

/-! How a client signs in. A request without a token is answered 401 with a challenge, which says for
    which repositories the client has to get which permissions from the token server. Every handler
    of the registry port looks at the token first, and each names in its challenge what it looks at
    afterwards, and sometimes more.

    So whoever is challenged, reads the challenge, gets a token for what it asks and tries again, on
    this node or another, is answered like one who may do everything; nobody with a valid token is
    challenged, and exactly those without the permission of the handler are answered 403
    (`challenge_suffices`). The text can be read in one way as long as the names of repositories have
    no blanks. -/

namespace Distribd.Registry
open Schemes Store Cluster
open Node (Bytes)

/-! ### Endpoints -/

/-- The token may do all that is asked. -/
def Token.Grants (token : Token) (asked : List Access) : Prop :=
  ∀ a ∈ asked, ∀ p ∈ a.permissions, token.hasPermission a.repository p = true

/-- The token of one who may do everything, under the same name. -/
def Token.asAdmin (token : Token) : Token where
  access := token.access
  sub := token.sub
  validatedToken := true
  admin := true
  realm := token.realm
  service := token.service
  configured h := by cases h

/-- A request, but for its token: the answer, how an error is answered, what a challenge asks for,
    and the permission that the handler demands. -/
structure Endpoint (α : Type) where
  answer : Token → α
  refusal : RegistryError → α
  order : Iteration String
  asked : List Access
  repository : RepositoryName
  permission : String

/-- The accesses in the challenge for a pull, and for a push. -/
def pullAccess (repository : RepositoryName) : Access := ⟨repository, {"pull"}⟩

def pushAccess (repository : RepositoryName) : Access := ⟨repository, {"pull", "push"}⟩

/-- What the challenge of a call asks for, and the permission on its repository. -/
def Call.demands : Call → Option (RepositoryName × String × List Access)
  | .getBlob r _ | .headBlob r _ | .getManifest r _ | .headManifest r _ | .getManifestByTag r _
  | .headManifestByTag r _ => some (r, "pull", [pullAccess r])
  | .postUpload r _ source _ =>
    some (r, "push", pushAccess r :: source.toList.map pullAccess)
  | .putUpload r _ | .putManifest r _ | .deleteBlob r _ | .deleteManifest r _
  | .deleteManifestByTag r _ => some (r, "push", [pushAccess r])
  | .peer .. => none

/-- The digests of a call parse, so its handler runs. -/
def Call.Parses : Call → Prop
  | .getBlob _ d | .headBlob _ d | .getManifest _ d | .headManifest _ d | .putUpload _ d
  | .deleteBlob _ d | .deleteManifest _ d | .peer _ d => (Digest.tryFrom d).isSome
  | .postUpload _ mount _ digest => (parseOptional mount).isSome ∧ (parseOptional digest).isSome
  | .getManifestByTag .. | .headManifestByTag .. | .putManifest .. | .deleteManifestByTag .. => True

/-- The endpoints of the registry port: for objects, for upload sessions, and for the tags. -/
inductive OfRegistry : ∀ {α : Type}, Endpoint α → Prop
  | object {app : App} {sha : Sha256} {found : Found} {call : Call}
      {repository : RepositoryName} {permission : String} {asked : List Access}
      (h : call.demands = some (repository, permission, asked)) (hparses : call.Parses) :
      OfRegistry ⟨fun token => handle app sha token found call, fun e => some (refuse e),
        app.order, asked, repository, permission⟩
  | session {s : Local} {sha : Sha256} {repository : RepositoryName} {uploadId : String}
      {op : Op} :
      OfRegistry ⟨fun token => s.handle sha ⟨token, repository, uploadId, op⟩, s.refuse, s.order,
        [pushAccess repository], repository, op.permission⟩
  | tags {app : App} {repository : RepositoryName} {query : Tags.TagQuery} :
      OfRegistry ⟨fun token => Tags.get app token repository query, fun e => some (.error e),
        app.order, [pullAccess repository], repository, "pull"⟩

/-- The endpoint looks at the token first, and at nothing but what it has asked for. -/
structure Endpoint.Guarded {α : Type} (e : Endpoint α) : Prop where
  challenged : ∀ (token : Token) (h : token.validatedToken = false), e.answer token =
    e.refusal (.mustAuthenticate (token.getChallenge h e.order e.asked))
  granted : ∀ token : Token, token.validatedToken = true → token.Grants e.asked →
    e.answer token = e.answer token.asAdmin
  denied : ∀ token : Token, token.validatedToken = true →
    (e.answer token = e.refusal .accessDenied ↔
      token.hasPermission e.repository e.permission = false)
  once : ∀ token : Token, token.validatedToken = true → ∀ text,
    e.answer token ≠ e.refusal (.mustAuthenticate text)

/-- The checks come first: what is behind them does not refuse for want of a permission, and does
    not ask for more. -/
theorem guarded_of_checks {α : Type} {e : Endpoint α} (inner : Token → α)
    (hanswer : ∀ token : Token, e.answer token =
      if h : token.validatedToken = false then
        e.refusal (.mustAuthenticate (token.getChallenge h e.order e.asked))
      else if token.hasPermission e.repository e.permission then inner token
      else e.refusal .accessDenied)
    (hasked : ∃ a ∈ e.asked, a.repository = e.repository ∧ e.permission ∈ a.permissions)
    (hrefusal : Function.Injective e.refusal)
    (hgranted : ∀ token : Token, token.Grants e.asked → inner token = inner token.asAdmin)
    (hown : ∀ token : Token, inner token ≠ e.refusal .accessDenied ∧
      ∀ text, inner token ≠ e.refusal (.mustAuthenticate text)) : e.Guarded where
  challenged token h := by rw [hanswer, dif_pos h]
  granted token hvalid hgrants := by
    obtain ⟨a, ha, hrepository, hpermission⟩ := hasked
    have hmay : token.hasPermission e.repository e.permission = true :=
      hrepository ▸ hgrants a ha _ hpermission
    have hadmin : token.asAdmin.hasPermission e.repository e.permission = true := rfl
    rw [hanswer, hanswer, dif_neg (by simp [hvalid]), dif_neg (by simp [Token.asAdmin]),
      if_pos hmay, if_pos hadmin]
    exact hgranted token hgrants
  denied token hvalid := by
    rw [hanswer, dif_neg (by simp [hvalid])]
    split
    · rename_i hmay
      simp [hmay, (hown token).1]
    · rename_i hmay
      simp [hmay]
  once token hvalid text := by
    rw [hanswer, dif_neg (by simp [hvalid])]
    split
    · exact (hown token).2 text
    · intro h
      cases hrefusal h

/-! ### The handlers of objects -/

/-- The error is not about the token. -/
def RegistryError.Own (e : RegistryError) : Prop :=
  e ≠ .accessDenied ∧ ∀ text, e ≠ .mustAuthenticate text

theorem own_uploadInvalid : RegistryError.uploadInvalid.Own := by
  simp [RegistryError.Own]

/-- Nor is the error of the answer. -/
def Reply.Own {α : Type} (reply : Reply α) : Prop := ∀ e, reply.result = .error e → e.Own

section Objects

variable {α : Type} {app : App} {sha : Sha256} {repository : RepositoryName} {file : UploadFile}

theorem own_refuse {e : RegistryError} (he : e.Own) : (refuse e : Reply α).Own := by
  intro e' he'
  obtain rfl : e = e' := Except.error.inj he'
  exact he

theorem own_ok {a : α} {paths : List (Kind × Digest)} : (⟨.ok a, paths⟩ : Reply α).Own := by
  intro e he
  cases he

theorem own_notFound (k : Kind) : (notFound k).Own := by
  cases k <;> simp [notFound, RegistryError.Own]

theorem own_as {reply : Reply α} (h : reply.Own) (f : α → Response) : (reply.as f).Own := by
  intro e he
  obtain ⟨result, paths⟩ := reply
  cases result with
  | ok a => cases he
  | error e' =>
    cases he
    exact h _ rfl

theorem own_pull {k : Kind} {d : Digest} : (pull app k repository d).Own := by
  unfold pull serve
  split
  · exact own_refuse (own_notFound k)
  · split
    · split
      · intro e he
        simp only at he
        split at he
        · cases he
        · cases he
          exact own_notFound k
      · exact own_refuse (own_notFound k)
    · exact own_refuse (own_notFound k)

theorem own_finishUpload {d : Digest} {user : String} :
    (finishUpload app sha repository d user file).Own := by
  unfold finishUpload
  split
  · exact own_refuse own_uploadInvalid
  · split
    · exact own_refuse (by simp [RegistryError.Own])
    · intro e he
      simp only at he
      split at he
      · cases he
        simp [RegistryError.Own]
      · split at he
        · cases he
        · cases he
          simp [RegistryError.Own]

theorem own_startUpload {d : Option Digest} {user : String} {opened : Bool} :
    (startUpload app sha repository d user file opened).Own := by
  unfold startUpload
  split
  · exact own_finishUpload
  · split
    · exact own_ok
    · exact own_refuse own_uploadInvalid

theorem own_putManifest {env : ExtractEnv} {tag user : String} {contentType : Option String}
    {reply : Reply Accepted}
    (h : putManifest app sha env repository tag contentType user file = some reply) :
    reply.Own := by
  unfold putManifest at h
  split at h
  · obtain ⟨contentType, -, h⟩ := Option.bind_eq_some_iff.mp h
    obtain ⟨found, -, rfl⟩ := Option.map_eq_some_iff.mp h
    intro e he
    split at he
    · simp only at he
      split at he
      · cases he
      · cases he
        simp [RegistryError.Own]
    · cases he
      simp [RegistryError.Own]
  · cases h
    exact own_refuse (by simp [RegistryError.Own])

theorem refuse_injective :
    Function.Injective fun e => (some (refuse e) : Option (Reply Response)) := by
  intro e e' h
  exact Except.error.inj (congrArg Reply.result (Option.some.inj h))

theorem ne_of_own {reply : Reply Response} (h : reply.Own) :
    some reply ≠ some (refuse .accessDenied) ∧
      ∀ text, some reply ≠ some (refuse (.mustAuthenticate text)) := by
  constructor
  · intro heq
    obtain rfl := Option.some.inj heq
    exact (h _ rfl).1 rfl
  · intro text heq
    obtain rfl := Option.some.inj heq
    exact (h _ rfl).2 text rfl

/-- A handler that serves objects. -/
theorem guarded_authorized {reply : Reply Served} (h : reply.Own) : Endpoint.Guarded
    ⟨fun token => some ((authorized app token repository reply).as .served),
      fun e => some (refuse e), app.order, [pullAccess repository], repository, "pull"⟩ := by
  refine guarded_of_checks (fun _ => some (reply.as .served)) ?_ ?_ refuse_injective
    (fun _ _ => rfl) fun _ => ne_of_own (own_as h _)
  · intro token
    simp only [authorized]
    split
    · rfl
    · split <;> rfl
  · exact ⟨_, List.mem_singleton_self _, rfl, by simp [pullAccess]⟩

/-- A handler that changes them, in the name of the user. -/
theorem guarded_pushAuthorized (reply : String → Reply Accepted) (h : ∀ user, (reply user).Own) :
    Endpoint.Guarded
      ⟨fun token => some ((pushAuthorized app token repository (reply token.sub)).as .accepted),
        fun e => some (refuse e), app.order, [pushAccess repository], repository, "push"⟩ := by
  refine guarded_of_checks (fun token => some ((reply token.sub).as .accepted)) ?_ ?_
    refuse_injective (fun _ _ => rfl) fun _ => ne_of_own (own_as (h _) _)
  · intro token
    simp only [pushAuthorized]
    split
    · rfl
    · split <;> rfl
  · exact ⟨_, List.mem_singleton_self _, rfl, by simp [pushAccess]⟩

/-- POST once the token may push: the mount, or an upload. -/
def Uploads.mountOrStart (app : App) (sha : Sha256) (token : Token) (repository : RepositoryName)
    (query : BlobUploadPostQuery) (file : UploadFile) (opened : Bool) : Reply Accepted :=
  match query.mount, query.source with
  | some mount, some source =>
    if source = repository then refuse .uploadInvalid
    else if token.hasPermission source "pull" = false then refuse .uploadInvalid
    else match app.trees.blobs[mount]? with
      | some blob =>
        if source ∈ blob.repositories then
          ⟨.ok (.submits (.mount repository source mount token.sub)), []⟩
        else startUpload app sha repository query.digest token.sub file opened
      | none => startUpload app sha repository query.digest token.sub file opened
  | _, _ => startUpload app sha repository query.digest token.sub file opened

theorem own_mountOrStart {token : Token} {query : BlobUploadPostQuery} {opened : Bool} :
    (Uploads.mountOrStart app sha token repository query file opened).Own := by
  unfold Uploads.mountOrStart
  split
  · split
    · exact own_refuse own_uploadInvalid
    · split
      · exact own_refuse own_uploadInvalid
      · split
        · split
          · exact own_ok
          · exact own_startUpload
        · exact own_startUpload
  · exact own_startUpload

/-- The challenge of a POST asks for the pull from the source as well. -/
theorem guarded_post {query : BlobUploadPostQuery} {opened : Bool} : Endpoint.Guarded
    ⟨fun token => some ((Uploads.post app sha token repository query file opened).as .accepted),
      fun e => some (refuse e), app.order,
      pushAccess repository :: query.source.toList.map pullAccess, repository, "push"⟩ := by
  refine guarded_of_checks
    (fun token => some ((Uploads.mountOrStart app sha token repository query file opened).as
      .accepted)) ?_ ?_ refuse_injective ?_ fun _ => ne_of_own (own_as own_mountOrStart _)
  · intro token
    simp only [Uploads.post]
    split
    · rfl
    · cases token.hasPermission repository "push" <;> rfl
  · exact ⟨_, List.mem_cons_self, rfl, by simp [pushAccess]⟩
  · intro token hgrants
    have hsame : Uploads.mountOrStart app sha token repository query file opened =
        Uploads.mountOrStart app sha token.asAdmin repository query file opened := by
      unfold Uploads.mountOrStart
      split
      · rename_i source _ hsource
        have hpull : token.hasPermission source "pull" = true := by
          refine hgrants (pullAccess source) ?_ "pull" (by simp [pullAccess])
          simp [hsource]
        have hadmin : token.asAdmin.hasPermission source "pull" = true := rfl
        rw [hpull, hadmin]
        rfl
      · rfl
    simp only [hsame]

/-- The PUT of a manifest may also bring its handler down. -/
theorem guarded_putManifest {env : ExtractEnv} {tag : String} {contentType : Option String} :
    Endpoint.Guarded
      ⟨fun token => (Manifests.put app sha env token repository tag contentType file).map
          (·.as .accepted),
        fun e => some (refuse e), app.order, [pushAccess repository], repository, "push"⟩ := by
  refine guarded_of_checks
    (fun token => (putManifest app sha env repository tag contentType token.sub file).map
      (·.as .accepted)) ?_ ?_ refuse_injective (fun _ _ => rfl) fun token => ?_
  · intro token
    simp only [Manifests.put]
    split
    · rfl
    · split <;> rfl
  · exact ⟨_, List.mem_singleton_self _, rfl, by simp [pushAccess]⟩
  · cases hreply : putManifest app sha env repository tag contentType token.sub file with
    | none => exact ⟨by simp, by simp⟩
    | some reply => exact ne_of_own (own_as (own_putManifest hreply) _)

theorem own_byTag {tag : String} :
    Reply.Own (match getTag app.trees repository tag with
      | none => refuse .manifestNotFound
      | some digest => pull app .manifest repository digest) := by
  split
  · exact own_refuse (own_notFound .manifest)
  · exact own_pull

theorem guarded_deleteObject {k : Kind} {d : Digest} : Endpoint.Guarded
    ⟨fun token => some ((deleteObject app token k repository d).as .accepted),
      fun e => some (refuse e), app.order, [pushAccess repository], repository, "push"⟩ := by
  refine guarded_pushAuthorized (fun user =>
    if isMounted app k repository d then ⟨.ok (.submits (.delete k repository d user)), []⟩
    else refuse (notFound k)) fun user => ?_
  split
  · exact own_ok
  · exact own_refuse (own_notFound k)

theorem guarded_deleteByTag {tag : String} : Endpoint.Guarded
    ⟨fun token => some ((Manifests.deleteByTag app token repository tag).as .accepted),
      fun e => some (refuse e), app.order, [pushAccess repository], repository, "push"⟩ := by
  refine guarded_pushAuthorized (fun user =>
    match getTag app.trees repository tag with
    | none => refuse .manifestNotFound
    | some digest =>
      if isMounted app .manifest repository digest then
        ⟨.ok (.submits (.deleteTag repository tag user)), []⟩
      else refuse .manifestNotFound) fun user => ?_
  split
  · exact own_refuse (own_notFound .manifest)
  · split
    · exact own_ok
    · exact own_refuse (own_notFound .manifest)

theorem guarded_put {d : Digest} {isFile : Bool} : Endpoint.Guarded
    ⟨fun token => some ((Uploads.put app sha token repository d file isFile).as .accepted),
      fun e => some (refuse e), app.order, [pushAccess repository], repository, "push"⟩ := by
  refine guarded_pushAuthorized (fun user =>
    if d.algo ≠ "sha256" then refuse .uploadInvalid
    else if isFile = false then refuse .uploadInvalid
    else finishUpload app sha repository d user file) fun user => ?_
  split
  · exact own_refuse own_uploadInvalid
  · split
    · exact own_refuse own_uploadInvalid
    · exact own_finishUpload

/-- Every call that parses. -/
theorem guarded_call {found : Found} {call : Call} {permission : String} {asked : List Access}
    (h : call.demands = some (repository, permission, asked)) (hparses : call.Parses) :
    Endpoint.Guarded ⟨fun token => handle app sha token found call, fun e => some (refuse e),
      app.order, asked, repository, permission⟩ := by
  cases call
  case peer k d => cases h
  all_goals cases h
  case postUpload mount source digest =>
    obtain ⟨mount', hmount⟩ := Option.isSome_iff_exists.mp hparses.1
    obtain ⟨digest', hdigest⟩ := Option.isSome_iff_exists.mp hparses.2
    simp only [handle, hmount, hdigest, Option.bind_some, Option.map_some]
    exact guarded_post
  case putManifest => exact guarded_putManifest
  case getManifestByTag => exact guarded_authorized own_byTag
  case headManifestByTag => exact guarded_authorized own_byTag
  case deleteManifestByTag => exact guarded_deleteByTag
  -- what is left names an object by a digest
  all_goals
    obtain ⟨d, hd⟩ := Option.isSome_iff_exists.mp hparses
    simp only [handle, hd, Option.map_some]
  case getBlob => exact guarded_authorized own_pull
  case headBlob => exact guarded_authorized own_pull
  case getManifest => exact guarded_authorized own_pull
  case headManifest => exact guarded_authorized own_pull
  case putUpload => exact guarded_put
  case deleteBlob => exact guarded_deleteObject
  case deleteManifest => exact guarded_deleteObject

end Objects

/-! ### The handlers of sessions, and of the tags -/

section Sessions

variable {s : Local} {sha : Sha256} {repository : RepositoryName} {uploadId : String}

/-- Nor is the error of the outcome about the token. -/
def OwnOutcome (outcome : Outcome) : Prop := ∀ e, outcome.1 = some (.error e) → e.Own

theorem ownOutcome_refuse {e : RegistryError} (he : e.Own) : OwnOutcome (s.refuse e) := by
  intro e' he'
  obtain rfl : e = e' := Except.error.inj (Option.some.inj he')
  exact he

theorem ownOutcome_ok {result : UploadOk} {t : Local} : OwnOutcome (some (.ok result), t) := by
  intro e he
  cases he

theorem ownOutcome_none {t : Local} : OwnOutcome (none, t) := by
  intro e he
  cases he

theorem ownOutcome_append {content : Bytes} {body : Body} {stat : Bool} :
    OwnOutcome (s.append uploadId content body stat) := by
  unfold Local.append
  simp only
  split
  · exact ownOutcome_none
  · exact ownOutcome_refuse own_uploadInvalid
  · split
    · exact ownOutcome_ok
    · exact ownOutcome_refuse own_uploadInvalid

theorem ownOutcome_finish {now : Clock} {user : String} {content : Bytes} {digest : Digest}
    {body : Body} {io : Io} :
    OwnOutcome (s.finish sha now user repository uploadId content digest body io) := by
  unfold Local.finish
  simp only
  split
  · exact ownOutcome_none
  · exact ownOutcome_refuse own_uploadInvalid
  · split
    · split
      · split
        · exact ownOutcome_ok
        · exact ownOutcome_refuse own_uploadInvalid
      · exact ownOutcome_refuse own_uploadInvalid
    · exact ownOutcome_refuse (by simp [RegistryError.Own])

/-- Behind the checks of the token a handler looks at nothing of it but the subject. -/
theorem handle_eq_authorized (s : Local) (sha : Sha256) (repository : RepositoryName)
    (uploadId : String) (op : Op) : ∃ inner : Token → Outcome,
    (∀ token, OwnOutcome (inner token)) ∧ (∀ token, inner token = inner token.asAdmin) ∧
      ∀ token, s.handle sha ⟨token, repository, uploadId, op⟩ =
        s.authorized token repository op.permission (inner token) := by
  cases op with
  | post created =>
    refine ⟨fun token => _, ?_, fun _ => rfl, fun token => rfl⟩
    intro token
    split
    · exact ownOutcome_ok
    · exact ownOutcome_refuse own_uploadInvalid
  | postWhole now digest body io =>
    exact ⟨fun token => s.finish sha now token.sub repository uploadId [] digest body io,
      fun _ => ownOutcome_finish, fun _ => rfl, fun _ => rfl⟩
  | patch contentRange body sized stat =>
    refine ⟨fun token => _, ?_, fun _ => rfl, fun token => rfl⟩
    intro token
    split
    · exact ownOutcome_refuse own_uploadInvalid
    · split
      · simp only
        generalize (if sized then _ else 0) = size
        split
        · exact ownOutcome_refuse (by simp [RegistryError.Own])
        · split
          · exact ownOutcome_refuse (by simp [RegistryError.Own])
          · exact ownOutcome_append
      · exact ownOutcome_append
  | put now digest body io =>
    refine ⟨fun token => if digest.algo ≠ "sha256" then s.refuse .uploadInvalid
      else (s.uploads uploadId).elim (s.refuse .uploadInvalid) fun content =>
        s.finish sha now token.sub repository uploadId content digest body io, ?_, fun _ => rfl, ?_⟩
    · intro token
      simp only
      split
      · exact ownOutcome_refuse own_uploadInvalid
      · cases s.uploads uploadId with
        | none => exact ownOutcome_refuse own_uploadInvalid
        | some content => exact ownOutcome_finish
    · intro token
      simp only [Local.handle, Local.put]
      cases s.uploads uploadId <;> rfl
  | get stat =>
    refine ⟨fun token => _, ?_, fun _ => rfl, fun token => rfl⟩
    intro token
    split
    · exact ownOutcome_refuse (by simp [RegistryError.Own])
    · split
      · exact ownOutcome_ok
      · exact ownOutcome_refuse own_uploadInvalid
  | delete removed =>
    refine ⟨fun token => _, ?_, fun _ => rfl, fun token => rfl⟩
    intro token
    split
    · exact ownOutcome_refuse own_uploadInvalid
    · split
      · exact ownOutcome_ok
      · exact ownOutcome_refuse own_uploadInvalid

theorem guarded_session {op : Op} : Endpoint.Guarded
    ⟨fun token => s.handle sha ⟨token, repository, uploadId, op⟩, s.refuse, s.order,
      [pushAccess repository], repository, op.permission⟩ := by
  obtain ⟨inner, hown, hadmin, hinner⟩ := handle_eq_authorized s sha repository uploadId op
  refine guarded_of_checks inner ?_ ?_ ?_ (fun token _ => hadmin token) ?_
  · intro token
    simp only [hinner, Local.authorized]
    rfl
  · refine ⟨_, List.mem_singleton_self _, rfl, ?_⟩
    cases op <;> simp [pushAccess, Op.permission]
  · intro e e' h
    exact Except.error.inj (Option.some.inj (congrArg Prod.fst h))
  · intro token
    constructor
    · intro h
      exact (hown token _ (congrArg Prod.fst h)).1 rfl
    · intro text h
      exact (hown token _ (congrArg Prod.fst h)).2 text rfl

end Sessions

theorem guarded_tags {app : App} {repository : RepositoryName} {query : Tags.TagQuery} :
    Endpoint.Guarded ⟨fun token => Tags.get app token repository query,
      fun e => some (.error e), app.order, [pullAccess repository], repository, "pull"⟩ := by
  refine guarded_of_checks (fun _ =>
    (Tags.page repository query (getTags app.trees repository)).map .ok) ?_ ?_ ?_
    (fun _ _ => rfl) fun token => ?_
  · intro token
    simp only [Tags.get]
    split
    · rfl
    · split <;> rfl
  · exact ⟨_, List.mem_singleton_self _, rfl, by simp [pullAccess]⟩
  · intro e e' h
    exact Except.error.inj (Option.some.inj h)
  · cases Tags.page repository query (getTags app.trees repository) <;> simp

/-- Every endpoint of the registry port. -/
theorem OfRegistry.guarded {α : Type} {e : Endpoint α} (h : OfRegistry e) : e.Guarded := by
  cases h with
  | object h hparses => exact guarded_call h hparses
  | session => exact guarded_session
  | tags => exact guarded_tags

/-! ### The text of a challenge -/

/-- The access can be read in a challenge: no blank in the name, and permissions that are words. -/
def Access.Plain (access : Access) : Prop :=
  ' ' ∉ access.repository.name.toList ∧ access.permissions.Nonempty ∧
    ∀ p ∈ access.permissions, ' ' ∉ p.toList ∧ ',' ∉ p.toList ∧ ':' ∉ p.toList

/-- What a challenge says about one access. -/
def Access.scope (order : Iteration String) (access : Access) : String :=
  "repository:" ++ access.repository.name ++ ":" ++
    ",".intercalate (order.list access.permissions)

theorem toList_scope (order : Iteration String) (access : Access) :
    (access.scope order).toList = "repository:".toList ++ (access.repository.name.toList ++
      ':' :: [','].intercalate ((order.list access.permissions).map String.toList)) := by
  simp only [Access.scope, String.toList_append, String.toList_intercalate, List.append_assoc]
  rfl

section Text

variable {order order' : Iteration String} {access access' : Access}

/-- The characters of the permissions are those of one of them, or commas. -/
theorem mem_permissions {c : Char} {ps : List (List Char)} (h : c ∈ [','].intercalate ps) :
    c = ',' ∨ ∃ p ∈ ps, c ∈ p := by
  induction ps with
  | nil => simp at h
  | cons p ps ih =>
    cases ps with
    | nil =>
      simp at h
      exact .inr ⟨p, by simp, h⟩
    | cons q qs =>
      rw [List.intercalate_cons_cons] at h
      rcases List.mem_append.mp h with h | h
      · rcases List.mem_append.mp h with h | h
        · exact .inr ⟨p, by simp, h⟩
        · exact .inl (List.mem_singleton.mp h)
      · rcases ih h with rfl | ⟨r, hr, hc⟩
        · exact .inl rfl
        · exact .inr ⟨r, List.mem_cons_of_mem _ hr, hc⟩

theorem notMem_permissions {c : Char} (hc : c ≠ ',')
    (h : ∀ p ∈ access.permissions, c ∉ p.toList) :
    c ∉ [','].intercalate ((order.list access.permissions).map String.toList) := by
  intro hmem
  rcases mem_permissions hmem with hcomma | ⟨p, hp, hcp⟩
  · exact hc hcomma
  · obtain ⟨permission, hpermission, rfl⟩ := List.mem_map.mp hp
    exact h permission (order.mem_list.mp hpermission) hcp

theorem blank_notMem_scope (h : access.Plain) : ' ' ∉ (access.scope order).toList := by
  have hperms : ' ' ∉ [','].intercalate ((order.list access.permissions).map String.toList) :=
    notMem_permissions (by decide) fun p hp => (h.2.2 p hp).1
  rw [toList_scope]
  simp only [List.mem_append, List.mem_cons, not_or]
  exact ⟨by decide, h.1, by decide, hperms⟩

/-- The last colon is the one before the permissions. -/
theorem scope_inj (h : access.Plain) (h' : access'.Plain)
    (hsame : access.scope order = access'.scope order') : access = access' := by
  have hchars := congrArg String.toList hsame
  rw [toList_scope, toList_scope] at hchars
  obtain ⟨hname, hperms⟩ := eq_of_last (List.append_cancel_left hchars)
    (notMem_permissions (by decide) fun p hp => (h.2.2 p hp).2.2)
    (notMem_permissions (by decide) fun p hp => (h'.2.2 p hp).2.2)
  have hlists := intercalate_inj ?_ ?_ ?_ ?_ hperms
  · have hlist := List.map_injective_iff.mpr (fun _ _ => String.toList_injective) hlists
    have hset : access.permissions = access'.permissions := by
      rw [← order.toFinset access.permissions, hlist, order'.toFinset]
    have hrepository : access.repository = access'.repository := by
      obtain ⟨⟨name⟩, ps⟩ := access
      obtain ⟨⟨name'⟩, ps'⟩ := access'
      exact congrArg RepositoryName.mk (String.toList_injective hname)
    obtain ⟨repository, ps⟩ := access
    obtain ⟨repository', ps'⟩ := access'
    simp only at hset hrepository
    rw [hset, hrepository]
  · simpa [List.eq_nil_iff_forall_not_mem, Finset.Nonempty] using h.2.1
  · simpa [List.eq_nil_iff_forall_not_mem, Finset.Nonempty] using h'.2.1
  · simpa using fun p hp => (h.2.2 p hp).2.1
  · simpa using fun p hp => (h'.2.2 p hp).2.1

/-- The scopes stand between texts that are the same in every challenge to a token. -/
theorem getChallenge_eq {token : Token} (hv : token.validatedToken = false) :
    ∃ front back : String, ∀ order asked, token.getChallenge hv order asked =
      front ++ " ".intercalate (asked.map (Access.scope order)) ++ back :=
  ⟨"Bearer realm=\"" ++ token.realm.get (token.configured hv).1 ++ "\",service=\"" ++
    token.service.get (token.configured hv).2 ++ "\",scope=\"", "\"", fun _ _ => rfl⟩

/-- Scopes in different orders are those of the same accesses. -/
theorem scopes_inj {asked asked' : List Access} (hplain : ∀ a ∈ asked, a.Plain)
    (hplain' : ∀ a ∈ asked', a.Plain)
    (h : asked.map (Access.scope order) = asked'.map (Access.scope order')) : asked = asked' := by
  induction asked generalizing asked' with
  | nil => exact (List.map_eq_nil_iff.mp h.symm).symm
  | cons a asked ih =>
    cases asked' with
    | nil => cases h
    | cons a' asked' =>
      obtain ⟨hscope, hscopes⟩ := List.cons.inj h
      obtain rfl := scope_inj (hplain a List.mem_cons_self) (hplain' a' List.mem_cons_self) hscope
      rw [ih (fun b hb => hplain b (List.mem_cons_of_mem _ hb))
        (fun b hb => hplain' b (List.mem_cons_of_mem _ hb)) hscopes]

/-- A challenge of plain accesses can be read in one way. -/
theorem challenge_inj {token : Token} (hv : token.validatedToken = false)
    {asked asked' : List Access} (hne : asked ≠ []) (hne' : asked' ≠ [])
    (hplain : ∀ a ∈ asked, a.Plain) (hplain' : ∀ a ∈ asked', a.Plain)
    (h : token.getChallenge hv order asked = token.getChallenge hv order' asked') :
    asked = asked' := by
  obtain ⟨front, back, heq⟩ := getChallenge_eq hv
  have hchars := congrArg String.toList
    ((heq order asked).symm.trans (h.trans (heq order' asked')))
  simp only [String.toList_append, List.append_assoc] at hchars
  have hscopes := List.append_cancel_right (List.append_cancel_left hchars)
  rw [String.toList_intercalate, String.toList_intercalate] at hscopes
  have hlists := intercalate_inj (c := ' ') ?_ ?_ ?_ ?_ hscopes
  · exact scopes_inj hplain hplain'
      (List.map_injective_iff.mpr (fun _ _ => String.toList_injective) hlists)
  · simpa using hne
  · simpa using hne'
  · simpa using fun a ha => blank_notMem_scope (hplain a ha)
  · simpa using fun a ha => blank_notMem_scope (hplain' a ha)

end Text

/-! ### Signing in -/

/-- A challenge asks for pulls and pushes. -/
def Asks (asked : List Access) : Prop :=
  asked ≠ [] ∧ ∀ a ∈ asked, a = pullAccess a.repository ∨ a = pushAccess a.repository

theorem asks_of_demands {call : Call} {repository : RepositoryName} {permission : String}
    {asked : List Access} (h : call.demands = some (repository, permission, asked)) :
    Asks asked := by
  cases call
  case peer => cases h
  case postUpload r mount source digest =>
    cases h
    cases source <;> simp [Asks, pullAccess, pushAccess]
  all_goals
    cases h
    simp [Asks, pullAccess, pushAccess]

theorem OfRegistry.asks {α : Type} {e : Endpoint α} (h : OfRegistry e) : Asks e.asked := by
  cases h with
  | object h hparses => exact asks_of_demands h
  | session => simp [Asks, pushAccess]
  | tags => simp [Asks, pullAccess]

/-- Such a challenge can be read if the names can. -/
theorem Asks.plain {asked : List Access} (h : Asks asked)
    (hnames : ∀ a ∈ asked, ' ' ∉ a.repository.name.toList) : ∀ a ∈ asked, a.Plain := by
  intro a ha
  have hwords : ∀ p ∈ ({"pull", "push"} : Finset String),
      ' ' ∉ p.toList ∧ ',' ∉ p.toList ∧ ':' ∉ p.toList := by decide
  refine ⟨hnames a ha, ?_⟩
  rcases h.2 a ha with heq | heq <;> rw [heq]
  · refine ⟨⟨"pull", Finset.mem_singleton_self _⟩, fun p hp => hwords p ?_⟩
    rw [Finset.mem_singleton.mp hp]
    exact Finset.mem_insert_self ..
  · exact ⟨⟨"pull", Finset.mem_insert_self ..⟩, hwords⟩

/-- A request that brings a header along has been validated when its handler runs. -/
theorem validated_of_header {config : TokenConfig} {now : DateTime} {header : List UInt8}
    {token : Token} (h : fromRequest (some config) now (some header) = some (.ok token)) :
    token.validatedToken = true := by
  obtain ⟨text, -, h⟩ := Option.map_eq_some_iff.mp h
  unfold TokenConfig.fromHeader at h
  split at h
  · cases h
  · split at h
    · cases h
    · split at h
      · cases h
      · split at h
        · cases h
          rfl
        · cases h

/-- CHALLENGE SUFFICES: whatever a request without a token is for, the answer is a challenge from
    which can be read, in one way, what is asked for. Whoever gets a token that grants it and asks
    for the same again, of any node, is answered as if he could do everything; a token that grants
    less is answered 403 exactly if the permission of the handler is missing, and never challenged
    again. -/
theorem challenge_suffices {config : TokenConfig} {α β : Type} {e : Endpoint α} {e' : Endpoint β}
    (he : OfRegistry e) (he' : OfRegistry e') (hasked : e'.asked = e.asked)
    (hnames : ∀ a ∈ e.asked, ' ' ∉ a.repository.name.toList) (now : DateTime) {now' : DateTime}
    {header : List UInt8} {token : Token}
    (htoken : fromRequest (some config) now' (some header) = some (.ok token)) :
    (∃ first text, fromRequest (some config) now none = some (.ok first) ∧
      e.answer first = e.refusal (.mustAuthenticate text) ∧
      ∀ hv order asked, asked ≠ [] → (∀ a ∈ asked, a.Plain) →
        first.getChallenge hv order asked = text → asked = e.asked) ∧
    (token.Grants e.asked → e'.answer token = e'.answer token.asAdmin) ∧
    (e'.answer token = e'.refusal .accessDenied ↔
      token.hasPermission e'.repository e'.permission = false) ∧
    ∀ text, e'.answer token ≠ e'.refusal (.mustAuthenticate text) := by
  have hvalid := validated_of_header htoken
  refine ⟨⟨_, _, rfl, he.guarded.challenged config.unvalidated rfl, ?_⟩, ?_,
    he'.guarded.denied token hvalid, he'.guarded.once token hvalid⟩
  · intro hv order asked hne hplain htext
    exact challenge_inj rfl hne he.asks.1 hplain (he.asks.plain hnames) htext
  · intro hgrants
    exact he'.guarded.granted token hvalid (hasked ▸ hgrants)

/-- A mount into `library/b` from `library/a`, on an empty node. -/
def mountFromA (id : RegistryNodeId) : Endpoint (Option (Reply Response)) where
  answer token := handle ⟨id, Trees.empty, fun _ _ => false, .ascending⟩ helloSha token
    (foundWith []) (.postUpload ⟨"library/b"⟩ (some ("sha256:" ++ helloDigest.hash))
      (some ⟨"library/a"⟩) none)
  refusal e := some (refuse e)
  order := .ascending
  asked := [pushAccess ⟨"library/b"⟩, pullAccess ⟨"library/a"⟩]
  repository := ⟨"library/b"⟩
  permission := "push"

theorem ofRegistry_mountFromA (id : RegistryNodeId) : OfRegistry (mountFromA id) := by
  have hdemands : (Call.postUpload ⟨"library/b"⟩ (some ("sha256:" ++ helloDigest.hash))
      (some ⟨"library/a"⟩) none).demands =
        some (⟨"library/b"⟩, "push", (mountFromA id).asked) := rfl
  exact .object hdemands ⟨by decide +kernel, rfl⟩

/-- The token of Alice says what the challenge asks for. -/
def mountConfig : TokenConfig :=
  { aliceConfig with
    verifyToken := fun now text options =>
      (aliceConfig.verifyToken now text options).map fun claims =>
        { claims with access := (mountFromA 1).asked } }

theorem challenge_suffices_mountFromA :
    ∃ token, fromRequest (some mountConfig) (minutes 17)
        (some "Bearer eyJhbGciOiJFUzI1NiJ9.alice".toUTF8.toList) = some (.ok token) ∧
      (∃ first text, fromRequest (some mountConfig) (minutes 16) none = some (.ok first) ∧
        (mountFromA 1).answer first = some (refuse (.mustAuthenticate text))) ∧
      (mountFromA 2).answer token = (mountFromA 2).answer token.asAdmin := by
  have hfacts : (((fromRequest (some mountConfig) (minutes 17)
      (some "Bearer eyJhbGciOiJFUzI1NiJ9.alice".toUTF8.toList)).bind Except.toOption).map
        fun token => decide (∀ a ∈ (mountFromA 1).asked, ∀ p ∈ a.permissions,
          token.hasPermission a.repository p = true)) = some true := by
    decide +kernel
  obtain ⟨token, hok, hgrants⟩ := Option.map_eq_some_iff.mp hfacts
  obtain ⟨result, htoken, hresult⟩ := Option.bind_eq_some_iff.mp hok
  cases result with
  | error e => cases hresult
  | ok token' =>
    obtain rfl := Option.some.inj hresult
    obtain ⟨⟨first, text, hfirst, hanswer, -⟩, hgranted, -⟩ := challenge_suffices
      (ofRegistry_mountFromA 1) (ofRegistry_mountFromA 2) rfl (by decide) (minutes 16) htoken
    refine ⟨token', htoken, ⟨first, text, hfirst, hanswer⟩, hgranted ?_⟩
    unfold Token.Grants
    exact of_decide_eq_true hgrants

end Distribd.Registry
