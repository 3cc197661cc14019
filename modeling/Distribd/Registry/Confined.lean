import Distribd.Schemes.Machine
import Distribd.Registry.Retries
import Distribd.Registry.Provenance

/-! Whose sessions are they. The handlers of an upload session look at the token and at the
    repository of the request path, and then at the session by its upload id alone: neither the name
    nor the content of a session file says under which repository it was opened. So a session can
    be finished in another repository (`finished_elsewhere`). What does hold in every run is that
    every session was opened by someone who could push to the repository of that POST, and that
    whoever reads or changes one names its upload id and has the permission of the handler on the
    repository of his own request; no request touches another session, and the blob of a PUT goes to
    the repository of the PUT (`session_guarded`). -/

namespace Distribd.Registry
open Schemes Store Cluster
open Node (Bytes)

/-! ### Requests about sessions -/

/-- What a request asks for. -/
inductive Op where
  /-- A POST without a digest, and one with a digest; the upload id is a new one. -/
  | post (created : Bool)
  | postWhole (now : Clock) (digest : Digest) (body : Body) (io : Io)
  | patch (contentRange : Option String) (body : Body) (sized stat : Bool)
  | put (now : Clock) (digest : Digest) (body : Body) (io : Io)
  | get (stat : Bool)
  | delete (removed : Bool)

/-- A request about an upload session. -/
structure UploadRequest where
  token : Token
  repository : RepositoryName
  uploadId : String
  op : Op

/-- The permission that the handler demands. -/
def Op.permission : Op → String
  | .get _ => "pull"
  | _ => "push"

/-- The request makes a new upload id up. -/
def Op.isPost : Op → Bool
  | .post _ | .postWhole .. => true
  | _ => false

/-- The answer, and the state of the node after it. -/
def Local.handle (s : Local) (sha : Sha256) (request : UploadRequest) : Outcome :=
  let ⟨token, repository, uploadId, op⟩ := request
  match op with
  | .post created => s.post token repository uploadId created
  | .postWhole now digest body io => s.postWhole sha now token repository uploadId digest body io
  | .patch contentRange body sized stat =>
    s.patch token repository uploadId contentRange body sized stat
  | .put now digest body io => s.put sha now token repository uploadId digest body io
  | .get stat => s.get token repository uploadId stat
  | .delete removed => s.delete token repository uploadId removed

/-- A node that handles such requests one after the other; an upload id that is made up is not in
    use. -/
def uploading (sha : Sha256) (id : RegistryNodeId) : Machine Local UploadRequest where
  init := .new id
  step s request :=
    if request.op.isPost ∧ s.uploads request.uploadId ≠ none then none
    else some (s.handle sha request).2

/-- The token has what the handler demands on the repository of the request. -/
def UploadRequest.Permitted (request : UploadRequest) : Prop :=
  request.token.hasPermission request.repository request.op.permission = true

/-! ### What a request can do -/

section

variable {s : Local} {sha : Sha256} {token : Token} {repository : RepositoryName}
  {uploadId : String}

/-- Two nodes with the same order of hash sets answer alike if the handlers do. -/
theorem authorized_fst {t : Local} {permission : String} {answer answer' : Outcome}
    (hanswer : token.hasPermission repository permission = true → answer'.1 = answer.1)
    (horder : t.order = s.order) :
    (t.authorized token repository permission answer').1 =
      (s.authorized token repository permission answer).1 := by
  unfold Local.authorized
  split
  · rw [horder]
    rfl
  · split
    · rename_i hpermission
      exact hanswer hpermission
    · rfl

/-- The state after the checks of the token: that after the handler, or the one before. -/
theorem authorized_snd {permission : String} {answer : Outcome} {P : Local → Prop} (hs : P s)
    (hanswer : token.hasPermission repository permission = true → P answer.2) :
    P (s.authorized token repository permission answer).2 := by
  unfold Local.authorized
  split
  · exact hs
  · split
    · rename_i hpermission
      exact hanswer hpermission
    · exact hs

/-- A write leaves the files alone, and applies its transaction. -/
theorem consistentWrite_cases {t : Local} {now : Clock} {req : Request} {logged : Bool}
    (h : s.consistentWrite now req logged = some t) :
    t.uploads = s.uploads ∧ ∃ actions, req.transaction now s.db = some actions ∧
      applyActions s.db.toTrees actions = some t.db.toTrees := by
  unfold Local.consistentWrite at h
  split at h
  · obtain ⟨actions, hactions, h⟩ := Option.bind_eq_some_iff.mp h
    obtain ⟨trees, htrees, rfl⟩ := Option.map_eq_some_iff.mp h
    exact ⟨rfl, actions, hactions, htrees⟩
  · cases h

/-- What the end of an upload leaves: the other session files, and the database, unless it records an
    upload into the repository of the request. -/
theorem finish_snd (s : Local) (sha : Sha256) (now : Clock) (user : String)
    (repository : RepositoryName) (uploadId : String) (content : Bytes) (digest : Digest)
    (body : Body) (io : Io) :
    let t := (s.finish sha now user repository uploadId content digest body io).2
    (∀ u, u ≠ uploadId → t.uploads u = s.uploads u) ∧
      (t.db.toTrees = s.db.toTrees ∨
        (digest = sha.digest (content ++ body.appended) ∧
          applyActions s.db.toTrees (uploadActions now s.id repository digest
            (content ++ body.appended).length user) = some t.db.toTrees)) := by
  have hset : ∀ (t : Local) (content : Option Bytes) (u : String), u ≠ uploadId →
      t.uploads u = s.uploads u → (t.setUpload uploadId content).uploads u = s.uploads u := by
    intro t content u hu ht
    rw [setUpload_of_ne t content hu, ht]
  by_cases hmoves : Moves sha content digest body io
  · obtain ⟨hresult, hreadable, hdigest, hstat, hrenamed⟩ := hmoves
    simp only [Local.finish, hresult, hreadable, hdigest, hstat, hrenamed, and_self, if_true]
    split
    · rename_i t hwrite
      obtain ⟨huploads, actions, hactions, htrees⟩ := consistentWrite_cases hwrite
      obtain rfl := Option.some.inj hactions
      refine ⟨?_, .inr ⟨trivial, htrees⟩⟩
      intro u hu
      rw [huploads]
      exact hset _ _ u hu (hset s _ u hu rfl)
    · exact ⟨fun u hu => hset _ _ u hu (hset s _ u hu rfl), .inl rfl⟩
  · have hstate : (s.finish sha now user repository uploadId content digest body io).2 =
        s.setUpload uploadId (some (content ++ body.appended)) := (finish_of_not_moves hmoves).1
    rw [hstate]
    exact ⟨fun u hu => hset s _ u hu rfl, .inl rfl⟩

/-- The answer at the end of an upload does not depend on the node. -/
theorem finish_fst (s t : Local) (sha : Sha256) (now : Clock) (user : String)
    (repository : RepositoryName) (uploadId : String) (content : Bytes) (digest : Digest)
    (body : Body) (io : Io) :
    (t.finish sha now user repository uploadId content digest body io).1 =
      (s.finish sha now user repository uploadId content digest body io).1 := by
  unfold Local.finish
  cases hresult : body.result with
  | panicked => rfl
  | failed => rfl
  | complete =>
    by_cases hread : io.readable ∧ sha.digest (content ++ body.appended) = digest
    · by_cases hio : io.stat ∧ io.renamed
      · simp only [if_pos hread, if_pos hio]
        cases hlogged : io.logged with
        | false => rfl
        | true =>
          -- an upload can be applied on both
          obtain ⟨_, hs, -⟩ := consistentWrite_upload
            (((s.setUpload uploadId (some (content ++ body.appended))).setUpload uploadId
              none).setObject .blob digest (content ++ body.appended)) now repository digest
            (content ++ body.appended).length user
          obtain ⟨_, ht, -⟩ := consistentWrite_upload
            (((t.setUpload uploadId (some (content ++ body.appended))).setUpload uploadId
              none).setObject .blob digest (content ++ body.appended)) now repository digest
            (content ++ body.appended).length user
          simp only [hs, ht]
      · simp only [if_pos hread, if_neg hio]
        rfl
    · simp only [if_neg hread]
      rfl

/-- Nor does that of a PATCH that may append, which leaves the body appended. -/
theorem append_cases (s t : Local) (uploadId : String) (content : Bytes) (body : Body)
    (stat : Bool) :
    (t.append uploadId content body stat).1 = (s.append uploadId content body stat).1 ∧
      (s.append uploadId content body stat).2 =
        s.setUpload uploadId (some (content ++ body.appended)) := by
  unfold Local.append
  cases body.result with
  | panicked => exact ⟨rfl, rfl⟩
  | failed => exact ⟨rfl, rfl⟩
  | complete => cases stat <;> exact ⟨rfl, rfl⟩

/-! ### What a request cannot do -/

/-- Without the permission a request learns nothing and changes nothing. -/
theorem handle_of_not_permitted {request : UploadRequest} (h : ¬ request.Permitted) (t : Local)
    (ht : t.order = s.order) :
    (t.handle sha request).1 = (s.handle sha request).1 ∧ (s.handle sha request).2 = s := by
  obtain ⟨token, repository, uploadId, op⟩ := request
  cases op <;>
    exact ⟨authorized_fst (fun hp => absurd hp h) ht,
      authorized_snd (P := fun t => t = s) rfl fun hp => absurd hp h⟩

/-- About another session it learns nothing either, and it leaves that session alone. -/
theorem handle_of_ne {request : UploadRequest} {u : String} (h : u ≠ request.uploadId)
    (content : Option Bytes) :
    ((s.setUpload u content).handle sha request).1 = (s.handle sha request).1 ∧
      (s.handle sha request).2.uploads u = s.uploads u := by
  obtain ⟨token, repository, uploadId, op⟩ := request
  have hsame : (s.setUpload u content).uploads uploadId = s.uploads uploadId :=
    setUpload_of_ne s content h.symm
  cases op with
  | post created =>
    refine ⟨authorized_fst (fun _ => ?_) rfl,
      authorized_snd (P := fun t => t.uploads u = s.uploads u) rfl fun _ => ?_⟩
    · split <;> rfl
    · split
      · exact setUpload_of_ne s _ h
      · rfl
  | postWhole now digest body io =>
    exact ⟨authorized_fst (fun _ => finish_fst ..) rfl,
      authorized_snd (P := fun t => t.uploads u = s.uploads u) rfl
        fun _ => (finish_snd ..).1 u h⟩
  | patch contentRange body sized stat =>
    refine ⟨authorized_fst (fun _ => ?_) rfl,
      authorized_snd (P := fun t => t.uploads u = s.uploads u) rfl fun _ => ?_⟩
    · rw [hsame]
      split
      · rfl
      · split
        · simp only
          generalize (if sized then _ else 0) = size
          split
          · rfl
          · split
            · rfl
            · exact (append_cases ..).1
        · exact (append_cases ..).1
    · have happend : ∀ content, (s.append uploadId content body stat).2.uploads u =
          s.uploads u := by
        intro content
        rw [(append_cases s s ..).2]
        exact setUpload_of_ne s _ h
      split
      · rfl
      · split
        · simp only
          generalize (if sized then _ else 0) = size
          split
          · rfl
          · split
            · rfl
            · exact happend _
        · exact happend _
  | put now digest body io =>
    refine ⟨authorized_fst (fun _ => ?_) rfl,
      authorized_snd (P := fun t => t.uploads u = s.uploads u) rfl fun _ => ?_⟩
    · rw [hsame]
      split
      · rfl
      · split
        · rfl
        · exact finish_fst ..
    · split
      · rfl
      · split
        · rfl
        · exact (finish_snd ..).1 u h
  | get stat =>
    refine ⟨authorized_fst (fun _ => ?_) rfl,
      authorized_snd (P := fun t => t.uploads u = s.uploads u) rfl fun _ => ?_⟩
    · rw [hsame]
      split
      · rfl
      · split <;> rfl
    · split
      · rfl
      · split <;> rfl
  | delete removed =>
    refine ⟨authorized_fst (fun _ => ?_) rfl,
      authorized_snd (P := fun t => t.uploads u = s.uploads u) rfl fun _ => ?_⟩
    · rw [hsame]
      split
      · rfl
      · split <;> rfl
    · split
      · rfl
      · split
        · exact setUpload_of_ne s _ h
        · rfl

/-- The database changes only by the PUT of an upload, or by a POST that brings it whole, into the
    repository of that request; the content of the PUT is that of its session and then its body. -/
theorem handle_records {request : UploadRequest}
    (h : (s.handle sha request).2.db.toTrees ≠ s.db.toTrees) :
    request.Permitted ∧ ∃ now digest content body user,
      ((∃ io, request.op = .put now digest body io ∧ s.uploads request.uploadId = some content) ∨
        (∃ io, request.op = .postWhole now digest body io ∧ content = [])) ∧
      digest = sha.digest (content ++ body.appended) ∧
      applyActions s.db.toTrees (uploadActions now s.id request.repository digest
        (content ++ body.appended).length user) =
          some (s.handle sha request).2.db.toTrees := by
  by_cases hpermitted : request.Permitted
  case neg =>
    rw [(handle_of_not_permitted hpermitted s rfl).2] at h
    exact absurd rfl h
  refine ⟨hpermitted, ?_⟩
  obtain ⟨token, repository, uploadId, op⟩ := request
  cases op with
  | post created =>
    have hpush : token.hasPermission repository "push" = true := hpermitted
    simp only [Local.handle, Local.post, authorized_of_hasPermission hpush] at h
    split at h <;> exact absurd rfl h
  | postWhole now digest body io =>
    have hpush : token.hasPermission repository "push" = true := hpermitted
    simp only [Local.handle, Local.postWhole, authorized_of_hasPermission hpush] at h ⊢
    obtain ⟨-, hsame | ⟨hdigest, htrees⟩⟩ := finish_snd s sha now token.sub repository uploadId []
      digest body io
    · exact absurd hsame h
    · exact ⟨now, digest, [], body, token.sub, .inr ⟨io, rfl, rfl⟩, hdigest, htrees⟩
  | patch contentRange body sized stat =>
    rcases hpatch : s.patch token repository uploadId contentRange body sized stat with ⟨reply, t⟩
    simp only [Local.handle, hpatch] at h
    rcases patch_cases hpatch with ⟨rfl, -⟩ | ⟨-, content, -, rfl, -⟩
    · exact absurd rfl h
    · exact absurd rfl h
  | put now digest body io =>
    have hpush : token.hasPermission repository "push" = true := hpermitted
    simp only [Local.handle, Local.put, authorized_of_hasPermission hpush] at h ⊢
    split at h
    · exact absurd rfl h
    · rename_i halgo
      rw [if_neg halgo]
      split at h
      · exact absurd rfl h
      · rename_i content hcontent
        obtain ⟨-, hsame | ⟨hdigest, htrees⟩⟩ := finish_snd s sha now token.sub repository uploadId
          content digest body io
        · exact absurd hsame h
        · exact ⟨now, digest, content, body, token.sub, .inl ⟨io, rfl, hcontent⟩, hdigest, htrees⟩
  | get stat =>
    have hpull : token.hasPermission repository "pull" = true := hpermitted
    simp only [Local.handle, Local.get, authorized_of_hasPermission hpull] at h
    split at h
    · exact absurd rfl h
    · split at h <;> exact absurd rfl h
  | delete removed =>
    have hpush : token.hasPermission repository "push" = true := hpermitted
    simp only [Local.handle, Local.delete, authorized_of_hasPermission hpush] at h
    split at h
    · exact absurd rfl h
    · split at h <;> exact absurd rfl h

/-- A session that was not there before comes from a POST that may push. -/
theorem handle_opens {request : UploadRequest} {u : String} (hs : s.uploads u = none)
    (h : (s.handle sha request).2.uploads u ≠ none) :
    request.uploadId = u ∧ request.op.isPost ∧
      request.token.hasPermission request.repository "push" = true := by
  by_cases hu : u = request.uploadId
  case neg =>
    rw [(handle_of_ne hu none).2] at h
    exact absurd hs h
  by_cases hpermitted : request.Permitted
  case neg =>
    rw [(handle_of_not_permitted hpermitted s rfl).2] at h
    exact absurd hs h
  obtain ⟨token, repository, uploadId, op⟩ := request
  subst hu
  refine ⟨rfl, ?_⟩
  cases op with
  | post created => exact ⟨rfl, hpermitted⟩
  | postWhole now digest body io => exact ⟨rfl, hpermitted⟩
  | patch contentRange body sized stat =>
    rcases hpatch : s.patch token repository u contentRange body sized stat with ⟨reply, t⟩
    simp only [Local.handle, hpatch] at h
    rcases patch_cases hpatch with ⟨rfl, -⟩ | ⟨-, content, hcontent, -⟩
    · exact absurd hs h
    · rw [hs] at hcontent
      cases hcontent
  | put now digest body io =>
    have hpush : token.hasPermission repository "push" = true := hpermitted
    simp only [Local.handle, Local.put, authorized_of_hasPermission hpush, hs] at h
    split at h <;> exact absurd hs h
  | get stat =>
    have hpull : token.hasPermission repository "pull" = true := hpermitted
    simp only [Local.handle, Local.get, authorized_of_hasPermission hpull, hs] at h
    exact absurd hs h
  | delete removed =>
    have hpush : token.hasPermission repository "push" = true := hpermitted
    simp only [Local.handle, Local.delete, authorized_of_hasPermission hpush, hs] at h
    exact absurd hs h

end

/-! ### Runs -/

/-- Every session of a run was opened by a POST of the run that may push. -/
theorem opened_of_run {sha : Sha256} {id : RegistryNodeId} {requests : List UploadRequest}
    {s : Local} {u : String} (h : (uploading sha id).run (uploading sha id).init requests = some s)
    (hu : s.uploads u ≠ none) :
    ∃ request ∈ requests, request.uploadId = u ∧ request.op.isPost ∧
      request.token.hasPermission request.repository "push" = true := by
  induction requests using List.reverseRecOn generalizing s with
  | nil =>
    obtain rfl : (uploading sha id).init = s := by simpa using h
    exact absurd rfl hu
  | append_singleton requests request ih =>
    obtain ⟨m, hm, hstep⟩ := (uploading sha id).run_snoc_some h
    by_cases hold : m.uploads u = none
    · simp only [uploading] at hstep
      split at hstep
      · cases hstep
      · cases hstep
        exact ⟨request, by simp, handle_opens hold hu⟩
    · obtain ⟨request', hmem, hopened⟩ := ih hm hold
      exact ⟨request', List.mem_append_left _ hmem, hopened⟩

/-- SESSIONS ARE GUARDED by their upload ids: in every run every session was opened by a POST with
    the right to push; whoever reads or changes it names its upload id, and has the permission that
    the handler demands on the repository of the request; and what is recorded goes to the repository
    of the PUT, or of the POST that brings the blob whole. -/
theorem session_guarded {sha : Sha256} {id : RegistryNodeId} {requests : List UploadRequest}
    {s : Local} (h : (uploading sha id).run (uploading sha id).init requests = some s) :
    (∀ u, s.uploads u ≠ none → ∃ request ∈ requests, request.uploadId = u ∧ request.op.isPost ∧
      request.token.hasPermission request.repository "push" = true) ∧
    (∀ request u content,
      ((s.handle sha request).2.uploads u ≠ s.uploads u ∨
        ((s.setUpload u content).handle sha request).1 ≠ (s.handle sha request).1) →
      request.uploadId = u ∧ request.Permitted) ∧
    (∀ request, (s.handle sha request).2.db.toTrees ≠ s.db.toTrees →
      request.Permitted ∧ ∃ now digest content body user,
        ((∃ io, request.op = .put now digest body io ∧ s.uploads request.uploadId = some content) ∨
          (∃ io, request.op = .postWhole now digest body io ∧ content = [])) ∧
        digest = sha.digest (content ++ body.appended) ∧
        applyActions s.db.toTrees (uploadActions now s.id request.repository digest
          (content ++ body.appended).length user) =
            some (s.handle sha request).2.db.toTrees) := by
  refine ⟨fun u hu => opened_of_run h hu, ?_, fun request => handle_records⟩
  intro request u content htouched
  have hpermitted : request.Permitted := by
    by_contra hnot
    have hsilent : ((s.setUpload u content).handle sha request).1 = (s.handle sha request).1 ∧
        (s.handle sha request).2 = s := handle_of_not_permitted hnot (s.setUpload u content) rfl
    obtain ⟨hanswer, hstate⟩ := hsilent
    rcases htouched with hchanged | hread
    · rw [hstate] at hchanged
      exact hchanged rfl
    · exact hread hanswer
  refine ⟨?_, hpermitted⟩
  by_contra hne
  have hother : ((s.setUpload u content).handle sha request).1 = (s.handle sha request).1 ∧
      (s.handle sha request).2.uploads u = s.uploads u :=
    handle_of_ne (fun hu => hne hu.symm) content
  obtain ⟨hanswer, hstate⟩ := hother
  rcases htouched with hchanged | hread
  · exact hchanged hstate
  · exact hread hanswer

/-! ### A session that is finished in another repository -/

/-- Whoever reads or changes a session does so under the repository of the POST that opened it. -/
def Confined (sha : Sha256) (id : RegistryNodeId) : Prop :=
  ∀ (xs ys : List UploadRequest) (opening request : UploadRequest) (s : Local)
    (content : Option Bytes),
    (uploading sha id).run (uploading sha id).init (xs ++ opening :: ys) = some s →
    opening.op = .post true → opening.Permitted →
    (∀ y ∈ ys, y.uploadId = opening.uploadId → y.op.isPost = false) →
    ((s.handle sha request).2.uploads opening.uploadId ≠ s.uploads opening.uploadId ∨
      ((s.setUpload opening.uploadId content).handle sha request).1 ≠
        (s.handle sha request).1) →
    request.repository = opening.repository

/-- Alice opens a session under `library/a`. -/
def aliceOpens : UploadRequest :=
  ⟨tokenFor [⟨⟨"library/a"⟩, {"pull", "push"}⟩], ⟨"library/a"⟩, "u1", .post true⟩

/-- She sends `hello`. -/
def alicePatches : UploadRequest :=
  ⟨tokenFor [⟨⟨"library/a"⟩, {"pull", "push"}⟩], ⟨"library/a"⟩, "u1",
    .patch none (Body.of ["hello".toUTF8.toList]) true true⟩

/-- Somebody who may push to `library/b` only finishes it there. -/
def finishedInB : UploadRequest :=
  ⟨tokenFor [⟨⟨"library/b"⟩, {"pull", "push"}⟩], ⟨"library/b"⟩, "u1",
    .put (ticking 10) helloDigest (Body.of [", world".toUTF8.toList]) .ok⟩

theorem session_guarded_alice : ∃ s,
    (uploading helloSha 1).run (uploading helloSha 1).init [aliceOpens, alicePatches] = some s ∧
      finishedInB.Permitted ∧
      ∃ request ∈ [aliceOpens, alicePatches], request.uploadId = "u1" ∧
        request.token.hasPermission request.repository "push" = true := by
  have hrun : ((uploading helloSha 1).run (uploading helloSha 1).init
      [aliceOpens, alicePatches]).map (fun s => decide (s.uploads "u1" ≠ none ∧
        (s.handle helloSha finishedInB).2.uploads "u1" ≠ s.uploads "u1")) = some true := by
    decide +kernel
  obtain ⟨s, hs, hfacts⟩ := Option.map_eq_some_iff.mp hrun
  obtain ⟨hsession, hchanged⟩ := of_decide_eq_true hfacts
  obtain ⟨hopened, htouched, -⟩ := session_guarded hs
  obtain ⟨request, hmem, hid, -, hpush⟩ := hopened "u1" hsession
  exact ⟨s, hs, (htouched finishedInB "u1" none (.inl hchanged)).2, request, hmem, hid, hpush⟩

/-- The bytes of a session of `library/a` become a blob of `library/b`. -/
theorem finished_elsewhere :
    ¬ Confined helloSha 1 ∧
      ((uploading helloSha 1).run (uploading helloSha 1).init
        [aliceOpens, alicePatches, finishedInB]).bind (fun s =>
          s.db.blobs[helloDigest]?.map fun blob => blob.repositories) = some {⟨"library/b"⟩} ∧
      finishedInB.token.hasPermission ⟨"library/a"⟩ "push" = false := by
  refine ⟨?_, by decide +kernel, by decide +kernel⟩
  intro h
  have hrun : ((uploading helloSha 1).run (uploading helloSha 1).init
      [aliceOpens, alicePatches]).map (fun s => decide
        ((s.handle helloSha finishedInB).2.uploads "u1" ≠ s.uploads "u1")) = some true := by
    decide +kernel
  obtain ⟨s, hs, hfacts⟩ := Option.map_eq_some_iff.mp hrun
  have hpermitted : aliceOpens.token.hasPermission ⟨"library/a"⟩ "push" = true := by
    decide +kernel
  have hrepository := h [] [alicePatches] aliceOpens finishedInB s none hs rfl hpermitted
    (by decide +kernel) (.inl (of_decide_eq_true hfacts))
  exact absurd hrepository (by decide +kernel)

end Distribd.Registry
