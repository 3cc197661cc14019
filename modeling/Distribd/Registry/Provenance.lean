import Distribd.Registry.Requests

/-! How a blob gets to a repository. GET and HEAD of a blob answer 200 to a token with `pull` on a
    repository that the record has (`pull_of_status`). The record has it because some transaction
    mounted it there: that of an upload, whose file had the digest and whose token could push, or
    that of a mount, whose token could push here and pull from another repository that the record
    had at the time. The other repository has an earlier past of the same kind, so every past goes
    back to an upload (`provenance_of_mounted`, by induction on the length of the run). Collections
    and removed and recreated records do not matter: an action that adds a repository to a record
    stays in the log. -/

namespace Distribd.Registry
open Schemes Store Cluster

/-! ### The past of a blob in a repository -/

/-- The event uploads a file with the digest into the repository, with the right to push there. -/
def Uploaded (sha : Sha256) (e : Event) (sub : Submission) (r : RepositoryName) (d : Digest) :
    Prop :=
  ∃ request id n u, e = .http request ∧ sub.request = .upload id r d n u ∧
    request.token.hasPermission r "push" ∧
    ∃ bytes ∈ request.found.file.content, sha.digest bytes = d

/-- The event mounts the blob from another repository, with the right to push here and to pull from
    there, when the record that it sees has the other repository. -/
def MountedFrom (m : State) (e : Event) (sub : Submission) (source r : RepositoryName)
    (d : Digest) : Prop :=
  ∃ request db u, e = .http request ∧ sub.request = .mount r source d u ∧
    request.token.hasPermission r "push" ∧ request.token.hasPermission source "pull" ∧
    dbAt m request.readAt = some db ∧ ∃ blob ∈ db.blobs[d]?, source ∈ blob.repositories

/-- A chain of committed requests among the events `es` that ends with the blob in the repository:
    an upload, and then mounts, each after the chain of its source. -/
inductive Provenance (sha : Sha256) : List Event → RepositoryName → Digest → Prop
  | uploaded {xs es : List Event} {m : State} {e : Event} {sub : Submission} {r : RepositoryName}
      {d : Digest} (sent : SentBy sha xs m e sub) (upload : Uploaded sha e sub r d)
      (commit : CommittedAfter sha (xs ++ [e]) es sub) : Provenance sha es r d
  | mounted {xs es : List Event} {m : State} {e : Event} {sub : Submission}
      {source r : RepositoryName} {d : Digest} (sent : SentBy sha xs m e sub)
      (mount : MountedFrom m e sub source r d) (commit : CommittedAfter sha (xs ++ [e]) es sub)
      (before : Provenance sha xs source d) : Provenance sha es r d

/-- A transaction that has committed was handed in earlier. -/
theorem CommittedAfter.length_lt {sha : Sha256} {xs es : List Event} {e : Event} {sub : Submission}
    (h : CommittedAfter sha (xs ++ [e]) es sub) : xs.length < es.length := by
  obtain ⟨ys, i, leader, zs, t, rfl, -⟩ := h
  simp

/-- Every mount of a blob in the log has a past. -/
theorem provenance_of_mounted {sha : Sha256} {es : List Event} {s : State} {a : RegistryAction}
    {ts : DateTime} {r : RepositoryName} {d : Digest}
    (h : (registry sha).run (registry sha).init es = some s) (ha : a ∈ actionsOf s.log)
    (hhalf : a.half .blob = some (.mounted ts d r)) : Provenance sha es r d := by
  induction hn : es.length using Nat.strong_induction_on generalizing es s a ts r with
  | _ n ih =>
    obtain ⟨xs, m, e, sub, hsent, hmem, hcommit⟩ := (run_accounted h).log a ha
    obtain ⟨hmount, request, db, rfl, hdb, hperm⟩ := permitted_of_mounted hsent hmem hhalf
    rcases hmount.cases with ⟨id, n', u, -, hreq⟩ | ⟨source, u, -, hreq⟩ |
      ⟨id, t, n', x, u, hkind, -⟩
    · rw [hreq] at hperm
      exact .uploaded hsent ⟨request, id, n', u, rfl, hreq, hperm.1, hperm.2⟩ hcommit
    · -- the source had the blob before
      rw [hreq] at hperm
      obtain ⟨hpush, hpull, blob, hblob, hmem⟩ := hperm
      obtain ⟨b, hb, ts', hhalf'⟩ := mounted_of_mem_repositories (k := .blob) hdb hblob hmem
      have hlt : xs.length < n := hn ▸ hcommit.length_lt
      exact .mounted hsent ⟨request, db, u, rfl, hreq, hpush, hpull, hdb, blob, hblob, hmem⟩ hcommit
        (ih xs.length hlt hsent.1 hb hhalf' rfl)
    · cases hkind

/-! ### Who gets a blob -/

theorem refuse_status_ne (e : RegistryError) : (refuse e).status ≠ 200 := by
  cases e <;> simp [refuse, Reply.status, RegistryError.statusCode]

/-- What an answer of 200 says. -/
theorem pull_of_status {app : App} {token : Token} {k : Kind} {r : RepositoryName} {d : Digest}
    (h : (authorized app token r (pull app k r d)).status = 200) :
    token.validatedToken = true ∧ token.hasPermission r "pull" = true ∧
      ∃ o ∈ (app.trees.tree k)[d]?, r ∈ o.repositories := by
  unfold authorized at h
  split at h
  · exact absurd h (refuse_status_ne _)
  · rename_i hvalid
    split at h
    · rename_i hpull
      unfold pull at h
      split at h
      · exact absurd h (refuse_status_ne _)
      · rename_i o ho
        split at h
        · rename_i hmem
          exact ⟨Bool.eq_true_of_not_eq_false hvalid, hpull, o, ho, hmem⟩
        · exact absurd h (refuse_status_ne _)
    · exact absurd h (refuse_status_ne _)

/-- BLOB ACCESS HAS A PROVENANCE: after every run, whoever gets a blob from a repository may pull
    from it, the record has the repository, and the blob came there by committed requests that go
    back to an upload of its content. -/
theorem provenance_of_status {sha : Sha256} {es : List Event} {s : State} {request : HttpRequest}
    {db : Db} {r : RepositoryName} {d : Digest}
    (h : (registry sha).run (registry sha).init es = some s)
    (hdb : dbAt s request.readAt = some db)
    (hstatus : (Blobs.get (request.app db) request.token r d).status = 200 ∨
      (Blobs.head (request.app db) request.token r d).status = 200) :
    request.token.validatedToken = true ∧ request.token.hasPermission r "pull" = true ∧
      (∃ blob ∈ db.blobs[d]?, r ∈ blob.repositories) ∧ Provenance sha es r d := by
  have hpulled : (authorized (request.app db) request.token r
      (pull (request.app db) .blob r d)).status = 200 := by
    rcases hstatus with hget | hhead
    · exact hget
    · exact hhead
  obtain ⟨hvalid, hpull, blob, hblob, hmem⟩ := pull_of_status hpulled
  obtain ⟨a, ha, ts, hhalf⟩ := mounted_of_mem_repositories (k := .blob) hdb hblob hmem
  exact ⟨hvalid, hpull, ⟨blob, hblob, hmem⟩, provenance_of_mounted h ha hhalf⟩

/-! ### A blob that is uploaded and mounted -/

/-- A token of a token server. -/
def tokenFor (access : List Access) : Token where
  access := access
  sub := "alice"
  validatedToken := true
  admin := false
  realm := none
  service := none
  configured := validated_configured

/-- What a request with the content finds on its node. -/
def foundWith (content : List UInt8) : Found where
  isFile _ _ := true
  order := .ascending
  file := ⟨true, some content, none, some content.length, true⟩
  opened := true
  contentType := none
  extractor := imageEnv []

/-- The blob is uploaded into `library/a` on node 1 and mounted into `library/b` on node 2. -/
def uploadThenMount : List Event :=
  [.membership ⟨1, 1⟩ twoNodes,
   .http ⟨1, 1, ticking 10, tokenFor [⟨⟨"library/a"⟩, {"pull", "push"}⟩],
    .postUpload ⟨"library/a"⟩ none none (some ("sha256:" ++ helloDigest.hash)),
    foundWith "hello, world".toUTF8.toList⟩,
   .commit 0 ⟨1, 1⟩,
   .http ⟨2, 2, ticking 20, tokenFor [⟨⟨"library/a"⟩, {"pull"}⟩, ⟨⟨"library/b"⟩, {"pull", "push"}⟩],
    .postUpload ⟨"library/b"⟩ (some ("sha256:" ++ helloDigest.hash)) (some ⟨"library/a"⟩) none,
    foundWith []⟩,
   .commit 0 ⟨1, 1⟩]

/-- A GET of the blob from `library/b`. -/
def getMounted : HttpRequest :=
  ⟨2, 3, ticking 30, tokenFor [⟨⟨"library/b"⟩, {"pull"}⟩],
    .getBlob ⟨"library/b"⟩ ("sha256:" ++ helloDigest.hash), foundWith []⟩

theorem provenance_of_status_getMounted :
    ∃ s db, (registry helloSha).run (registry helloSha).init uploadThenMount = some s ∧
      dbAt s getMounted.readAt = some db ∧
      Provenance helloSha uploadThenMount ⟨"library/b"⟩ helloDigest := by
  have hfacts : ((registry helloSha).run (registry helloSha).init uploadThenMount).bind (fun s =>
      (dbAt s getMounted.readAt).map fun db => decide ((Blobs.get (getMounted.app db)
        getMounted.token ⟨"library/b"⟩ helloDigest).status = 200)) = some true := by
    decide +kernel
  obtain ⟨s, hs, hrest⟩ := Option.bind_eq_some_iff.mp hfacts
  obtain ⟨db, hdb, hstatus⟩ := Option.map_eq_some_iff.mp hrest
  exact ⟨s, db, hs, hdb,
    (provenance_of_status hs hdb (.inl (of_decide_eq_true hstatus))).2.2.2⟩

end Distribd.Registry
