import Distribd.Store.Journal
import Distribd.Cluster.Effects
import Distribd.Registry.Write

/-! The requests of the registry port over the cluster. `registry` is the machine of `cluster` in
    which every transaction comes from a handler that has let a request through, from the mirror
    after a download with the right digest, or from the collector; a commit is an event of its own,
    so requests overlap as they like. A node answers on the part of the log that it has applied. The
    digests of a request come as text. `/import` and the other endpoints of the raft port that write
    are left out.

    Every action of the log was in a transaction that an event of the run handed in and another one
    committed (`run_accounted`). Records come from mounts, and mounts from requests that have what
    they need (`mounted_of_record`, `permitted_of_mounted`). -/

namespace Distribd.Registry
open Schemes Store Cluster
open Node (Bytes)

/-! ### Routing -/

/-- A request as it is routed. -/
inductive Call where
  | getBlob (repository : RepositoryName) (digest : String)
  | headBlob (repository : RepositoryName) (digest : String)
  | getManifest (repository : RepositoryName) (digest : String)
  | headManifest (repository : RepositoryName) (digest : String)
  | getManifestByTag (repository : RepositoryName) (tag : String)
  | headManifestByTag (repository : RepositoryName) (tag : String)
  /-- The two endpoints for peers. -/
  | peer (kind : Kind) (digest : String)
  | postUpload (repository : RepositoryName) (mount : Option String)
      (source : Option RepositoryName) (digest : Option String)
  | putUpload (repository : RepositoryName) (digest : String)
  | putManifest (repository : RepositoryName) (tag : String)
  | deleteBlob (repository : RepositoryName) (digest : String)
  | deleteManifest (repository : RepositoryName) (digest : String)
  | deleteManifestByTag (repository : RepositoryName) (tag : String)

/-- The repository of a call. -/
def Call.repository : Call → Option RepositoryName
  | .getBlob r _ | .headBlob r _ | .getManifest r _ | .headManifest r _ | .getManifestByTag r _
  | .headManifestByTag r _ | .postUpload r .. | .putUpload r _ | .putManifest r _ | .deleteBlob r _
  | .deleteManifest r _ | .deleteManifestByTag r _ => some r
  | .peer .. => none

/-- What a request finds on its node and brings with it, besides its token. -/
structure Found where
  isFile : Kind → Digest → Bool
  order : Iteration String
  file : UploadFile
  /-- The session file can be created, or is there. -/
  opened : Bool
  contentType : Option String
  extractor : ExtractEnv

/-- What a handler answers when it goes through. -/
inductive Response where
  | served (served : Served)
  | accepted (accepted : Accepted)

/-- The answer of a handler as the answer to a call. -/
def Reply.as {α : Type} (f : α → Response) (reply : Reply α) : Reply Response :=
  ⟨reply.result.map f, reply.paths⟩

/-- An optional digest of a query; `none`: it does not parse. -/
def parseOptional : Option String → Option (Option Digest)
  | some text => (Digest.tryFrom text).map some
  | none => some none

/-- The answer to a call; `none`: its digest does not parse, and no handler runs, or the handler
    panics. -/
def handle (app : App) (sha : Sha256) (token : Token) (found : Found) :
    Call → Option (Reply Response)
  | .getBlob r d => (Digest.tryFrom d).map fun d => (Blobs.get app token r d).as .served
  | .headBlob r d => (Digest.tryFrom d).map fun d => (Blobs.head app token r d).as .served
  | .getManifest r d => (Digest.tryFrom d).map fun d => (Manifests.get app token r d).as .served
  | .headManifest r d => (Digest.tryFrom d).map fun d => (Manifests.head app token r d).as .served
  | .getManifestByTag r t => some ((Manifests.getByTag app token r t).as .served)
  | .headManifestByTag r t => some ((Manifests.headByTag app token r t).as .served)
  | .peer .blob d => (Digest.tryFrom d).map fun d => (Network.getBlob app d).as .served
  | .peer .manifest d => (Digest.tryFrom d).map fun d => (Network.getManifest app d).as .served
  | .postUpload r mount source digest =>
    (parseOptional mount).bind fun mount => (parseOptional digest).map fun digest =>
      (Uploads.post app sha token r ⟨mount, source, digest⟩ found.file found.opened).as .accepted
  | .putUpload r d => (Digest.tryFrom d).map fun d =>
      (Uploads.put app sha token r d found.file found.opened).as .accepted
  | .putManifest r t =>
    (Manifests.put app sha found.extractor token r t found.contentType found.file).map
      (·.as .accepted)
  | .deleteBlob r d => (Digest.tryFrom d).map fun d => (Blobs.delete app token r d).as .accepted
  | .deleteManifest r d =>
    (Digest.tryFrom d).map fun d => (Manifests.delete app token r d).as .accepted
  | .deleteManifestByTag r t => some ((Manifests.deleteByTag app token r t).as .accepted)

/-! ### The machine -/

/-- A request on a node that has applied the first `readAt` entries. -/
structure HttpRequest where
  node : RegistryNodeId
  readAt : ℕ
  now : Clock
  token : Token
  call : Call
  found : Found

/-- What can happen. -/
inductive Event where
  | http (request : HttpRequest)
  /-- The mirror of a node has downloaded a content and compares its digest. -/
  | mirror (kind : Kind) (id : RegistryNodeId) (digest : Digest) (content : Bytes) (now : Clock)
      (readAt : ℕ)
  | phase1 (sweep : Sweep) (now : Clock) (readAt : ℕ)
  | phase2 (sweep : Sweep) (id : RegistryNodeId) (now : Clock) (readAt : ℕ)
  /-- A walk that is under way comes to one more dependency, on a state of its own. -/
  | visit (extractor : ExtractEnv) (repository : RepositoryName) (walk : Walk)
      (extraction : Extraction) (readAt : ℕ)
  | commit (i : ℕ) (leader : LeaderId)
  | lose (i : ℕ)
  | blank (leader : LeaderId)
  | membership (leader : LeaderId) (membership : Membership)

/-- The database of a node that has applied the first `readAt` entries. -/
def dbAt (s : State) (readAt : ℕ) : Option Db :=
  if readAt ≤ s.log.length then replay (s.log.take readAt) else none

/-- What the handler of a request sees. -/
def HttpRequest.app (request : HttpRequest) (db : Db) : App :=
  ⟨request.node, db.toTrees, request.found.isFile, request.found.order⟩

/-- The answer to a request. -/
def HttpRequest.reply (sha : Sha256) (s : State) (request : HttpRequest) :
    Option (Reply Response) :=
  (dbAt s request.readAt).bind fun db =>
    handle (request.app db) sha request.token request.found request.call

/-- The request that an answer hands to `consistent_write`. -/
def Reply.submitted (reply : Reply Response) : Option Request :=
  match reply.result with
  | .ok (.accepted (.submits request)) => some request
  | _ => none

/-- What an event submits, when it does, and on how much of the log it decides. -/
def submission (sha : Sha256) (s : State) : Event → Option (Request × Clock × ℕ)
  | .http request =>
    ((request.reply sha s).bind Reply.submitted).map fun req => (req, request.now, request.readAt)
  | .mirror k id d content now readAt =>
    if sha.digest content = d then some (.mirror k id d, now, readAt) else none
  | .phase1 w now readAt => some (.phase1 w, now, readAt)
  | .phase2 w id now readAt => some (.phase2 w id, now, readAt)
  | _ => none

/-- One event. -/
def registryStep (sha : Sha256) (s : State) (e : Event) : Option State :=
  match e with
  | .commit i leader => clusterStep s (.commit i leader)
  | .lose i => clusterStep s (.lose i)
  | .blank leader => clusterStep s (.blank leader)
  | .membership leader mem => clusterStep s (.membership leader mem)
  | e =>
    match submission sha s e with
    | some (req, now, readAt) => clusterStep s (.submit req now readAt)
    | none => some s

/-- The registry, from the empty state. -/
def registry (sha : Sha256) : Machine State Event := ⟨cluster.init, registryStep sha⟩

/-- What one event does to the log and to the transactions under way. -/
theorem registryStep_cases {sha : Sha256} {s s' : State} {e : Event}
    (h : registryStep sha s e = some s') :
    (∃ sub now db, submission sha s e = some (sub.request, now, sub.readAt) ∧
      dbAt s sub.readAt = some db ∧ sub.request.transaction now db = some sub.actions ∧
      s' = ⟨s.log, s.underWay ++ [sub]⟩) ∨
    (∃ i leader sub, e = .commit i leader ∧ s.underWay[i]? = some sub ∧
      s' = ⟨s.log ++ [nextEntry s.log leader (.normal (.transaction sub.actions))],
        s.underWay.eraseIdx i⟩) ∨
    (∃ i, s' = ⟨s.log, s.underWay.eraseIdx i⟩) ∨
    (∃ entry, entry.actions = [] ∧ s' = ⟨s.log ++ [entry], s.underWay⟩) ∨ s' = s := by
  cases e
  case commit i leader =>
    obtain ⟨sub, hsub, rfl⟩ := Option.map_eq_some_iff.mp h
    exact .inr (.inl ⟨i, leader, sub, rfl, hsub, rfl⟩)
  case lose i =>
    simp only [registryStep, clusterStep] at h
    split at h
    · cases h
      exact .inr (.inr (.inl ⟨i, rfl⟩))
    · cases h
  case blank leader =>
    cases h
    exact .inr (.inr (.inr (.inl ⟨_, rfl, rfl⟩)))
  case membership leader mem =>
    cases h
    exact .inr (.inr (.inr (.inl ⟨_, rfl, rfl⟩)))
  all_goals
    simp only [registryStep] at h
    split at h
    · rename_i req now readAt hsub
      simp only [clusterStep] at h
      split at h
      · rename_i hle
        obtain ⟨db, hdb, h⟩ := Option.bind_eq_some_iff.mp h
        obtain ⟨actions, hactions, rfl⟩ := Option.map_eq_some_iff.mp h
        refine .inl ⟨⟨req, readAt, actions⟩, now, db, hsub, ?_, hactions, rfl⟩
        rw [dbAt, if_pos hle]
        exact hdb
      · cases h
    · exact .inr (.inr (.inr (.inr (Option.some.inj h).symm)))

/-! ### Where the log comes from -/

/-- After the events `xs`, in `m`, the event `e` hands in the transaction. -/
def SentBy (sha : Sha256) (xs : List Event) (m : State) (e : Event) (sub : Submission) : Prop :=
  (registry sha).run (registry sha).init xs = some m ∧
    ∃ now db, submission sha m e = some (sub.request, now, sub.readAt) ∧
      dbAt m sub.readAt = some db ∧ sub.request.transaction now db = some sub.actions

/-- Among the events `es`, which begin with `xs`, is the commit of the transaction. -/
def CommittedAfter (sha : Sha256) (xs es : List Event) (sub : Submission) : Prop :=
  ∃ ys i leader zs t, es = xs ++ ys ++ .commit i leader :: zs ∧
    (registry sha).run (registry sha).init (xs ++ ys) = some t ∧ t.underWay[i]? = some sub

theorem CommittedAfter.append {sha : Sha256} {xs es : List Event} {sub : Submission}
    (h : CommittedAfter sha xs es sub) (fs : List Event) : CommittedAfter sha xs (es ++ fs) sub := by
  obtain ⟨ys, i, leader, zs, t, rfl, hrun, hsub⟩ := h
  exact ⟨ys, i, leader, zs ++ fs, t, by simp, hrun, hsub⟩

/-- Every transaction under way was handed in by an event of the run, and every action of the log
    was in a transaction that was handed in and committed. -/
structure Accounted (sha : Sha256) (es : List Event) (s : State) : Prop where
  underWay : ∀ sub ∈ s.underWay, ∃ xs m e ys, es = xs ++ e :: ys ∧ SentBy sha xs m e sub
  log : ∀ a ∈ actionsOf s.log, ∃ xs m e sub, SentBy sha xs m e sub ∧ a ∈ sub.actions ∧
    CommittedAfter sha (xs ++ [e]) es sub

/-- One more event keeps the account. -/
theorem accounted_snoc {sha : Sha256} {es : List Event} {s s' : State} {e : Event}
    (hrun : (registry sha).run (registry sha).init es = some s) (hs : Accounted sha es s)
    (h : registryStep sha s e = some s') : Accounted sha (es ++ [e]) s' := by
  have hunder : ∀ sub ∈ s.underWay,
      ∃ xs m f ys, es ++ [e] = xs ++ f :: ys ∧ SentBy sha xs m f sub := by
    intro sub hsub
    obtain ⟨xs, m, f, ys, rfl, hsent⟩ := hs.underWay sub hsub
    exact ⟨xs, m, f, ys ++ [e], by simp, hsent⟩
  have hlog : ∀ a ∈ actionsOf s.log, ∃ xs m f sub, SentBy sha xs m f sub ∧ a ∈ sub.actions ∧
      CommittedAfter sha (xs ++ [f]) (es ++ [e]) sub := by
    intro a ha
    obtain ⟨xs, m, f, sub, hsent, hmem, hcommit⟩ := hs.log a ha
    exact ⟨xs, m, f, sub, hsent, hmem, hcommit.append [e]⟩
  rcases registryStep_cases h with ⟨sub, now, db, hsub, hdb, hactions, rfl⟩ |
    ⟨i, leader, sub, rfl, hsub, rfl⟩ | ⟨i, rfl⟩ | ⟨entry, hnone, rfl⟩ | rfl
  · refine ⟨?_, hlog⟩
    intro sub' hmem
    rcases List.mem_append.mp hmem with hmem | hmem
    · exact hunder sub' hmem
    · obtain rfl := List.mem_singleton.mp hmem
      exact ⟨es, s, e, [], rfl, hrun, now, db, hsub, hdb, hactions⟩
  · refine ⟨fun sub' hmem => hunder sub' (List.mem_of_mem_eraseIdx hmem), ?_⟩
    intro a ha
    rw [actionsOf, List.flatMap_append] at ha
    rcases List.mem_append.mp ha with ha | ha
    · exact hlog a ha
    · -- the entry that the event commits
      obtain ⟨xs, m, f, ys, rfl, hsent⟩ := hs.underWay sub (List.mem_of_getElem? hsub)
      refine ⟨xs, m, f, sub, hsent, by simpa [actionsOf, nextEntry, Entry.actions] using ha, ?_⟩
      exact ⟨ys, i, leader, [], s, by simp, by simpa using hrun, hsub⟩
  · exact ⟨fun sub' hmem => hunder sub' (List.mem_of_mem_eraseIdx hmem), hlog⟩
  · refine ⟨hunder, ?_⟩
    intro a ha
    rw [actionsOf, List.flatMap_append] at ha
    rcases List.mem_append.mp ha with ha | ha
    · exact hlog a ha
    · simp [hnone] at ha
  · exact ⟨hunder, hlog⟩

/-- THE LOG IS ACCOUNTED FOR in every run. -/
theorem run_accounted {sha : Sha256} {es : List Event} {s : State}
    (h : (registry sha).run (registry sha).init es = some s) : Accounted sha es s := by
  induction es using List.reverseRecOn generalizing s with
  | nil =>
    obtain rfl : (registry sha).init = s := by simpa using h
    refine ⟨?_, ?_⟩
    · intro sub hsub
      cases hsub
    · intro a ha
      cases ha
  | append_singleton es e ih =>
    obtain ⟨m, hm, hstep⟩ := (registry sha).run_snoc_some h
    exact accounted_snoc hm (ih hm) hstep

/-! ### Where records come from -/

theorem submitted_as_served (reply : Reply Served) : (reply.as .served).submitted = none := by
  obtain ⟨result, paths⟩ := reply
  cases result <;> rfl

theorem submitted_as_accepted {reply : Reply Accepted} {req : Request}
    (h : (reply.as .accepted).submitted = some req) : reply.result = .ok (.submits req) := by
  obtain ⟨result, paths⟩ := reply
  cases result with
  | error e => cases h
  | ok accepted =>
    cases accepted with
    | submits req' =>
      cases h
      rfl
    | session => cases h

/-- Every handler checks what its request needs. -/
theorem handle_permitted {app : App} {sha : Sha256} {token : Token} {found : Found} {call : Call}
    {reply : Reply Response} {req : Request} (h : handle app sha token found call = some reply)
    (hreq : reply.submitted = some req) : Permitted app sha token found.file req := by
  have hserved : ∀ {answer : Reply Served}, answer.as .served = reply →
      Permitted app sha token found.file req := by
    rintro answer rfl
    rw [submitted_as_served] at hreq
    cases hreq
  have hread : ∀ {text : String} {answer : Digest → Reply Served},
      (Digest.tryFrom text).map (fun d => (answer d).as .served) = some reply →
        Permitted app sha token found.file req := by
    intro text answer hanswer
    obtain ⟨d, -, hd⟩ := Option.map_eq_some_iff.mp hanswer
    exact hserved hd
  cases call with
  | getBlob r d => exact hread h
  | headBlob r d => exact hread h
  | getManifest r d => exact hread h
  | headManifest r d => exact hread h
  | getManifestByTag r t => exact hserved (Option.some.inj h)
  | headManifestByTag r t => exact hserved (Option.some.inj h)
  | peer k d =>
    cases k
    · exact hread h
    · exact hread h
  | postUpload r mount source digest =>
    obtain ⟨mount, -, h⟩ := Option.bind_eq_some_iff.mp h
    obtain ⟨digest, -, rfl⟩ := Option.map_eq_some_iff.mp h
    exact post_permitted (submitted_as_accepted hreq)
  | putUpload r d =>
    obtain ⟨digest, -, rfl⟩ := Option.map_eq_some_iff.mp h
    exact put_permitted (submitted_as_accepted hreq)
  | putManifest r t =>
    obtain ⟨answer, hanswer, rfl⟩ := Option.map_eq_some_iff.mp h
    exact putManifest_permitted hanswer (submitted_as_accepted hreq)
  | deleteBlob r d =>
    obtain ⟨digest, -, rfl⟩ := Option.map_eq_some_iff.mp h
    exact deleteObject_permitted (submitted_as_accepted hreq)
  | deleteManifest r d =>
    obtain ⟨digest, -, rfl⟩ := Option.map_eq_some_iff.mp h
    exact deleteObject_permitted (submitted_as_accepted hreq)
  | deleteManifestByTag r t =>
    cases h
    exact deleteByTag_permitted (submitted_as_accepted hreq)

/-- The requests that mount objects. -/
def Mounting (k : Kind) (r : RepositoryName) (d : Digest) : Request → Prop
  | .upload _ r' d' _ _ | .mount r' _ d' _ => k = .blob ∧ r' = r ∧ d' = d
  | .put _ r' _ d' _ _ _ => k = .manifest ∧ r' = r ∧ d' = d
  | _ => False

theorem Mounting.cases {k : Kind} {r : RepositoryName} {d : Digest} {req : Request}
    (h : Mounting k r d req) :
    (∃ id n u, k = .blob ∧ req = .upload id r d n u) ∨
      (∃ source u, k = .blob ∧ req = .mount r source d u) ∨
      ∃ id t n x u, k = .manifest ∧ req = .put id r t d n x u := by
  cases req with
  | upload id r' d' n u =>
    obtain ⟨rfl, rfl, rfl⟩ := h
    exact .inl ⟨id, n, u, rfl, rfl⟩
  | mount r' source d' u =>
    obtain ⟨rfl, rfl, rfl⟩ := h
    exact .inr (.inl ⟨source, u, rfl, rfl⟩)
  | put id r' t d' n x u =>
    obtain ⟨rfl, rfl, rfl⟩ := h
    exact .inr (.inr ⟨id, t, n, x, u, rfl, rfl⟩)
  | _ => exact h.elim

/-- A mount in a transaction is that of its request. -/
theorem mounting_of_transaction {now : Clock} {db : Db} {req : Request}
    {actions : List RegistryAction} (h : req.transaction now db = some actions)
    {a : RegistryAction} (ha : a ∈ actions) {k : Kind} {ts : DateTime} {d : Digest}
    {r : RepositoryName} (hhalf : a.half k = some (.mounted ts d r)) : Mounting k r d req := by
  rcases transaction_cases h with ⟨id, r', d', n, u, rfl, rfl⟩ | ⟨r', src, d', u, rfl, rfl⟩ |
    ⟨id, r', t, d', n, x, u, rfl, rfl⟩ | ⟨k', d', r', u, -, rfl⟩ | ⟨k', id, d', rfl, -, rfl⟩ |
    ⟨w, rfl, rfl⟩ | ⟨w, id, rfl, rfl⟩
  · simp only [uploadActions, List.mem_cons, List.not_mem_nil, or_false] at ha
    rcases ha with rfl | rfl | rfl <;> cases k <;> cases hhalf
    exact ⟨rfl, rfl, rfl⟩
  · cases List.mem_singleton.mp ha
    cases k <;> cases hhalf
    exact ⟨rfl, rfl, rfl⟩
  · simp only [putActions, Extracted.actions, List.mem_append, List.mem_cons, List.not_mem_nil,
      or_false, List.mem_mapIdx] at ha
    rcases ha with ((rfl | rfl | rfl) | (rfl | ⟨i, hi, rfl⟩)) | rfl <;> cases k <;> cases hhalf
    exact ⟨rfl, rfl, rfl⟩
  · cases List.mem_singleton.mp ha
    cases k <;> cases k' <;> cases hhalf
  · cases List.mem_singleton.mp ha
    cases k <;> cases k' <;> cases hhalf
  · obtain ⟨k', d', o, r', -, -, -, -, rfl⟩ := mem_phase1 ha
    cases k <;> cases k' <;> cases hhalf
  · obtain ⟨k', d', -, rfl⟩ := mem_phase2 ha
    cases k <;> cases k' <;> cases hhalf

/-- A mount that is handed in comes from a request that has what it needs. -/
theorem permitted_of_mounted {sha : Sha256} {xs : List Event} {m : State} {e : Event}
    {sub : Submission} (h : SentBy sha xs m e sub) {a : RegistryAction} (ha : a ∈ sub.actions)
    {k : Kind} {ts : DateTime} {d : Digest} {r : RepositoryName}
    (hhalf : a.half k = some (.mounted ts d r)) :
    Mounting k r d sub.request ∧ ∃ request db, e = .http request ∧
      dbAt m request.readAt = some db ∧
      Permitted (request.app db) sha request.token request.found.file sub.request := by
  obtain ⟨-, now, db, hsub, hdb, hactions⟩ := h
  have hmount := mounting_of_transaction hactions ha hhalf
  refine ⟨hmount, ?_⟩
  cases e with
  | http request =>
    obtain ⟨req, hreq, heq⟩ := Option.map_eq_some_iff.mp hsub
    obtain ⟨rfl, rfl, hread⟩ :
        req = sub.request ∧ request.now = now ∧ request.readAt = sub.readAt := by
      simpa using heq
    obtain ⟨reply, hreply, hsubmitted⟩ := Option.bind_eq_some_iff.mp hreq
    obtain ⟨db', hdb', hhandle⟩ := Option.bind_eq_some_iff.mp hreply
    exact ⟨request, db', rfl, hdb', handle_permitted hhandle hsubmitted⟩
  | mirror k id d content now readAt =>
    simp only [submission] at hsub
    split at hsub
    · obtain ⟨hreq, -, -⟩ : .mirror k id d = sub.request ∧ _ ∧ _ := by simpa using hsub
      rw [← hreq] at hmount
      exact hmount.elim
    · cases hsub
  | phase1 w now readAt =>
    obtain ⟨hreq, -, -⟩ : .phase1 w = sub.request ∧ _ ∧ _ := by simpa [submission] using hsub
    rw [← hreq] at hmount
    exact hmount.elim
  | phase2 w id now readAt =>
    obtain ⟨hreq, -, -⟩ : .phase2 w id = sub.request ∧ _ ∧ _ := by simpa [submission] using hsub
    rw [← hreq] at hmount
    exact hmount.elim
  | commit i leader => cases hsub
  | lose i => cases hsub
  | blank leader => cases hsub
  | membership leader mem => cases hsub
  | visit env r w e readAt => cases hsub

/-- A repository of a record was mounted by the log. -/
theorem mounted_of_mem_repositories {s : State} {readAt : ℕ} {db : Db}
    (hdb : dbAt s readAt = some db) {k : Kind} {d : Digest} {o : Object}
    (ho : (db.tree k)[d]? = some o) {r : RepositoryName} (hr : r ∈ o.repositories) :
    ∃ a ∈ actionsOf s.log, ∃ ts, a.half k = some (.mounted ts d r) := by
  unfold dbAt at hdb
  split at hdb
  · have hmeaning := applyActions_meaning (replica_run_trees hdb) k d
    obtain ⟨pre, x, post, hops, ⟨ts, rfl⟩, -⟩ := (hmeaning.repositories r).mp ⟨o, ho, hr⟩
    have hmem : ObjectAction.mounted ts d r ∈ halves k (actionsOf (s.log.take readAt)) := by
      rw [hops]
      simp
    obtain ⟨a, ha, hhalf⟩ := List.mem_filterMap.mp hmem
    obtain ⟨entry, hentry, ha⟩ := List.mem_flatMap.mp ha
    exact ⟨a, List.mem_flatMap.mpr ⟨entry, List.mem_of_mem_take hentry, ha⟩, ts, hhalf⟩
  · cases hdb

/-- So was a record, in some repository. -/
theorem mounted_of_record {s : State} {readAt : ℕ} {db : Db} (hdb : dbAt s readAt = some db)
    {k : Kind} {d : Digest} (ho : (db.tree k)[d]? ≠ none) :
    ∃ a ∈ actionsOf s.log, ∃ ts r, a.half k = some (.mounted ts d r) := by
  unfold dbAt at hdb
  split at hdb
  · have hmeaning := applyActions_meaning (replica_run_trees hdb) k d
    obtain ⟨pre, x, post, hops, ⟨r, ts, rfl⟩, -⟩ :=
      hmeaning.isSome.mp (Option.isSome_iff_ne_none.mpr ho)
    have hmem : ObjectAction.mounted ts d r ∈ halves k (actionsOf (s.log.take readAt)) := by
      rw [hops]
      simp
    obtain ⟨a, ha, hhalf⟩ := List.mem_filterMap.mp hmem
    obtain ⟨entry, hentry, ha⟩ := List.mem_flatMap.mp ha
    exact ⟨a, List.mem_flatMap.mpr ⟨entry, List.mem_of_mem_take hentry, ha⟩, ts, r, hhalf⟩
  · cases hdb

end Distribd.Registry
