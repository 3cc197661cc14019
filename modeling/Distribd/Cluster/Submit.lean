import Distribd.Store.Apply
import Distribd.Store.Orphans

/-! Who writes to the log. Every transaction comes from one of a few places: the blob upload
    handlers, the mount branch of the upload POST, the manifest PUT, the three DELETE handlers, the
    mirror worker and the two phases of the garbage collector. Each decides on the state that its
    node has when it looks and hands the transaction to raft; other transactions may commit before
    it does. `Request.transaction` is what each of them sends (tokens and permissions are not
    modelled: a run may contain requests that the handlers would refuse for them).

    `cluster` is the machine of all this. Its state is the committed log and the transactions that
    are under way; a submitter sees the replay of any prefix of the log, since a node may lag. -/

namespace Distribd.Cluster
open Schemes Store

/-! ### The transactions of the handlers -/

/-- The readings of `Utc::now()` by one request, in order. -/
abbrev Clock := ℕ → DateTime

/-- `BlobStored` or `ManifestStored`. -/
def storedAction (now : DateTime) (digest : Digest) (location : RegistryNodeId) (user : String) :
    Kind → RegistryAction
  | .blob => .blobStored now digest location user
  | .manifest => .manifestStored now digest location user

/-- `BlobUnstored` or `ManifestUnstored`. -/
def unstoredAction (now : DateTime) (digest : Digest) (location : RegistryNodeId) (user : String) :
    Kind → RegistryAction
  | .blob => .blobUnstored now digest location user
  | .manifest => .manifestUnstored now digest location user

/-- `BlobUnmounted` or `ManifestUnmounted`. -/
def unmountedAction (now : DateTime) (digest : Digest) (repository : RepositoryName)
    (user : String) : Kind → RegistryAction
  | .blob => .blobUnmounted now digest repository user
  | .manifest => .manifestUnmounted now digest repository user

theorem unstoredAction_half (now : DateTime) (d : Digest) (l : RegistryNodeId) (u : String)
    (k k' : Kind) :
    (unstoredAction now d l u k).half k' = if k = k' then some (.unstored now d l) else none := by
  cases k <;> cases k' <;> rfl

theorem unmountedAction_half (now : DateTime) (d : Digest) (r : RepositoryName) (u : String)
    (k k' : Kind) :
    (unmountedAction now d r u k).half k' = if k = k' then some (.unmounted now d r) else none := by
  cases k <;> cases k' <;> rfl

theorem unstoredAction_not_stored (now : DateTime) (d : Digest) (l : RegistryNodeId) (u : String)
    (k k' : Kind) (ts : DateTime) (e : Digest) (l' : RegistryNodeId) :
    (unstoredAction now d l u k).half k' ≠ some (.stored ts e l') := by
  rw [unstoredAction_half]
  split <;> simp

theorem unmountedAction_not_stored (now : DateTime) (d : Digest) (r : RepositoryName) (u : String)
    (k k' : Kind) (ts : DateTime) (e : Digest) (l' : RegistryNodeId) :
    (unmountedAction now d r u k).half k' ≠ some (.stored ts e l') := by
  rw [unmountedAction_half]
  split <;> simp

/-- The transaction of a finished upload: POST with a digest, and PUT on an upload session. -/
def uploadActions (now : Clock) (id : RegistryNodeId) (repository : RepositoryName)
    (digest : Digest) (size : ℕ) (user : String) : List RegistryAction :=
  [.blobMounted (now 0) digest repository user, .blobStat (now 1) digest size,
   .blobStored (now 2) digest id user]

/-- The mount branch of POST; `none`: an error, or on to the upload. -/
def mountActions (now : Clock) (s : Trees) (repository source : RepositoryName) (mount : Digest)
    (user : String) : Option (List RegistryAction) :=
  if source = repository then none
  else match s.blobs[mount]? with
    | some blob =>
      if source ∈ blob.repositories then some [.blobMounted (now 0) mount repository user] else none
    | none => none

/-- What `Extractor::extract` found: one `ManifestInfo` for the pushed manifest, then some
    `BlobInfo`s. -/
structure Extracted where
  contentType : String
  dependencies : List Digest
  blobs : List (Digest × List Digest × String)
  deriving DecidableEq

/-- The actions of an extraction. -/
def Extracted.actions (now : Clock) (digest : Digest) (x : Extracted) : List RegistryAction :=
  .manifestInfo (now 0) digest x.dependencies x.contentType ::
    x.blobs.mapIdx fun i (d, ds, ct) => .blobInfo (now (i + 1)) d ds ct

/-- The transaction of a manifest PUT. -/
def putActions (now : Clock) (id : RegistryNodeId) (repository : RepositoryName) (tag : String)
    (digest : Digest) (size : ℕ) (x : Extracted) (user : String) : List RegistryAction :=
  let n := x.blobs.length + 1
  [.manifestMounted (now n) digest repository user, .manifestStored (now (n + 1)) digest id user,
   .manifestStat (now (n + 2)) digest size] ++ x.actions now digest ++
  [.hashTagged (now (n + 3)) digest repository tag user]

/-- DELETE of a blob or of a manifest by digest: the record must have the repository. -/
def deleteActions (now : Clock) (s : Trees) (k : Kind) (repository : RepositoryName)
    (digest : Digest) (user : String) : Option (List RegistryAction) :=
  match (s.tree k)[digest]? with
  | some o =>
    if repository ∈ o.repositories then some [unmountedAction (now 0) digest repository user k]
    else none
  | none => none

/-- DELETE of a manifest by tag. -/
def deleteTagActions (now : Clock) (s : Trees) (repository : RepositoryName) (tag : String)
    (user : String) : Option (List RegistryAction) :=
  match s.tags[(⟨repository, tag⟩ : TagKey)]? with
  | some digest => deleteActions now s .manifest repository digest user
  | none => none

/-- The nodes of a membership, voters and learners. -/
def nodeIds (mem : Membership) : Finset RegistryNodeId := mem.nodes.keys.toFinset

/-- The members that a database knows of, the learners among them. -/
def memberIds (db : Db) : Finset RegistryNodeId := nodeIds db.getLastMembership.membership

/-- `do_transfer` up to the download: the object is stored on a member, and not here. -/
def wantsTransfer (db : Db) (k : Kind) (id : RegistryNodeId) (digest : Digest) : Bool :=
  match (db.tree k)[digest]? with
  | some o =>
    decide (id ∉ o.locations) && decide (o.locations ≠ ∅) &&
      db.getLastMembership.membership.nodes.keys.any fun nid => decide (nid ∈ o.locations)
  | none => false

/-- The mirror worker after a finished download (`MirrorRequest::success`); whether a peer answered
    with the object is not looked at. -/
def mirrorActions (now : Clock) (db : Db) (k : Kind) (id : RegistryNodeId) (digest : Digest) :
    Option (List RegistryAction) :=
  if wantsTransfer db k id digest then some [storedAction (now 0) digest id "$internal" k] else none

/-! ### The transactions of the collector -/

/-- `MINIMUM_GARBAGE_AGE`, in nanoseconds. -/
def minimumGarbageAge : ℤ := 60 * 60 * 12 * 1000000000

/-- What one pass of the collector meets: the readings of the clock (one for each object, and in
    phase 1 one for each mount), the orders of the hash sets and which calls of `cleanup_object`
    succeed. -/
structure Sweep where
  objectNow : Kind → Digest → DateTime
  actionNow : Kind → Digest → RepositoryName → DateTime
  visits : ℕ → Iteration Digest
  repositories : Kind → Digest → Iteration RepositoryName
  cleanup : Kind → Digest → Bool

/-- The orphans of a kind. -/
def Sweep.orphans (w : Sweep) (s : Trees) : Kind → ObjectTree
  | .blob => getOrphanedBlobs w.visits s
  | .manifest => getOrphanedManifests s

/-- One of the two loops of phase 1: every mount of every orphan that is old enough. -/
def Sweep.unmounts (w : Sweep) (s : Trees) (k : Kind) : List RegistryAction :=
  (w.orphans s k).toList.flatMap fun (digest, o) =>
    if w.objectNow k digest - o.created < minimumGarbageAge then []
    else ((w.repositories k digest).list o.repositories).map fun r =>
      unmountedAction (w.actionNow k digest r) digest r "$system" k

/-- The transaction of `do_garbage_collect_phase1`. -/
def Sweep.phase1 (w : Sweep) (s : Trees) : List RegistryAction :=
  w.unmounts s .manifest ++ w.unmounts s .blob

/-- The orphans whose files phase 2 goes on to remove: stored here and no longer mounted. -/
def Sweep.doomed (w : Sweep) (s : Trees) (k : Kind) (id : RegistryNodeId) : List Digest :=
  ((w.orphans s k).toList.filter fun (_, o) => id ∈ o.locations ∧ o.repositories = ∅).map Prod.fst

/-- One of the two loops of phase 2: what `cleanup_object` removed is announced. -/
def Sweep.unstores (w : Sweep) (s : Trees) (k : Kind) (id : RegistryNodeId) :
    List RegistryAction :=
  ((w.doomed s k id).filter (w.cleanup k)).map fun digest =>
    unstoredAction (w.objectNow k digest) digest id "$system" k

/-- The transaction of `do_garbage_collect_phase2`. -/
def Sweep.phase2 (w : Sweep) (s : Trees) (id : RegistryNodeId) : List RegistryAction :=
  w.unstores s .manifest id ++ w.unstores s .blob id

/-- The collector leaves alone what is live: tagged manifests and reachable blobs. -/
def Live (s : Trees) (d : Digest) : Kind → Prop
  | .blob => Reachable s d
  | .manifest => Tagged s d

theorem orphans_get (w : Sweep) (s : Trees) (k : Kind) (d : Digest) (o : Object) :
    (w.orphans s k)[d]? = some o ↔ (s.tree k)[d]? = some o ∧ ¬ Live s d k := by
  cases k with
  | blob => exact getOrphanedBlobs_get w.visits s d o
  | manifest => exact getOrphanedManifests_get s d o

theorem mem_unmounts {w : Sweep} {s : Trees} {k : Kind} {a : RegistryAction}
    (h : a ∈ w.unmounts s k) : ∃ d o r, (s.tree k)[d]? = some o ∧ ¬ Live s d k ∧
      minimumGarbageAge ≤ w.objectNow k d - o.created ∧ r ∈ o.repositories ∧
      a = unmountedAction (w.actionNow k d r) d r "$system" k := by
  obtain ⟨⟨d, o⟩, hd, ha⟩ := List.mem_flatMap.mp h
  rw [Std.ExtTreeMap.mem_toList_iff_getElem?_eq_some, orphans_get] at hd
  simp only at ha
  split at ha
  case isTrue => cases ha
  case isFalse hage =>
    obtain ⟨r, hr, rfl⟩ := List.mem_map.mp ha
    exact ⟨d, o, r, hd.1, hd.2, not_lt.mp hage, (Iteration.mem_list _).mp hr, rfl⟩

theorem mem_doomed {w : Sweep} {s : Trees} {k : Kind} {id : RegistryNodeId} {d : Digest} :
    d ∈ w.doomed s k id ↔ ∃ o, (s.tree k)[d]? = some o ∧ ¬ Live s d k ∧ id ∈ o.locations ∧
      o.repositories = ∅ := by
  simp [Sweep.doomed, Std.ExtTreeMap.mem_toList_iff_getElem?_eq_some, orphans_get, and_assoc]

theorem mem_unstores {w : Sweep} {s : Trees} {k : Kind} {id : RegistryNodeId} {a : RegistryAction}
    (h : a ∈ w.unstores s k id) : ∃ d ∈ w.doomed s k id,
      a = unstoredAction (w.objectNow k d) d id "$system" k := by
  obtain ⟨d, hd, rfl⟩ := List.mem_map.mp h
  exact ⟨d, (List.mem_filter.mp hd).1, rfl⟩

/-- What phase 1 sends: mounts of orphans that are old enough. -/
theorem mem_phase1 {w : Sweep} {s : Trees} {a : RegistryAction} (h : a ∈ w.phase1 s) :
    ∃ k d o r, (s.tree k)[d]? = some o ∧ ¬ Live s d k ∧
      minimumGarbageAge ≤ w.objectNow k d - o.created ∧ r ∈ o.repositories ∧
      a = unmountedAction (w.actionNow k d r) d r "$system" k := by
  rcases List.mem_append.mp h with h | h
  · exact ⟨.manifest, mem_unmounts h⟩
  · exact ⟨.blob, mem_unmounts h⟩

/-- Phase 1 takes every mount of an orphan that is old enough. -/
theorem mem_phase1_of_orphan {w : Sweep} {s : Trees} {k : Kind} {d : Digest} {o : Object}
    (ho : (s.tree k)[d]? = some o) (hlive : ¬ Live s d k)
    (hold : minimumGarbageAge ≤ w.objectNow k d - o.created) {r : RepositoryName}
    (hr : r ∈ o.repositories) :
    unmountedAction (w.actionNow k d r) d r "$system" k ∈ w.phase1 s := by
  have hmem : unmountedAction (w.actionNow k d r) d r "$system" k ∈ w.unmounts s k := by
    refine List.mem_flatMap.mpr ⟨(d, o), ?_, ?_⟩
    · rw [Std.ExtTreeMap.mem_toList_iff_getElem?_eq_some, orphans_get]
      exact ⟨ho, hlive⟩
    · simp only [not_lt.mpr hold, if_false]
      exact List.mem_map_of_mem ((Iteration.mem_list _).mpr hr)
  cases k with
  | blob => exact List.mem_append_right _ hmem
  | manifest => exact List.mem_append_left _ hmem

/-- What phase 2 sends: locations of orphans whose files it has removed. -/
theorem mem_phase2 {w : Sweep} {s : Trees} {id : RegistryNodeId} {a : RegistryAction}
    (h : a ∈ w.phase2 s id) :
    ∃ k, ∃ d ∈ w.doomed s k id, a = unstoredAction (w.objectNow k d) d id "$system" k := by
  rcases List.mem_append.mp h with h | h
  · exact ⟨.manifest, mem_unstores h⟩
  · exact ⟨.blob, mem_unstores h⟩

/-- `if !actions.is_empty()`. -/
def nonempty (actions : List RegistryAction) : Option (List RegistryAction) :=
  if actions = [] then none else some actions

theorem nonempty_eq_some {actions actions' : List RegistryAction}
    (h : nonempty actions = some actions') : actions' = actions := by
  unfold nonempty at h
  split at h
  · cases h
  · exact (Option.some.inj h).symm

/-! ### Uploads and pushes cannot panic -/

/-- A transaction without `*Stored` actions cannot panic. -/
theorem applyActions_isSome {actions : List RegistryAction}
    (h : ∀ a ∈ actions, ∀ k ts d l, a.half k ≠ some (.stored ts d l)) (s : Trees) :
    (applyActions s actions).isSome := by
  induction actions generalizing s with
  | nil => rfl
  | cons a as ih =>
    rw [applyActions, journal.run_cons]
    cases hs : journal.step s a with
    | none =>
      obtain ⟨k, ts, d, l, hk, -⟩ := applyAction_eq_none.mp hs
      exact absurd hk (h a (List.mem_cons_self ..) k ts d l)
    | some m => exact ih (fun b hb => h b (List.mem_cons_of_mem _ hb)) m

theorem uploadActions_isSome (now : Clock) (id : RegistryNodeId) (r : RepositoryName) (d : Digest)
    (n : ℕ) (u : String) (s : Trees) : (applyActions s (uploadActions now id r d n u)).isSome := by
  simp [applyActions, journal, uploadActions, Machine.run_cons, applyAction, mounted, stat, edit,
    stored]

theorem putActions_isSome (now : Clock) (id : RegistryNodeId) (r : RepositoryName) (t : String)
    (d : Digest) (n : ℕ) (x : Extracted) (u : String) (s : Trees) :
    (applyActions s (putActions now id r t d n x u)).isSome := by
  rw [putActions, List.append_assoc, applyActions, journal.run_append]
  simp only [journal, Machine.run_cons, Machine.run_nil, applyAction, mounted, stored, stat,
    Option.bind_some, Option.map_some, Std.ExtTreeMap.getElem?_insert_self]
  refine applyActions_isSome ?_ _
  intro a ha k ts e l
  simp only [Extracted.actions, List.cons_append, List.mem_cons, List.mem_append,
    List.mem_mapIdx, List.not_mem_nil, or_false] at ha
  rcases ha with rfl | ⟨i, hi, rfl⟩ | rfl <;> cases k <;> simp [RegistryAction.half]

/-! ### The cluster -/

/-- Everything that submits transactions. -/
inductive Request where
  | upload (id : RegistryNodeId) (repository : RepositoryName) (digest : Digest) (size : ℕ)
      (user : String)
  | mount (repository source : RepositoryName) (digest : Digest) (user : String)
  | put (id : RegistryNodeId) (repository : RepositoryName) (tag : String) (digest : Digest)
      (size : ℕ) (extracted : Extracted) (user : String)
  | delete (kind : Kind) (repository : RepositoryName) (digest : Digest) (user : String)
  | deleteTag (repository : RepositoryName) (tag : String) (user : String)
  | mirror (kind : Kind) (id : RegistryNodeId) (digest : Digest)
  | phase1 (sweep : Sweep)
  | phase2 (sweep : Sweep) (id : RegistryNodeId)

/-- What a request that sees `db` sends; `none`: nothing. -/
def Request.transaction (now : Clock) (db : Db) : Request → Option (List RegistryAction)
  | .upload id r d n u => some (uploadActions now id r d n u)
  | .mount r src d u => mountActions now db.toTrees r src d u
  | .put id r t d n x u => some (putActions now id r t d n x u)
  | .delete k r d u => deleteActions now db.toTrees k r d u
  | .deleteTag r t u => deleteTagActions now db.toTrees r t u
  | .mirror k id d => mirrorActions now db k id d
  | .phase1 w => nonempty (w.phase1 db.toTrees)
  | .phase2 w id => nonempty (w.phase2 db.toTrees id)

theorem deleteActions_eq {now : Clock} {s : Trees} {k : Kind} {r : RepositoryName} {d : Digest}
    {u : String} {actions : List RegistryAction}
    (h : deleteActions now s k r d u = some actions) :
    actions = [unmountedAction (now 0) d r u k] := by
  unfold deleteActions at h
  repeat' split at h
  all_goals cases h
  rfl

/-- What every request can send. -/
theorem transaction_cases {now : Clock} {db : Db} {req : Request} {actions : List RegistryAction}
    (h : req.transaction now db = some actions) :
    (∃ id r d n u, req = .upload id r d n u ∧ actions = uploadActions now id r d n u) ∨
    (∃ r src d u, req = .mount r src d u ∧ actions = [.blobMounted (now 0) d r u]) ∨
    (∃ id r t d n x u, req = .put id r t d n x u ∧ actions = putActions now id r t d n x u) ∨
    (∃ k d r u, (req = .delete k r d u ∨ ∃ t, req = .deleteTag r t u) ∧
      actions = [unmountedAction (now 0) d r u k]) ∨
    (∃ k id d, req = .mirror k id d ∧ wantsTransfer db k id d ∧
      actions = [storedAction (now 0) d id "$internal" k]) ∨
    (∃ w, req = .phase1 w ∧ actions = w.phase1 db.toTrees) ∨
    (∃ w id, req = .phase2 w id ∧ actions = w.phase2 db.toTrees id) := by
  cases req with
  | upload id r d n u => exact .inl ⟨id, r, d, n, u, rfl, (Option.some.inj h).symm⟩
  | mount r src d u =>
    simp only [Request.transaction, mountActions] at h
    repeat' split at h
    all_goals cases h
    exact .inr (.inl ⟨r, src, d, u, rfl, rfl⟩)
  | put id r t d n x u =>
    exact .inr (.inr (.inl ⟨id, r, t, d, n, x, u, rfl, (Option.some.inj h).symm⟩))
  | delete k r d u =>
    exact .inr (.inr (.inr (.inl ⟨k, d, r, u, .inl rfl, deleteActions_eq h⟩)))
  | deleteTag r t u =>
    simp only [Request.transaction, deleteTagActions] at h
    split at h
    case h_1 d hd => exact .inr (.inr (.inr (.inl ⟨_, d, r, u, .inr ⟨t, rfl⟩, deleteActions_eq h⟩)))
    case h_2 => cases h
  | mirror k id d =>
    simp only [Request.transaction, mirrorActions] at h
    split at h
    case isTrue hw =>
      exact .inr (.inr (.inr (.inr (.inl ⟨k, id, d, rfl, hw, (Option.some.inj h).symm⟩))))
    case isFalse => cases h
  | phase1 w => exact .inr (.inr (.inr (.inr (.inr (.inl ⟨w, rfl, nonempty_eq_some h⟩)))))
  | phase2 w id => exact .inr (.inr (.inr (.inr (.inr (.inr ⟨w, id, rfl, nonempty_eq_some h⟩)))))

/-- A transaction under way: who sent it, how much of the log its node had applied, and what it
    carries. -/
structure Submission where
  request : Request
  readAt : ℕ
  actions : List RegistryAction

/-- The committed log and the transactions under way. -/
structure State where
  log : List Entry
  underWay : List Submission

/-- What can happen. -/
inductive Event where
  /-- A request on a node that has applied the first `readAt` entries decides and submits. -/
  | submit (request : Request) (now : Clock) (readAt : ℕ)
  /-- The `i`-th transaction under way is committed by `leader`. -/
  | commit (i : ℕ) (leader : LeaderId)
  /-- The `i`-th transaction under way fails and never commits. -/
  | lose (i : ℕ)
  /-- A new leader's blank entry, or a change of the membership. -/
  | blank (leader : LeaderId)
  | membership (leader : LeaderId) (membership : Membership)

/-- The entry that takes the next place in the log. -/
def nextEntry (log : List Entry) (leader : LeaderId) (payload : EntryPayload) : Entry :=
  ⟨⟨leader, log.length⟩, payload⟩

/-- One event. The log takes whatever raft commits; whether it can be applied shows in `replay`. -/
def clusterStep (s : State) : Event → Option State
  | .submit request now readAt =>
    if readAt ≤ s.log.length then
      (replay (s.log.take readAt)).bind fun db =>
        (request.transaction now db).map fun actions =>
          { s with underWay := s.underWay ++ [⟨request, readAt, actions⟩] }
    else none
  | .commit i leader =>
    s.underWay[i]?.map fun sub =>
      ⟨s.log ++ [nextEntry s.log leader (.normal (.transaction sub.actions))],
       s.underWay.eraseIdx i⟩
  | .lose i => if i < s.underWay.length then some { s with underWay := s.underWay.eraseIdx i }
      else none
  | .blank leader => some { s with log := s.log ++ [nextEntry s.log leader .blank] }
  | .membership leader mem =>
    some { s with log := s.log ++ [nextEntry s.log leader (.membership mem)] }

/-- The cluster, from the empty state. -/
def cluster : Machine State Event := ⟨⟨[], []⟩, clusterStep⟩

/-! ### What a run knows about the transactions under way -/

/-- Everything one event can do. -/
theorem clusterStep_cases {s s' : State} {e : Event} (h : clusterStep s e = some s') :
    (∃ request now readAt db actions, e = .submit request now readAt ∧ readAt ≤ s.log.length ∧
      replay (s.log.take readAt) = some db ∧ request.transaction now db = some actions ∧
      s' = ⟨s.log, s.underWay ++ [⟨request, readAt, actions⟩]⟩) ∨
    (∃ i leader sub, e = .commit i leader ∧ s.underWay[i]? = some sub ∧
      s' = ⟨s.log ++ [nextEntry s.log leader (.normal (.transaction sub.actions))],
        s.underWay.eraseIdx i⟩) ∨
    (∃ i, e = .lose i ∧ s' = ⟨s.log, s.underWay.eraseIdx i⟩) ∨
    (∃ entry, (∀ i leader, e ≠ .commit i leader) ∧ entry.actions = [] ∧
      s' = ⟨s.log ++ [entry], s.underWay⟩) := by
  cases e with
  | submit request now readAt =>
    simp only [clusterStep] at h
    split at h
    case isTrue hle =>
      obtain ⟨db, hdb, h⟩ := Option.bind_eq_some_iff.mp h
      obtain ⟨actions, ha, rfl⟩ := Option.map_eq_some_iff.mp h
      exact .inl ⟨request, now, readAt, db, actions, rfl, hle, hdb, ha, rfl⟩
    case isFalse => cases h
  | commit i leader =>
    obtain ⟨sub, hsub, rfl⟩ := Option.map_eq_some_iff.mp h
    exact .inr (.inl ⟨i, leader, sub, rfl, hsub, rfl⟩)
  | lose i =>
    simp only [clusterStep] at h
    split at h
    · obtain rfl := Option.some.inj h
      exact .inr (.inr (.inl ⟨i, rfl, rfl⟩))
    · cases h
  | blank leader =>
    obtain rfl := Option.some.inj h
    exact .inr (.inr (.inr ⟨_, by simp, rfl, rfl⟩))
  | membership leader mem =>
    obtain rfl := Option.some.inj h
    exact .inr (.inr (.inr ⟨_, by simp, rfl, rfl⟩))

theorem replay_snoc (log : List Entry) (e : Entry) :
    replay (log ++ [e]) = (replay log).bind (applyEntry · e) := by
  rw [replay, replica.run_append]
  exact congrArg _ (funext fun db => replica.run_single db e)

/-- A committed transaction can be applied exactly when its actions can. -/
theorem replay_commit_isSome {log : List Entry} {db : Db} (h : replay log = some db)
    (leader : LeaderId) (actions : List RegistryAction) :
    (replay (log ++ [nextEntry log leader (.normal (.transaction actions))])).isSome ↔
      (applyActions db.toTrees actions).isSome := by
  simp [replay_snoc, h, applyEntry, nextEntry]

/-- An entry without actions can always be applied. -/
theorem replay_idle_isSome {log : List Entry} {entry : Entry} (h : (replay log).isSome)
    (he : entry.actions = []) : (replay (log ++ [entry])).isSome := by
  obtain ⟨db, hdb⟩ := Option.isSome_iff_exists.mp h
  obtain ⟨id, payload⟩ := entry
  cases payload with
  | blank => simp [replay_snoc, hdb, applyEntry]
  | normal req =>
    obtain ⟨actions⟩ := req
    obtain rfl : actions = [] := he
    simp [replay_snoc, hdb, applyEntry, applyActions]
  | membership mem => simp [replay_snoc, hdb, applyEntry]

theorem replay_prefix_isSome {log log' : List Entry} (hp : log <+: log')
    (h : (replay log').isSome) : (replay log).isSome := by
  obtain ⟨rest, rfl⟩ := hp
  obtain ⟨db, hdb⟩ := Option.isSome_iff_exists.mp h
  obtain ⟨m, hm, -⟩ := replica.run_append_some hdb
  exact Option.isSome_iff_exists.mpr ⟨m, hm⟩

/-- A log that can be replayed, cut at the read of a submitter. -/
theorem replay_cut {log : List Entry} {n : ℕ} {db : Db} (h : replay log = some db) :
    ∃ dbR, replay (log.take n) = some dbR ∧
      applyActions dbR.toTrees (actionsOf (log.drop n)) = some db.toTrees := by
  rw [← List.take_append_drop n log] at h
  obtain ⟨dbR, hR, hrest⟩ := replica.run_append_some h
  exact ⟨dbR, hR, replica_run_trees hrest⟩

/-- A transaction under way was decided on the replay of the log up to its read. -/
def Submission.Decided (log : List Entry) (sub : Submission) : Prop :=
  sub.readAt ≤ log.length ∧ ∃ now db, replay (log.take sub.readAt) = some db ∧
    sub.request.transaction now db = some sub.actions

theorem Submission.Decided.extend {log : List Entry} {sub : Submission} (h : sub.Decided log)
    (e : Entry) : sub.Decided (log ++ [e]) := by
  obtain ⟨hle, now, db, hdb, hact⟩ := h
  refine ⟨by simp; omega, now, db, ?_, hact⟩
  rwa [List.take_append_of_le_length hle]

/-- Every transaction under way was decided on some earlier state. -/
def AllDecided (s : State) : Prop := ∀ sub ∈ s.underWay, sub.Decided s.log

theorem allDecided_step (s : State) (e : Event) (s' : State) (hd : AllDecided s)
    (h : clusterStep s e = some s') : AllDecided s' := by
  rcases clusterStep_cases h with ⟨request, now, readAt, db, actions, -, hle, hdb, ha, rfl⟩ |
    ⟨i, leader, sub, -, -, rfl⟩ | ⟨i, -, rfl⟩ | ⟨entry, -, -, rfl⟩
  · intro sub hsub
    rcases List.mem_append.mp hsub with hsub | hsub
    · exact hd sub hsub
    · obtain rfl := List.mem_singleton.mp hsub
      exact ⟨hle, now, db, hdb, ha⟩
  · exact fun sub hsub => (hd sub (List.mem_of_mem_eraseIdx hsub)).extend _
  · exact fun sub hsub => hd sub (List.mem_of_mem_eraseIdx hsub)
  · exact fun sub hsub => (hd sub hsub).extend _

theorem allDecided_init : AllDecided cluster.init := fun _ hsub => by cases hsub

/-- In every run, what is under way was decided on an earlier state. -/
theorem run_allDecided {es : List Event} {s : State}
    (h : cluster.run cluster.init es = some s) : AllDecided s :=
  cluster.run_inv allDecided_step allDecided_init h

/-- The log only grows. -/
theorem run_log_grows {es : List Event} {s s' : State} (h : cluster.run s es = some s') :
    s.log <+: s'.log := by
  refine cluster.run_inv (I := fun t => s.log <+: t.log) ?_ (List.prefix_refl _) h
  intro t e t' hp ht
  rcases clusterStep_cases ht with ⟨_, _, _, _, _, -, -, -, -, rfl⟩ | ⟨_, _, _, -, -, rfl⟩ |
    ⟨_, -, rfl⟩ | ⟨_, -, -, rfl⟩
  · exact hp
  · exact hp.trans (List.prefix_append _ _)
  · exact hp
  · exact hp.trans (List.prefix_append _ _)

/-! ### A cluster of nodes 1 and 2 for worked inputs -/

/-- A clock that ticks at every reading. -/
def ticking (start : DateTime) : Clock := fun n => start + n

/-- A collector pass at `now` that meets the hash sets in ascending order and can remove files. -/
def plainSweep (now : DateTime) : Sweep where
  objectNow _ _ := now
  actionNow _ _ _ := now
  visits _ := .ascending
  repositories _ _ := .ascending
  cleanup _ _ := true

/-- The membership of nodes 1 and 2. -/
def twoNodes : Membership where
  configs := [{1, 2}]
  nodes := (Std.ExtTreeMap.empty.insert 1 (BasicNode.mk "n1")).insert 2 (BasicNode.mk "n2")

/-- Nodes 1 and 2 form the cluster and a blob is uploaded to node 2. -/
def uploadRun : List Event :=
  [.membership ⟨1, 2⟩ twoNodes,
   .submit (.upload 2 ⟨"library/a"⟩ helloDigest 12 "alice") (ticking 10) 1,
   .commit 0 ⟨1, 2⟩]

end Distribd.Cluster
