import Distribd.Schemes.TreeMap
import Distribd.Store.Pending

/-! Snapshots (`store/mod.rs`): `build_snapshot` writes the trees out as one JSON document and
    `install_snapshot` merges such a document into the database of another node. The merge only
    inserts: a record of the receiver that the document does not have stays. Tags are never removed
    by any action and the two keys of `state_machine` are overwritten, so the only thing that can go
    wrong is an object record that the receiver still has and that the builder has dropped since.
    `snapshot_replay_iff` says that this is exactly when snapshot and suffix differ from the replay
    of the whole log.

    JSON is outside of this repository: a `SnapshotCodec` is any encoding of the document that
    decodes its own output, if the digests in it are such as come back from their texts, together
    with the text form of a leader id. -/

namespace Distribd.Store
open Schemes

/-! ### The document -/

instance : DecidableEq (Std.ExtTreeMap RepositoryName (Std.ExtTreeMap String Digest)) :=
  inferInstance

/-- `SerializableRegistryStateMachine`. -/
structure SerializableRegistryStateMachine where
  lastAppliedLog : Option LogId
  lastMembership : StoredMembership
  manifests : ObjectTree
  blobs : ObjectTree
  tags : Std.ExtTreeMap RepositoryName (Std.ExtTreeMap String Digest)
  deriving DecidableEq

/-- The tree of a kind. -/
def SerializableRegistryStateMachine.tree (sm : SerializableRegistryStateMachine) :
    Kind → ObjectTree
  | .blob => sm.blobs
  | .manifest => sm.manifests

/-- Every digest in the document has the property. -/
structure SerializableRegistryStateMachine.OnlyDigests (P : Digest → Prop)
    (sm : SerializableRegistryStateMachine) : Prop where
  objects : ∀ (k : Kind) (d : Digest) (o : Object), (sm.tree k)[d]? = some o →
    P d ∧ ∀ ds ∈ o.dependencies, ∀ e ∈ ds, P e
  tags : ∀ (key : TagKey) (d : Digest),
    (sm.tags[key.repository]?).bind (·[key.tag]?) = some d → P d

/-- One turn of the tag loop:
    `entry(repository).or_insert_with(BTreeMap::new).insert(tag, value)`. -/
def groupTag (m : Std.ExtTreeMap RepositoryName (Std.ExtTreeMap String Digest))
    (entry : TagKey × Digest) : Std.ExtTreeMap RepositoryName (Std.ExtTreeMap String Digest) :=
  let repo := (m[entry.1.repository]?).getD ∅
  m.insert entry.1.repository (repo.insert entry.1.tag entry.2)

/-- The tags by repository. -/
def groupTags (entries : List (TagKey × Digest)) :
    Std.ExtTreeMap RepositoryName (Std.ExtTreeMap String Digest) := entries.foldl groupTag ∅

/-- `SerializableRegistryStateMachine::from`. -/
def serializable (db : Db) : SerializableRegistryStateMachine where
  lastAppliedLog := db.lastAppliedLog
  lastMembership := db.getLastMembership
  manifests := db.manifests
  blobs := db.blobs
  tags := groupTags db.tags.toList

/-- `serde_json` on the document, in which digests are texts, and `Display` of
    `openraft::LeaderId`. The digests that have been read from a text come back from theirs
    (`Serde.snapshotCodec`), and the program has no others. -/
structure SnapshotCodec (Bytes : Type*) where
  toVec : SerializableRegistryStateMachine → Bytes
  fromSlice : Bytes → Option SerializableRegistryStateMachine
  comesBack : Digest → Prop
  fromSlice_toVec : ∀ sm, sm.OnlyDigests comesBack → fromSlice (toVec sm) = some sm
  displayLeaderId : LeaderId → String

/-- `openraft::SnapshotMeta`. -/
structure SnapshotMeta where
  lastLogId : Option LogId
  lastMembership : StoredMembership
  snapshotId : String
  deriving DecidableEq

/-- `RegistrySnapshot`; `openraft::Snapshot` has the same two parts. -/
structure RegistrySnapshot (Bytes : Type*) where
  snapshotMeta : SnapshotMeta
  data : Bytes

/-- A store with the two snapshot keys of the tree `store`. -/
structure SnapshotStore (Bytes : Type*) where
  store : RegistryStore
  snapshotIndex : Option ℕ
  snapshot : Option (RegistrySnapshot Bytes)

variable {Bytes : Type*}

/-! ### Building -/

/-- `get_snapshot_index_`. -/
def SnapshotStore.getSnapshotIndex (st : SnapshotStore Bytes) : ℕ := st.snapshotIndex.getD 0

/-- `build_snapshot`. -/
def SnapshotStore.buildSnapshot (codec : SnapshotCodec Bytes) (st : SnapshotStore Bytes) :
    SnapshotStore Bytes × RegistrySnapshot Bytes :=
  let sm := serializable st.store.db
  let snapshotIdx := st.getSnapshotIndex + 1
  let snapshotId := match sm.lastAppliedLog with
    | some last =>
      codec.displayLeaderId last.leaderId ++ "-" ++ toString last.index ++ "-"
        ++ toString snapshotIdx
    | none => "--" ++ toString snapshotIdx
  let snapshot := ⟨⟨sm.lastAppliedLog, sm.lastMembership, snapshotId⟩, codec.toVec sm⟩
  ({ st with snapshotIndex := some snapshotIdx, snapshot := some snapshot }, snapshot)

/-! ### Installing -/

/-- The tag batch of `from_serializable`. -/
def ungroupTags (m : Std.ExtTreeMap RepositoryName (Std.ExtTreeMap String Digest)) :
    List (TagKey × Digest) :=
  m.toList.flatMap fun (key, value) => value.toList.map fun (tag, digest) => (⟨key, tag⟩, digest)

/-- The durable writes of `from_serializable`, in order: three batches and two keys. -/
def installWrites (sm : SerializableRegistryStateMachine) : List (Db → Db) :=
  [fun db => { db with blobs := db.blobs.insertMany sm.blobs.toList },
   fun db => { db with manifests := db.manifests.insertMany sm.manifests.toList },
   fun db => { db with tags := db.tags.insertMany (ungroupTags sm.tags) },
   fun db => match sm.lastAppliedLog with
     | some logId => { db with lastAppliedLog := some logId }
     | none => db,
   fun db => { db with lastMembership := some sm.lastMembership }]

/-- `RegistryStateMachine::from_serializable`: the database after all writes, and a new in-memory
    part whose pending sets come from the document. -/
def fromSerializable (id : RegistryNodeId) (sm : SerializableRegistryStateMachine) (db : Db) :
    Db × RegistryStateMachine :=
  ((installWrites sm).foldl (fun db write => write db) db,
   { pendingBlobs := pendingOf id sm.blobs
     pendingManifests := pendingOf id sm.manifests
     blobWaiters := ∅
     manifestWaiters := ∅
     woken := [] })

/-- `install_snapshot`; `none` is the error of a document that does not decode. -/
def SnapshotStore.installSnapshot (codec : SnapshotCodec Bytes) (st : SnapshotStore Bytes)
    (snapshot : RegistrySnapshot Bytes) : Option (SnapshotStore Bytes) :=
  (codec.fromSlice snapshot.data).map fun sm =>
    let (db, stateMachine) := fromSerializable st.store.id sm st.store.db
    { st with store := { st.store with db, stateMachine }, snapshot := some snapshot }

/-! ### The tags survive the grouping -/

theorem groupTags_get (entries : List (TagKey × Digest)) (key : TagKey) :
    ((groupTags entries)[key.repository]?).bind (·[key.tag]?) =
      ((∅ : TagTree).insertMany entries)[key]? := by
  induction entries using List.reverseRecOn with
  | nil => simp [groupTags]
  | append_singleton entries e ih =>
    have hcat : groupTags (entries ++ [e]) = groupTag (groupTags entries) e := by simp [groupTags]
    rw [hcat, Std.ExtTreeMap.insertMany_append, Std.ExtTreeMap.insertMany_list_singleton,
      Std.ExtTreeMap.getElem?_insert, ← ih]
    obtain ⟨⟨r, t⟩, v⟩ := e
    obtain ⟨r', t'⟩ := key
    simp only [groupTag, Std.ExtTreeMap.getElem?_insert, Std.compare_eq_iff_eq, TagKey.mk.injEq]
    by_cases hr : r = r'
    · subst hr
      by_cases ht : t = t'
      · simp [ht]
      · cases (groupTags entries)[r]? <;> simp [ht, Std.ExtTreeMap.getElem?_insert]
    · simp [hr]

theorem mem_ungroupTags {m : Std.ExtTreeMap RepositoryName (Std.ExtTreeMap String Digest)}
    (key : TagKey) (v : Digest) :
    (key, v) ∈ ungroupTags m ↔ (m[key.repository]?).bind (·[key.tag]?) = some v := by
  obtain ⟨r, t⟩ := key
  simp only [ungroupTags, List.mem_flatMap, List.mem_map, Prod.mk.injEq, TagKey.mk.injEq,
    Prod.exists, Option.bind_eq_some_iff, Std.ExtTreeMap.mem_toList_iff_getElem?_eq_some]
  constructor
  · rintro ⟨r', u, hu, t', v', hv, ⟨rfl, rfl⟩, rfl⟩
    exact ⟨u, hu, hv⟩
  · rintro ⟨u, hu, hv⟩
    exact ⟨r, u, hu, t, v, hv, ⟨rfl, rfl⟩, rfl⟩

/-- The tag batch of a document overrides the tags by those of the source. -/
theorem getElem?_install_tags (t : TagTree) (db : Db) (key : TagKey) :
    (t.insertMany (ungroupTags (serializable db).tags))[key]? = db.tags[key]?.or t[key]? := by
  refine getElem?_insertMany_graph t (fun key v => ?_) key
  rw [mem_ungroupTags, serializable, groupTags_get, getElem?_insertMany_toList]
  simp

/-! ### What an install leaves on the receiver -/

/-- What replicas have to agree on: the data trees, `last_applied_log` and the membership that
    `get_last_membership` reports. -/
def Db.view (db : Db) : Trees × Option LogId × StoredMembership :=
  (db.toTrees, db.lastAppliedLog, db.getLastMembership)

/-- Everything an install does to the database. -/
theorem fromSerializable_db (id : RegistryNodeId) (src db : Db) :
    let db' := (fromSerializable id (serializable src) db).1
    (∀ (k : Kind) (d : Digest), (db'.tree k)[d]? = (src.tree k)[d]?.or (db.tree k)[d]?) ∧
      (∀ key : TagKey, db'.tags[key]? = src.tags[key]?.or db.tags[key]?) ∧
      db'.lastAppliedLog = src.lastAppliedLog.or db.lastAppliedLog ∧
      db'.getLastMembership = src.getLastMembership := by
  have hlog : ∀ (o : Option LogId) (db : Db),
      (match o with
        | some logId => { db with lastAppliedLog := some logId }
        | none => db) = { db with lastAppliedLog := o.or db.lastAppliedLog } := by
    intro o db
    cases o <;> rfl
  refine ⟨fun k d => ?_, fun key => ?_, ?_, ?_⟩
  all_goals simp only [fromSerializable, installWrites, List.foldl_cons, List.foldl_nil, hlog]
  · cases k with
    | blob => exact getElem?_insertMany_toList db.blobs src.blobs d
    | manifest => exact getElem?_insertMany_toList db.manifests src.manifests d
  · exact getElem?_install_tags db.tags src key
  · rfl
  · rfl

theorem Trees.ext_get {s t : Trees} (htree : ∀ (k : Kind) (d : Digest),
    (s.tree k)[d]? = (t.tree k)[d]?) (htags : ∀ key : TagKey, s.tags[key]? = t.tags[key]?) :
    s = t := by
  obtain ⟨b, m, g⟩ := s
  obtain ⟨b', m', g'⟩ := t
  obtain rfl : b = b' := Std.ExtTreeMap.ext_getElem? fun {d} => htree .blob d
  obtain rfl : m = m' := Std.ExtTreeMap.ext_getElem? fun {d} => htree .manifest d
  obtain rfl : g = g' := Std.ExtTreeMap.ext_getElem? fun {key} => htags key
  rfl

/-! ### Entries do not look behind the view -/

theorem applyEntry_view {db db' : Db} (h : db.view = db'.view) (e : Entry) :
    (applyEntry db e).map Db.view = (applyEntry db' e).map Db.view := by
  obtain ⟨htrees, hlog, hmem⟩ : db.toTrees = db'.toTrees ∧ db.lastAppliedLog = db'.lastAppliedLog ∧
      db.getLastMembership = db'.getLastMembership := by
    simpa [Db.view] using h
  obtain ⟨id, payload⟩ := e
  cases payload with
  | blank => simpa [applyEntry, Db.view, Db.getLastMembership] using ⟨htrees, hmem⟩
  | normal req =>
    obtain ⟨actions⟩ := req
    simp only [applyEntry, htrees, Option.map_map]
    cases applyActions db'.toTrees actions with
    | none => rfl
    | some t => simpa [Db.view, Db.getLastMembership] using hmem
  | membership mem => simpa [applyEntry, Db.view, Db.getLastMembership] using htrees

/-- Two databases with one view stay so under every log, or panic at the same entry. -/
theorem replica_run_view {db db' : Db} (h : db.view = db'.view) (log : List Entry) :
    (replica.run db log).map Db.view = (replica.run db' log).map Db.view := by
  induction log generalizing db db' with
  | nil => simpa using h
  | cons e es ih =>
    have he := applyEntry_view h e
    rw [replica.run_cons, replica.run_cons]
    simp only [replica]
    cases h₁ : applyEntry db e with
    | none => cases h₂ : applyEntry db' e <;> simp_all
    | some m =>
      cases h₂ : applyEntry db' e with
      | none => simp [h₁, h₂] at he
      | some m' => exact ih (by simpa [h₁, h₂] using he)

/-- With no request waiting, the notifications cannot panic. -/
theorem bookkeeping_isSome (id : RegistryNodeId) (t : Trees) (actions : List RegistryAction)
    {sm : RegistryStateMachine} (hb : sm.blobWaiters = ∅) (hm : sm.manifestWaiters = ∅) :
    ∃ sm', (bookkeeping id t).run sm actions = some sm' ∧ sm'.blobWaiters = ∅ ∧
      sm'.manifestWaiters = ∅ := by
  induction actions generalizing sm with
  | nil => exact ⟨sm, rfl, hb, hm⟩
  | cons a as ih =>
    obtain ⟨m, hstep, hb', hm'⟩ : ∃ m, announce id t sm a = some m ∧ m.blobWaiters = ∅ ∧
        m.manifestWaiters = ∅ := by
      cases a <;> simp [announce, notify, hb, hm]
    obtain ⟨sm', hrun, hw⟩ := ih hb' hm'
    exact ⟨sm', by rw [(bookkeeping id t).run_cons]; simpa [bookkeeping, hstep] using hrun, hw⟩

/-- With no request waiting, the batches of a node do what the replica does on their entries. -/
theorem run_batches (st : RegistryStore) (hb : st.stateMachine.blobWaiters = ∅)
    (hm : st.stateMachine.manifestWaiters = ∅) (batches : List (List Entry)) :
    ((node st.id).run st (batches.map .batch)).map (·.db) = replica.run st.db batches.flatten := by
  induction batches generalizing st with
  | nil => rfl
  | cons entries batches ih =>
    rw [List.map_cons, List.flatten_cons, replica.run_append, (node st.id).run_cons]
    cases hr : replica.run st.db entries with
    | none => simp [node, nodeStep, RegistryStore.applyToStateMachine, transaction_eq, hr]
    | some db =>
      obtain ⟨sm, hsm, hb', hm'⟩ := bookkeeping_isSome st.id db.toTrees (actionsOf entries) hb hm
      have hstep : nodeStep st (.batch entries) = some { st with db, stateMachine := sm } := by
        simp [nodeStep, RegistryStore.applyToStateMachine, transaction_eq, hr, hsm]
      have hrest := ih { st with db, stateMachine := sm } hb' hm'
      simpa [node, hstep] using hrest

/-! ### Snapshot and suffix against the whole log -/

/-- The store has applied exactly `log`: what replicas agree on is that of the entry-by-entry
    replay. Its pending sets and waiters may be anything. -/
def SnapshotStore.HasApplied (st : SnapshotStore Bytes) (log : List Entry) : Prop :=
  ∃ db, replay log = some db ∧ st.store.db.view = db.view

/-- Tags only ever gain keys. -/
theorem applyActions_tags_mono {s s' : Trees} {actions : List RegistryAction}
    (h : applyActions s actions = some s') (key : TagKey) (hs : s.tags[key]? ≠ none) :
    s'.tags[key]? ≠ none := by
  refine journal.run_inv (I := fun t => t.tags[key]? ≠ none) ?_ hs h
  intro t a t' ht ha
  rcases applyAction_tags ha with ⟨ts, d, r, tag, u, -, heq⟩ | ⟨-, heq⟩
  · rw [heq, Std.ExtTreeMap.getElem?_insert]
    split
    · simp
    · exact ht
  · rw [heq]
    exact ht

theorem or_eq_self_iff {α : Type*} {a b : Option α} : a.or b = a ↔ (b ≠ none → a ≠ none) := by
  cases a <;> cases b <;> simp

/-- The install brings the receiver to the builder's view exactly when the builder has every object
    record that the receiver has; tags and `last_applied_log` are never lost on the way. -/
theorem fromSerializable_view_iff (id : RegistryNodeId) {receiver builder : Db}
    (htags : ∀ key : TagKey, receiver.tags[key]? ≠ none → builder.tags[key]? ≠ none)
    (hlog : receiver.lastAppliedLog ≠ none → builder.lastAppliedLog ≠ none) :
    (fromSerializable id (serializable builder) receiver).1.view = builder.view ↔
      ∀ (k : Kind) (d : Digest), (receiver.tree k)[d]? ≠ none → (builder.tree k)[d]? ≠ none := by
  obtain ⟨htree', htags', hlog', hmem'⟩ := fromSerializable_db id builder receiver
  set db' := (fromSerializable id (serializable builder) receiver).1
  constructor
  · intro hview k d
    have htrees : db'.toTrees = builder.toTrees := congrArg Prod.fst hview
    rw [← or_eq_self_iff, ← htree' k d, htrees]
  · intro hkeep
    have htrees : db'.toTrees = builder.toTrees := by
      refine Trees.ext_get ?_ ?_
      · intro k d
        rw [htree' k d, or_eq_self_iff.mpr (hkeep k d)]
      · intro key
        rw [htags' key, or_eq_self_iff.mpr (htags key)]
    have hlast : db'.lastAppliedLog = builder.lastAppliedLog := by
      rw [hlog', or_eq_self_iff.mpr hlog]
    simp [Db.view, htrees, hlast, hmem']

/-- The same for a receiver after `P` and a builder after `P ++ Q`: the tags and the log id that the
    receiver has are among those of the builder, and its records are unless `Q` removes one. -/
theorem install_view_iff {P Q : List Entry} {receiver builder : SnapshotStore Bytes}
    (hr : receiver.HasApplied P) (hb : builder.HasApplied (P ++ Q)) :
    (fromSerializable receiver.store.id (serializable builder.store.db)
        receiver.store.db).1.view = builder.store.db.view ↔
      ∀ k d o, (receiver.store.db.tree k)[d]? = some o →
        ¬ Removed d o.locations (halves k (actionsOf Q)) := by
  obtain ⟨dbP, hP, hrv⟩ := hr
  obtain ⟨dbQ, hPQ, hbv⟩ := hb
  obtain ⟨m, hm, hQ⟩ := replica.run_append_some hPQ
  obtain rfl : dbP = m := Option.some.inj (hP.symm.trans hm)
  have hrt : receiver.store.db.toTrees = dbP.toTrees := congrArg Prod.fst hrv
  have hbt : builder.store.db.toTrees = dbQ.toTrees := congrArg Prod.fst hbv
  have hacts := replica_run_trees hQ
  have htags : ∀ key : TagKey, receiver.store.db.tags[key]? ≠ none →
      builder.store.db.tags[key]? ≠ none := by
    intro key hkey
    rw [hrt] at hkey
    rw [hbt]
    exact applyActions_tags_mono hacts key hkey
  have hlog : receiver.store.db.lastAppliedLog ≠ none →
      builder.store.db.lastAppliedLog ≠ none := by
    intro hlog
    have hrl : receiver.store.db.lastAppliedLog = dbP.lastAppliedLog := congrArg (·.2.1) hrv
    have hbl : builder.store.db.lastAppliedLog = dbQ.lastAppliedLog := congrArg (·.2.1) hbv
    rw [hbl, replica_run_lastAppliedLog hQ]
    rw [hrl] at hlog
    simp [Option.or_eq_none_iff, hlog]
  rw [fromSerializable_view_iff _ htags hlog, hrt, hbt]
  exact applyActions_keeps_iff hacts

theorem serializable_tree (db : Db) (k : Kind) : (serializable db).tree k = db.tree k := by
  cases k <;> rfl

theorem serializable_tags (db : Db) (key : TagKey) :
    ((serializable db).tags[key.repository]?).bind (·[key.tag]?) = db.tags[key]? := by
  rw [serializable, groupTags_get, getElem?_insertMany_toList]
  simp

/-- The digests in the document are those of the log. -/
theorem onlyDigests_serializable {P : Digest → Prop} {db : Db} (h : db.toTrees.OnlyDigests P) :
    (serializable db).OnlyDigests P where
  objects k := by
    rw [serializable_tree]
    exact h.objects k
  tags key := by
    rw [serializable_tags]
    exact h.tags key

/-- SNAPSHOT AND SUFFIX, exactly: a node that has applied `P` and installs the snapshot of a node
    that has applied `P ++ Q` agrees with the replay of the whole log after every suffix, fed in
    batches of any size, if and only if `Q` removes no record that the receiver holds. -/
theorem snapshot_replay_iff (codec : SnapshotCodec Bytes) (P Q : List Entry)
    (receiver builder : SnapshotStore Bytes) (hr : receiver.HasApplied P)
    (hb : builder.HasApplied (P ++ Q))
    (hdigests : ∀ e ∈ P ++ Q, e.OnlyDigests codec.comesBack) :
    (∃ installed, receiver.installSnapshot codec (builder.buildSnapshot codec).2 = some installed ∧
      ∀ batches : List (List Entry),
        ((node installed.store.id).run installed.store (batches.map .batch)).map (·.db.view) =
          (replay (P ++ Q ++ batches.flatten)).map Db.view) ↔
    ∀ k d o, (receiver.store.db.tree k)[d]? = some o →
      ¬ Removed d o.locations (halves k (actionsOf Q)) := by
  rw [← install_view_iff hr hb]
  obtain ⟨dbQ, hPQ, hbv⟩ := hb
  have htrees : builder.store.db.toTrees = dbQ.toTrees := congrArg Prod.fst hbv
  have hbuild : codec.fromSlice (builder.buildSnapshot codec).2.data =
      some (serializable builder.store.db) := codec.fromSlice_toVec _
    (onlyDigests_serializable (htrees ▸ onlyDigests_replay hPQ hdigests))
  constructor
  · -- the empty suffix already tells
    rintro ⟨installed, hinst, hall⟩
    rw [SnapshotStore.installSnapshot, hbuild] at hinst
    obtain rfl := Option.some.inj hinst
    have hnow := hall []
    simp only [List.map_nil, Machine.run_nil, List.flatten_nil, List.append_nil, hPQ,
      Option.map_some, Option.some.injEq, ← hbv] at hnow
    exact hnow
  · intro heq
    refine ⟨_, by rw [SnapshotStore.installSnapshot, hbuild]; rfl, ?_⟩
    intro batches
    have hrun := run_batches { receiver.store with
      db := (fromSerializable receiver.store.id (serializable builder.store.db)
        receiver.store.db).1
      stateMachine := (fromSerializable receiver.store.id (serializable builder.store.db)
        receiver.store.db).2 } rfl rfl batches
    have hsame := replica_run_view (heq.trans hbv) batches.flatten
    rw [replay, replica.run_append, ← replay, hPQ]
    simp only [Option.bind_some]
    rw [← hsame, ← hrun, Option.map_map]
    rfl

/-- The encoding that keeps the document as it is. -/
def plainCodec : SnapshotCodec SerializableRegistryStateMachine where
  toVec := id
  fromSlice := some
  comesBack _ := True
  fromSlice_toVec _ _ := rfl
  displayLeaderId l := toString l.term ++ "-" ++ toString l.nodeId

/-- Node `id` after the entries `log`, with no snapshot yet. -/
def storeAfter (id : RegistryNodeId) (log : List Entry) :
    SnapshotStore SerializableRegistryStateMachine :=
  ⟨.new ((replay log).getD .new) id, none, none⟩

/-- A manifest is pushed on node 2 under the tag `latest`. -/
def pushOnTwo : Entry :=
  ⟨⟨⟨1, 2⟩, 1⟩, .normal (.transaction
    [.manifestMounted 30 emptyDigest ⟨"library/a"⟩ "alice",
     .manifestStored 31 emptyDigest 2 "alice", .manifestStat 32 emptyDigest 0,
     .hashTagged 33 emptyDigest ⟨"library/a"⟩ "latest" "alice"])⟩

theorem storeAfter_hasApplied {id : RegistryNodeId} {log : List Entry} (h : (replay log).isSome) :
    (storeAfter id log).HasApplied log := by
  obtain ⟨db, hdb⟩ := Option.isSome_iff_exists.mp h
  exact ⟨db, hdb, by simp [storeAfter, RegistryStore.new, hdb]⟩

/-- Node 1 has the upload, installs the snapshot of node 2, which also has the push, and follows
    the log from there. -/
theorem snapshot_replay_iff_pushOnTwo :
    ∃ installed, (storeAfter 1 [uploadOnTwo]).installSnapshot plainCodec
        ((storeAfter 2 ([uploadOnTwo] ++ [pushOnTwo])).buildSnapshot plainCodec).2
          = some installed ∧
      ∀ batches : List (List Entry),
        ((node installed.store.id).run installed.store (batches.map .batch)).map (·.db.view) =
          (replay ([uploadOnTwo] ++ [pushOnTwo] ++ batches.flatten)).map Db.view := by
  refine (snapshot_replay_iff plainCodec [uploadOnTwo] [pushOnTwo] (storeAfter 1 [uploadOnTwo])
    (storeAfter 2 ([uploadOnTwo] ++ [pushOnTwo])) (storeAfter_hasApplied (by decide))
    (storeAfter_hasApplied (by decide)) fun _ _ _ _ _ _ => trivial).mpr ?_
  rintro k d o - ⟨pre, x, post, hsplit, ⟨ts, l, rfl, -⟩, -⟩
  have hmem : ObjectAction.unstored ts d l ∈ halves k (actionsOf [pushOnTwo]) := by
    rw [hsplit]; simp
  cases k <;> simp [halves, actionsOf, pushOnTwo, Entry.actions, RegistryAction.half] at hmem

/-- The receiver has the upload of node 2; the builder has also applied the drop of node 2. After
    the install the receiver still has the record, which the replay of the log does not. -/
theorem snapshot_keeps_dropOnTwo :
    (storeAfter 1 [uploadOnTwo]).HasApplied [uploadOnTwo] ∧
    (storeAfter 2 ([uploadOnTwo] ++ [dropOnTwo])).HasApplied ([uploadOnTwo] ++ [dropOnTwo]) ∧
    ∃ installed, (storeAfter 1 [uploadOnTwo]).installSnapshot plainCodec
        ((storeAfter 2 ([uploadOnTwo] ++ [dropOnTwo])).buildSnapshot plainCodec).2
          = some installed ∧
      (installed.store.db.tree .blob)[helloDigest]?.isSome ∧
      (replay ([uploadOnTwo] ++ [dropOnTwo] ++ [])).map
        (fun db => (db.tree .blob)[helloDigest]?.isSome) = some false ∧
      some installed.store.db.view ≠
        (replay ([uploadOnTwo] ++ [dropOnTwo] ++ [])).map Db.view := by
  exact ⟨storeAfter_hasApplied (by decide), storeAfter_hasApplied (by decide), _, rfl, by decide,
    by decide, by decide⟩

end Distribd.Store
