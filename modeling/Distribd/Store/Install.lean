import Distribd.Schemes.Staged
import Distribd.Store.Snapshot

/-! `install_snapshot` cut short (`store/mod.rs`). An install makes six durable writes: the blobs,
    the manifests and the tags of the document in one sled batch each, then `last_applied_log`, then
    `last_membership`, then the snapshot itself. Each is flushed before the next begins, and no
    transaction holds them together, so a crash or a failed write in between leaves what has been
    written so far. `install_atomic_iff` says when no such mixture can be found: when the document
    has news for at most one of the five parts of the state machine. -/

namespace Distribd.Store
open Schemes

/-! ### The five parts -/

/-- What an install writes of the state machine, in the order of the writes. -/
inductive Part where | blobs | manifests | tags | lastAppliedLog | lastMembership
  deriving DecidableEq, Repr

/-- The number of writes before the one of the part. -/
def Part.rank : Part → ℕ
  | .blobs => 0
  | .manifests => 1
  | .tags => 2
  | .lastAppliedLog => 3
  | .lastMembership => 4

/-- What a part holds. -/
def Part.Content : Part → Type
  | .blobs | .manifests => ObjectTree
  | .tags => TagTree
  | .lastAppliedLog => Option LogId
  | .lastMembership => StoredMembership

/-- A part of a database. -/
def Db.part (db : Db) : (p : Part) → p.Content
  | .blobs => db.blobs
  | .manifests => db.manifests
  | .tags => db.tags
  | .lastAppliedLog => db.lastAppliedLog
  | .lastMembership => db.getLastMembership

theorem Part.rank_injective : Function.Injective Part.rank := by
  intro p q h
  cases p <;> cases q <;> first | rfl | cases h

theorem Db.view_eq_iff {db db' : Db} : db.view = db'.view ↔ db.part = db'.part := by
  constructor
  · intro h
    have htrees : db.toTrees = db'.toTrees := congrArg Prod.fst h
    funext p
    cases p with
    | blobs => exact congrArg Trees.blobs htrees
    | manifests => exact congrArg Trees.manifests htrees
    | tags => exact congrArg Trees.tags htrees
    | lastAppliedLog => exact congrArg (·.2.1) h
    | lastMembership => exact congrArg (·.2.2) h
  · intro h
    have htrees : db.toTrees = db'.toTrees := by
      refine Trees.ext_get ?_ ?_
      · intro k d
        cases k with
        | blob => exact congrArg (fun t : ObjectTree => t[d]?) (congrFun h .blobs)
        | manifest => exact congrArg (fun t : ObjectTree => t[d]?) (congrFun h .manifests)
      · intro key
        exact congrArg (fun t : TagTree => t[key]?) (congrFun h .tags)
    have hlog : db.lastAppliedLog = db'.lastAppliedLog := congrFun h .lastAppliedLog
    have hmem : db.getLastMembership = db'.getLastMembership := congrFun h .lastMembership
    rw [Db.view, Db.view, htrees, hlog, hmem]

/-! ### An install that stops -/

variable {Bytes : Type*}

/-- The process after an `install_snapshot` that has made its first `k` durable writes and fails at
    the next; with six writes it completes. The new state machine takes the place of the old one
    when the first five are done. A document that does not decode is refused before the first. -/
def SnapshotStore.installUpTo (codec : SnapshotCodec Bytes) (st : SnapshotStore Bytes)
    (snapshot : RegistrySnapshot Bytes) (k : ℕ) : SnapshotStore Bytes :=
  match codec.fromSlice snapshot.data with
  | none => st
  | some sm =>
    let writes := installWrites sm
    let db := (writes.take k).foldl (fun db write => write db) st.store.db
    let stateMachine :=
      if writes.length ≤ k then (fromSerializable st.store.id sm st.store.db).2
      else st.store.stateMachine
    { st with
      store := { st.store with db, stateMachine }
      snapshot := if writes.length < k then some snapshot else st.snapshot }

/-- The process starts again on the same database. -/
def SnapshotStore.restart (st : SnapshotStore Bytes) : SnapshotStore Bytes :=
  { st with store := .new st.store.db st.store.id }

/-- With six writes the install has completed. -/
theorem installUpTo_six {codec : SnapshotCodec Bytes} {st st' : SnapshotStore Bytes}
    {snapshot : RegistrySnapshot Bytes} (h : st.installSnapshot codec snapshot = some st') :
    st.installUpTo codec snapshot 6 = st' := by
  obtain ⟨sm, hsm, rfl⟩ := Option.map_eq_some_iff.mp h
  rw [SnapshotStore.installUpTo, hsm]
  rfl

/-- The database after the first `k` writes holds the new content of the parts written so far. -/
theorem installWrites_take_part (sm : SerializableRegistryStateMachine) (db : Db) (k : ℕ) :
    (((installWrites sm).take k).foldl (fun db write => write db) db).part =
      staged Part.rank db.part
        ((installWrites sm).foldl (fun db write => write db) db).part k := by
  funext p
  match k with
  | 0 | 1 | 2 | 3 | 4 =>
    obtain ⟨lastAppliedLog, lastMembership, manifests, blobs, tags⟩ := sm
    cases lastAppliedLog <;> cases p <;> rfl
  | k + 5 =>
    have hall : ∀ q : Part, q.rank < k + 5 := by
      intro q
      cases q <;> simp [Part.rank]
    rw [staged, if_pos (hall p), List.take_of_length_le (by simp [installWrites])]

/-! ### What a document brings -/

/-- The document has something for the part that the database does not have. -/
def Brings (db : Db) (sm : SerializableRegistryStateMachine) : Part → Prop
  | .blobs => ∃ (d : Digest) (o : Object), sm.blobs[d]? = some o ∧ db.blobs[d]? ≠ some o
  | .manifests => ∃ (d : Digest) (o : Object), sm.manifests[d]? = some o ∧ db.manifests[d]? ≠ some o
  | .tags => ∃ (key : TagKey) (d : Digest),
      (sm.tags[key.repository]?).bind (·[key.tag]?) = some d ∧ db.tags[key]? ≠ some d
  | .lastAppliedLog => ∃ id, sm.lastAppliedLog = some id ∧ db.lastAppliedLog ≠ some id
  | .lastMembership => db.getLastMembership ≠ sm.lastMembership

/-- A tree changes exactly when the batch has an entry that it does not have. -/
theorem insertMany_brings {K V : Type*} [DecidableEq K] [Ord K] [Std.TransOrd K]
    [Std.LawfulEqOrd K] (t : Std.ExtTreeMap K V) (l : List (K × V)) (f : K → Option V)
    (hl : ∀ k v, (k, v) ∈ l ↔ f k = some v) :
    (∃ k v, f k = some v ∧ t[k]? ≠ some v) ↔ t ≠ t.insertMany l := by
  rw [ne_comm, ne_eq, insertMany_graph_eq_self_iff t hl]
  push Not
  rfl

/-- A part changes exactly when the document has news for it. -/
theorem brings_iff (db : Db) (sm : SerializableRegistryStateMachine) (p : Part) :
    Brings db sm p ↔
      db.part p ≠ ((installWrites sm).foldl (fun db write => write db) db).part p := by
  obtain ⟨lastAppliedLog, lastMembership, manifests, blobs, tags⟩ := sm
  cases p with
  | blobs =>
    have h := insertMany_brings db.blobs blobs.toList (blobs[·]?)
      fun _ _ => Std.ExtTreeMap.mem_toList_iff_getElem?_eq_some
    cases lastAppliedLog <;> exact h
  | manifests =>
    have h := insertMany_brings db.manifests manifests.toList (manifests[·]?)
      fun _ _ => Std.ExtTreeMap.mem_toList_iff_getElem?_eq_some
    cases lastAppliedLog <;> exact h
  | tags =>
    have h := insertMany_brings db.tags (ungroupTags tags) _ mem_ungroupTags
    cases lastAppliedLog <;> exact h
  | lastAppliedLog =>
    cases lastAppliedLog with
    | none =>
      constructor
      · rintro ⟨id, h, -⟩
        cases h
      · exact fun h => absurd rfl h
    | some id =>
      constructor
      · rintro ⟨id', h, hne⟩
        cases h
        exact hne
      · exact fun h => ⟨id, rfl, h⟩
  | lastMembership => cases lastAppliedLog <;> rfl

/-- ALL OR NOTHING, exactly: wherever `install_snapshot` is cut short, a restart finds the state
    before the install or the state after it, if and only if the document has news for at most one
    of the five parts. -/
theorem install_atomic_iff (codec : SnapshotCodec Bytes) (st : SnapshotStore Bytes)
    (snapshot : RegistrySnapshot Bytes) :
    (∀ k, (st.installUpTo codec snapshot k).restart.store.db.view = st.store.db.view ∨
      ∃ st', st.installSnapshot codec snapshot = some st' ∧
        (st.installUpTo codec snapshot k).restart.store.db.view = st'.store.db.view) ↔
    ∀ sm, codec.fromSlice snapshot.data = some sm →
      ∀ p q, Brings st.store.db sm p → Brings st.store.db sm q → p = q := by
  cases hsm : codec.fromSlice snapshot.data with
  | none => simp [SnapshotStore.installUpTo, SnapshotStore.restart, hsm, RegistryStore.new]
  | some sm =>
    have hatomic := atomic_iff st.store.db.part
      ((installWrites sm).foldl (fun db write => write db) st.store.db).part Part.rank_injective
    simp only [← brings_iff] at hatomic
    simp only [SnapshotStore.installUpTo, SnapshotStore.restart, SnapshotStore.installSnapshot, hsm,
      RegistryStore.new, Option.map_some, Option.some.injEq, exists_eq_left', forall_eq',
      Db.view_eq_iff, installWrites_take_part, fromSerializable]
    exact hatomic

/-- Node 1 is new and installs the snapshot of node 2, which has an upload and a push; the process
    dies after the blobs. The restart finds the blob, but no position in the log: openraft feeds it
    the upload once more. -/
theorem install_mixed_pushOnTwo :
    let snapshot := ((storeAfter 2 [uploadOnTwo, pushOnTwo]).buildSnapshot plainCodec).2
    let found := ((storeAfter 1 []).installUpTo plainCodec snapshot 1).restart
    found.store.db.view ≠ (storeAfter 1 []).store.db.view ∧
      (∀ st', (storeAfter 1 []).installSnapshot plainCodec snapshot = some st' →
        found.store.db.view ≠ st'.store.db.view) ∧
      (found.store.db.tree .blob)[helloDigest]?.isSome ∧ found.store.db.lastAppliedLog = none := by
  refine ⟨by decide, ?_, by decide, by decide⟩
  intro st' h
  obtain rfl := Option.some.inj h
  decide

end Distribd.Store
