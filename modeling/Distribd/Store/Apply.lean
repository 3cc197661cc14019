import Distribd.Store.Action

/-! `apply_to_state_machine` and start-up (`store/mod.rs`). A batch of committed entries is applied
    in one sled transaction: every entry moves `last_applied_log`, and its payload moves the data
    trees or `last_membership`; the whole batch is durable or none of it is. After the commit the
    in-memory part is brought up to date from the final state of the batch: the sets of digests
    that this node still has to download, and the requests that wait for one of them.

    `replica` is the durable part as a machine over entries (`replay` runs it on a new database),
    `bookkeeping` the in-memory part as a machine over the actions of the batch. -/

namespace Distribd.Store
open Schemes

/-! ### Entries of the raft log -/

/-- `openraft::LeaderId`. -/
structure LeaderId where
  term : ℕ
  nodeId : RegistryNodeId
  deriving DecidableEq, Repr

/-- `openraft::LogId`. -/
structure LogId where
  leaderId : LeaderId
  index : ℕ
  deriving DecidableEq, Repr

/-- `openraft::BasicNode`. -/
structure BasicNode where
  addr : String
  deriving DecidableEq, Repr

/-- `openraft::Membership`. -/
structure Membership where
  configs : List (Finset RegistryNodeId)
  nodes : Std.ExtTreeMap RegistryNodeId BasicNode
  deriving DecidableEq

/-- `openraft::StoredMembership`. -/
structure StoredMembership where
  logId : Option LogId
  membership : Membership
  deriving DecidableEq

/-- `StoredMembership::default()`. -/
def StoredMembership.default : StoredMembership := ⟨none, ⟨[], ∅⟩⟩

/-- `RegistryRequest`. -/
inductive RegistryRequest where
  | transaction (actions : List RegistryAction)
  deriving DecidableEq

/-- `openraft::EntryPayload`. -/
inductive EntryPayload where
  | blank
  | normal (req : RegistryRequest)
  | membership (mem : Membership)
  deriving DecidableEq

/-- `openraft::Entry`. -/
structure Entry where
  logId : LogId
  payload : EntryPayload
  deriving DecidableEq

/-- `RegistryResponse`. -/
structure RegistryResponse where
  value : ℕ
  deriving DecidableEq, Repr

/-- The actions an entry carries: those of a `Normal` entry, none for the other payloads. -/
def Entry.actions (e : Entry) : List RegistryAction :=
  match e.payload with
  | .normal (.transaction actions) => actions
  | _ => []

/-- Every digest in the entry has the property. -/
def Entry.OnlyDigests (P : Digest → Prop) (e : Entry) : Prop :=
  ∀ a ∈ e.actions, ∀ d ∈ a.digests, P d

/-- The actions of a whole log, in order. -/
def actionsOf (log : List Entry) : List RegistryAction := log.flatMap Entry.actions

/-! ### The transaction -/

/-- The database as the state machine sees it: the data trees and the two keys of the tree
    `state_machine` (`none`: the key is absent). -/
structure Db extends Trees where
  lastAppliedLog : Option LogId
  lastMembership : Option StoredMembership
  deriving DecidableEq

/-- A new database. -/
def Db.new : Db := { Trees.empty with lastAppliedLog := none, lastMembership := none }

/-- `get_last_membership`. -/
def Db.getLastMembership (db : Db) : StoredMembership := db.lastMembership.getD .default

/-- One entry inside the transaction. -/
def applyEntry (db : Db) (entry : Entry) : Option Db :=
  let db := { db with lastAppliedLog := some entry.logId }
  match entry.payload with
  | .blank => some db
  | .normal (.transaction actions) =>
    (applyActions db.toTrees actions).map fun t => { db with toTrees := t }
  | .membership mem => some { db with lastMembership := some ⟨some entry.logId, mem⟩ }

/-- The response pushed for an entry; all three payload branches push its index. -/
def respond (entry : Entry) : RegistryResponse :=
  match entry.payload with
  | .blank => ⟨entry.logId.index⟩
  | .normal (.transaction _) => ⟨entry.logId.index⟩
  | .membership _ => ⟨entry.logId.index⟩

/-- The durable state machine over the log. -/
def replica : Machine Db Entry := ⟨.new, applyEntry⟩

/-- A node that applied exactly `log`, entry by entry, from a new database. -/
def replay (log : List Entry) : Option Db := replica.run .new log

/-- The closure of the sled transaction: the new database and the responses, in order. -/
def transaction (db : Db) : List Entry → List RegistryResponse →
    Option (Db × List RegistryResponse)
  | [], res => some (db, res)
  | entry :: entries, res =>
    match applyEntry db entry with
    | some db => transaction db entries (res ++ [respond entry])
    | none => none

/-! ### The in-memory part -/

/-- A `oneshot::Sender` of a request that waits, and whether its receiver is still there. -/
structure Waiter where
  id : ℕ
  alive : Bool
  deriving DecidableEq, Repr

/-- `blob_waiters` / `manifest_waiters`. -/
abbrev Waiters := Std.ExtTreeMap Digest (List Waiter)

/-- `RegistryStateMachine` without its database handle: the values of the two watch channels, the
    waiters, and the requests that have been woken so far. -/
structure RegistryStateMachine where
  pendingBlobs : Finset Digest
  pendingManifests : Finset Digest
  blobWaiters : Waiters
  manifestWaiters : Waiters
  woken : List ℕ
  deriving DecidableEq

/-- The pending set of a kind. -/
def RegistryStateMachine.pending (sm : RegistryStateMachine) : Kind → Finset Digest
  | .blob => sm.pendingBlobs
  | .manifest => sm.pendingManifests

/-- The test of all three places that fill a pending set: stored somewhere, but not on node `id`. -/
def needs (id : RegistryNodeId) (o : Object) : Bool :=
  decide (id ∉ o.locations) && decide (o.locations ≠ ∅)

/-- The update of a pending set for one `*Stored` or `*Unstored` action on `digest`. -/
def refresh (id : RegistryNodeId) (t : ObjectTree) (digest : Digest) (pending : Finset Digest) :
    Finset Digest :=
  match t[digest]? with
  | some o => if needs id o then insert digest pending else pending.erase digest
  | none => pending

/-- `remove(digest)` and `send(()).unwrap()` on each sender: `none` is the panic on a dropped
    receiver. -/
def notify (waiters : Waiters) (digest : Digest) : Option (Waiters × List ℕ) :=
  match waiters[digest]? with
  | some senders =>
    if senders.all (·.alive) then some (waiters.erase digest, senders.map (·.id)) else none
  | none => some (waiters, [])

/-- One action of the loop after the commit; `t` holds the trees after the whole batch. -/
def announce (id : RegistryNodeId) (t : Trees) (sm : RegistryStateMachine) :
    RegistryAction → Option RegistryStateMachine
  | .blobStored _ d l _ =>
    let pendingBlobs := refresh id t.blobs d sm.pendingBlobs
    if l = id then
      (notify sm.blobWaiters d).map fun (w, ids) =>
        { sm with pendingBlobs, blobWaiters := w, woken := sm.woken ++ ids }
    else some { sm with pendingBlobs }
  | .blobUnstored _ d _ _ => some { sm with pendingBlobs := refresh id t.blobs d sm.pendingBlobs }
  | .manifestStored _ d l _ =>
    let pendingManifests := refresh id t.manifests d sm.pendingManifests
    if l = id then
      (notify sm.manifestWaiters d).map fun (w, ids) =>
        { sm with pendingManifests, manifestWaiters := w, woken := sm.woken ++ ids }
    else some { sm with pendingManifests }
  | .manifestUnstored _ d _ _ =>
    some { sm with pendingManifests := refresh id t.manifests d sm.pendingManifests }
  | _ => some sm

/-- The loop after the commit. -/
def bookkeeping (id : RegistryNodeId) (t : Trees) :
    Machine RegistryStateMachine RegistryAction where
  init := ⟨∅, ∅, ∅, ∅, []⟩
  step := announce id t

/-- `RegistryStore`. -/
structure RegistryStore where
  id : RegistryNodeId
  db : Db
  stateMachine : RegistryStateMachine
  deriving DecidableEq

/-- `pblobs` / `pmans` of `RegistryStore::new`. -/
def pendingOf (id : RegistryNodeId) (t : ObjectTree) : Finset Digest :=
  (t.filter fun _ o => needs id o).keys.toFinset

/-- `RegistryStore::new` on an existing database. -/
def RegistryStore.new (db : Db) (id : RegistryNodeId) : RegistryStore where
  id := id
  db := db
  stateMachine :=
    { pendingBlobs := pendingOf id db.blobs
      pendingManifests := pendingOf id db.manifests
      blobWaiters := ∅
      manifestWaiters := ∅
      woken := [] }

/-- `apply_to_state_machine`; `none` is a panic. -/
def RegistryStore.applyToStateMachine (st : RegistryStore) (entries : List Entry) :
    Option (RegistryStore × List RegistryResponse) :=
  match transaction st.db entries [] with
  | some (db, res) =>
    ((bookkeeping st.id db.toTrees).run st.stateMachine (actionsOf entries)).map fun sm =>
      ({ st with db, stateMachine := sm }, res)
  | none => none

/-! ### What an entry and a batch do to the database -/

/-- Everything one entry can do. -/
theorem applyEntry_cases {db db' : Db} {e : Entry} (h : applyEntry db e = some db') :
    applyActions db.toTrees e.actions = some db'.toTrees ∧ db'.lastAppliedLog = some e.logId ∧
      db'.lastMembership = match e.payload with
        | .membership mem => some ⟨some e.logId, mem⟩
        | _ => db.lastMembership := by
  obtain ⟨id, payload⟩ := e
  cases payload with
  | blank =>
    obtain rfl := Option.some.inj h
    exact ⟨rfl, rfl, rfl⟩
  | normal req =>
    obtain ⟨actions⟩ := req
    obtain ⟨t, ht, rfl⟩ := Option.map_eq_some_iff.mp h
    exact ⟨ht, rfl, rfl⟩
  | membership mem =>
    obtain rfl := Option.some.inj h
    exact ⟨rfl, rfl, rfl⟩

/-- A log moves the data trees by its actions. -/
theorem replica_run_trees {db db' : Db} {log : List Entry} (h : replica.run db log = some db') :
    applyActions db.toTrees (actionsOf log) = some db'.toTrees := by
  induction log generalizing db with
  | nil =>
    obtain rfl := Option.some.inj h
    rfl
  | cons e es ih =>
    obtain ⟨m, hm, hrest⟩ := replica.run_cons_some h
    have hcat : actionsOf (e :: es) = e.actions ++ actionsOf es := by simp [actionsOf]
    rw [hcat, applyActions, journal.run_append]
    exact Option.bind_eq_some_iff.mpr ⟨_, (applyEntry_cases hm).1, ih hrest⟩

/-- The digests in a database are those of its log. -/
theorem onlyDigests_replay {P : Digest → Prop} {log : List Entry} {db : Db}
    (h : replay log = some db) (hlog : ∀ e ∈ log, e.OnlyDigests P) : db.toTrees.OnlyDigests P := by
  refine onlyDigests_applyActions (replica_run_trees h) ?_ ?_
  · constructor
    · intro k d o ho
      cases k <;> simp [Db.new, Trees.empty, Trees.tree] at ho
    · intro key d hd
      simp [Db.new, Trees.empty] at hd
  · intro a ha
    obtain ⟨e, he, hmem⟩ := List.mem_flatMap.mp ha
    exact hlog e he a hmem

/-- A log moves `last_applied_log` to its last entry. -/
theorem replica_run_lastAppliedLog {db db' : Db} {log : List Entry}
    (h : replica.run db log = some db') :
    db'.lastAppliedLog = ((log.getLast?).map (·.logId)).or db.lastAppliedLog := by
  rcases List.eq_nil_or_concat log with rfl | ⟨es, e, rfl⟩
  · obtain rfl := Option.some.inj h
    rfl
  · rw [List.concat_eq_append] at h ⊢
    obtain ⟨m, -, hm⟩ := replica.run_snoc_some h
    simp [(applyEntry_cases hm).2.1]

/-- The transaction is the replica's run, with one response per entry. -/
theorem transaction_eq (db : Db) (entries : List Entry) (res : List RegistryResponse) :
    transaction db entries res =
      (replica.run db entries).map fun db => (db, res ++ entries.map respond) := by
  induction entries generalizing db res with
  | nil => simp [transaction]
  | cons e es ih =>
    rw [transaction, replica.run_cons]
    cases he : applyEntry db e with
    | none => simp [replica, he]
    | some m => simp [replica, he, ih m]

/-- Everything a completed batch does. -/
theorem applyToStateMachine_cases {st st' : RegistryStore} {entries : List Entry}
    {res : List RegistryResponse} (h : st.applyToStateMachine entries = some (st', res)) :
    st'.id = st.id ∧ replica.run st.db entries = some st'.db ∧
      (bookkeeping st.id st'.db.toTrees).run st.stateMachine (actionsOf entries)
        = some st'.stateMachine ∧ res = entries.map respond := by
  unfold RegistryStore.applyToStateMachine at h
  rw [transaction_eq] at h
  cases hr : replica.run st.db entries with
  | none => simp [hr] at h
  | some db =>
    simp only [hr, Option.map_some, Option.map_eq_some_iff, Prod.mk.injEq] at h
    obtain ⟨sm, hsm, rfl, rfl⟩ := h
    exact ⟨rfl, rfl, hsm, by simp⟩

end Distribd.Store
