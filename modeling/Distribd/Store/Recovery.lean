import Distribd.Schemes.Machine
import Distribd.Schemes.WriteBack
import Distribd.Store.LogCrash
import Distribd.Store.Replica
import Distribd.Store.Snapshot

/-! What raft finds when a node starts again (`store/mod.rs`). Three tasks of raft call the store:
    its core saves votes and writes the log, the state machine applies entries, and a builder makes
    snapshots; a call is one durable write after another, each with its flush, and the writes of the
    three come in any order. A crash may come between any two of them and loses what has not been
    flushed.

    Whatever it leaves is in order (`recovers`). The state machine is the replay of a prefix of the
    committed log. What has been purged is in the snapshot, and the snapshot is the state machine
    after a prefix that has been applied; the committed entries behind it are in the log, so that
    raft goes on where it was. No vote, no entry and no progress is lost that a call had reported
    before, and no id of a snapshot is given twice.

    A node that is sent a snapshot installs it, which is not atomic and is left out here. -/

namespace Distribd.Store
open Schemes

variable {Bytes Doc Vote : Type*}

/-! ### The calls of raft -/

/-- The database of a node. The last two are not in it: up to `committed` raft has found its log to be
    what the cluster has committed, which it never goes back on, and `deleted` is what has been
    deleted from the log, in order. -/
structure Disk (Bytes Doc Vote : Type*) where
  log : LogStore Bytes
  db : Db
  vote : Option Vote
  snapshotIndex : Option ℕ
  snapshot : Option (RegistrySnapshot Doc)
  committed : ℕ
  deleted : List LogId

/-- A new one. -/
def Disk.new : Disk Bytes Doc Vote := ⟨.new, .new, none, none, none, 0, []⟩

/-- The tasks of raft. -/
inductive RaftTask where | core | stateMachine | snapshotBuilder
  deriving DecidableEq, Repr

/-- What they ask for; with `commit` the core learns that its log is committed up to an index. -/
inductive StorageCall (Vote : Type*) where
  | saveVote (vote : Vote)
  | log (op : LogOp)
  | applyToStateMachine (upTo : ℕ)
  | buildSnapshot
  | commit (upTo : ℕ)

/-- The task that makes the call. -/
def StorageCall.task : StorageCall Vote → RaftTask
  | .saveVote _ | .log _ | .commit _ => .core
  | .applyToStateMachine _ => .stateMachine
  | .buildSnapshot => .snapshotBuilder

/-- A call with its result: a snapshot, by its number. `since` is how much had been deleted from the
    log when it began. -/
structure Returned (Vote : Type*) where
  call : StorageCall Vote
  built : Option (ℕ × SnapshotMeta)
  since : ℕ

section

variable (codec : LogCodec Bytes) (docs : SnapshotCodec Doc) (id : RegistryNodeId)

/-- How far the log has been purged. -/
def Disk.purged (s : Disk Bytes Doc Vote) : ℕ := nextOf (s.log.getLastPurged codec)

/-- How far a snapshot reaches. -/
def RegistrySnapshot.reach (snapshot : RegistrySnapshot Doc) : ℕ :=
  nextOf snapshot.snapshotMeta.lastLogId

/-- The entries that raft hands to the state machine, out of its log. -/
def Disk.batch (s : Disk Bytes Doc Vote) (upTo : ℕ) : List Entry :=
  (List.range' (nextIndex s.db) (upTo - nextIndex s.db)).filterMap (s.log.entry codec)

/-- The store as `build_snapshot` sees it. -/
def Disk.snapshotStore (s : Disk Bytes Doc Vote) : SnapshotStore Doc :=
  ⟨.new s.db id, s.snapshotIndex, s.snapshot⟩

/-- The result of a call. -/
def StorageCall.result (s : Disk Bytes Doc Vote) : StorageCall Vote → Option (ℕ × SnapshotMeta)
  | .buildSnapshot =>
    let (_, snapshot) := (s.snapshotStore id).buildSnapshot docs
    some ((s.snapshotStore id).getSnapshotIndex + 1, snapshot.snapshotMeta)
  | _ => none

/-- What it comes to when it begins now. -/
def StorageCall.returned (s : Disk Bytes Doc Vote) (call : StorageCall Vote) : Returned Vote :=
  ⟨call, call.result docs id s, s.deleted.length⟩

/-- The durable writes of a call that begins now. `build_snapshot` reads the state machine first. -/
def StorageCall.writes (s : Disk Bytes Doc Vote) :
    StorageCall Vote → List (Disk Bytes Doc Vote → Disk Bytes Doc Vote)
  | .saveVote vote => [fun s => { s with vote := some vote }]
  | .log (.deleteSince logId) =>
    [fun s => { s with
      log := s.log.deleteConflictLogsSince logId
      deleted := s.deleted ++ [logId] }]
  | .log op => (op.writes codec).map fun write s => { s with log := write s.log }
  | .applyToStateMachine upTo =>
    match transaction s.db (s.batch codec upTo) [] with
    | some (db, _) => [fun s => { s with db }]
    | none => []
  | .buildSnapshot =>
    let (st, _) := (s.snapshotStore id).buildSnapshot docs
    [fun s => { s with snapshotIndex := st.snapshotIndex },
     fun s => { s with snapshot := st.snapshot }]
  | .commit upTo => [fun s => { s with committed := upTo }]

variable [Preorder Vote]

/-- What raft may ask for: no smaller vote than the last, no deletion of what is committed, no purge
    beyond the snapshot, no application of what is not committed. -/
def StorageCall.Allowed (log : List Entry) (s : Disk Bytes Doc Vote) : StorageCall Vote → Prop
  | .saveVote vote => ∀ v ∈ s.vote, v ≤ vote
  | .log (.append entries) => Legal codec s.log (.append entries)
  | .log (.deleteSince logId) => Legal codec s.log (.deleteSince logId) ∧ s.committed ≤ logId.index
  | .log (.purge logId) =>
    Legal codec s.log (.purge logId) ∧ ∃ snapshot ∈ s.snapshot, logId.index < snapshot.reach
  | .applyToStateMachine upTo => nextIndex s.db ≤ upTo ∧ upTo ≤ s.committed
  | .buildSnapshot => True
  | .commit upTo => s.committed ≤ upTo ∧ upTo ≤ log.length ∧
      ∀ i < upTo, s.purged codec ≤ i → s.log.entry codec i = log[i]?

instance [DecidableLE Vote] (log : List Entry) (s : Disk Bytes Doc Vote) :
    ∀ call, Decidable (StorageCall.Allowed codec log s call)
  | .saveVote vote => inferInstanceAs (Decidable (∀ v ∈ s.vote, v ≤ vote))
  | .log (.append entries) => inferInstanceAs (Decidable (Legal codec s.log (.append entries)))
  | .log (.deleteSince logId) => inferInstanceAs (Decidable
      (Legal codec s.log (.deleteSince logId) ∧ s.committed ≤ logId.index))
  | .log (.purge logId) => inferInstanceAs (Decidable (Legal codec s.log (.purge logId) ∧
      ∃ snapshot ∈ s.snapshot, logId.index < snapshot.reach))
  | .applyToStateMachine upTo =>
    inferInstanceAs (Decidable (nextIndex s.db ≤ upTo ∧ upTo ≤ s.committed))
  | .buildSnapshot => inferInstanceAs (Decidable True)
  | .commit upTo => inferInstanceAs (Decidable (s.committed ≤ upTo ∧ upTo ≤ log.length ∧
      ∀ i < upTo, s.purged codec ≤ i → s.log.entry codec i = log[i]?))

/-- Every digest in the entries of a call has the property. -/
def StorageCall.OnlyDigests (P : Digest → Prop) : StorageCall Vote → Prop
  | .log op => op.OnlyDigests P
  | _ => True

/-- What can happen to a node. -/
inductive StorageEvent (Vote : Type*) where
  | call (call : StorageCall Vote)
  | proceed (task : RaftTask)
  | fail (task : RaftTask)
  | crash (lost : ℕ)

/-- Every digest in the entries of an event has the property. -/
def StorageEvent.OnlyDigests (P : Digest → Prop) : StorageEvent Vote → Prop
  | .call c => c.OnlyDigests P
  | _ => True

/-- The process of a node, and its database. -/
abbrev Process (Bytes Doc Vote : Type*) := Tasks RaftTask (Returned Vote) (Disk Bytes Doc Vote)

variable [DecidableLE Vote]

/-- One event. -/
def storageStep (log : List Entry) (m : Process Bytes Doc Vote) :
    StorageEvent Vote → Option (Process Bytes Doc Vote)
  | .call call =>
    if call.Allowed codec log m.store.current then
      m.start call.task (call.returned docs id m.store.current)
        (call.writes codec docs id m.store.current)
    else none
  | .proceed task => m.proceed task
  | .fail task => some (m.fail task)
  | .crash lost => m.crash lost

/-- A node whose cluster commits this log. -/
def storage (log : List Entry) : Machine (Process Bytes Doc Vote) (StorageEvent Vote) :=
  ⟨.new .new, storageStep codec docs id log⟩

end

/-! ### The rows of the log -/

section Rows

variable {codec : LogCodec Bytes} {st : LogStore Bytes} {m : FiniteLog}

/-- The entries are below the index after the last one. -/
theorem lt_nextOf_state (h : Refines codec st m) {i : ℕ} (hi : m.entries[i]? ≠ none) :
    i < nextOf m.state.lastLogId := by
  obtain ⟨e, he⟩ := Option.ne_none_iff_exists'.mp hi
  cases hlast : m.entries.toList.getLast? with
  | none =>
    have hmem := Std.ExtTreeMap.mem_toList_iff_getElem?_eq_some.mpr he
    rw [List.getLast?_eq_none_iff.mp hlast] at hmem
    cases hmem
  | some p =>
    have hp := Std.ExtTreeMap.mem_toList_iff_getElem?_eq_some.mp (List.mem_of_getLast? hlast)
    have hle := le_getLast?_toList hlast he
    have hnext : nextOf m.state.lastLogId = p.1 + 1 := by
      simp [FiniteLog.state, hlast, nextOf, h.index p.1 p.2 hp]
    omega

/-- Appending leaves the entries as they are, and all new ones are there. -/
theorem entry_appendToLog (h : Refines codec st m) {entries : List Entry}
    (hdigests : ∀ e ∈ entries, e.OnlyDigests codec.comesBack)
    (hlegal : Legal codec st (.append entries)) :
    (∀ i e, st.entry codec i = some e → (st.appendToLog codec entries).entry codec i = some e) ∧
      ∀ e ∈ entries, (st.appendToLog codec entries).entry codec e.logId.index = some e := by
  obtain ⟨hindices, -⟩ := hlegal
  rw [h.getLogState] at hindices
  have hnodup : (entries.map (·.logId.index)).Nodup := by
    rw [hindices]
    exact List.nodup_range'
  have hnew : ∀ e ∈ entries, nextOf m.state.lastLogId ≤ e.logId.index := by
    intro e he
    have hmem := List.mem_map_of_mem (f := (·.logId.index)) he
    rw [hindices, List.mem_range'_1] at hmem
    exact hmem.1
  have hafter := h.append hdigests
  constructor
  · intro i e hold
    rw [h.entry] at hold
    rw [hafter.entry]
    have hi : m.entries[i]? ≠ none := by simp [hold]
    obtain ⟨e', he'⟩ := Option.ne_none_iff_exists'.mp (append_get_ne_none.mpr (.inl hi))
    rcases append_get he' with ⟨hmem, rfl⟩ | hsame
    · have hlt := lt_nextOf_state h hi
      have hle := hnew e' hmem
      omega
    · rw [he', ← hold, hsame]
  · intro e he
    rw [hafter.entry]
    obtain ⟨e', he'⟩ := Option.ne_none_iff_exists'.mp
      (append_get_ne_none.mpr (.inr (List.mem_map_of_mem (f := (·.logId.index)) he)))
    rcases append_get he' with ⟨hmem, hindex⟩ | hold
    · rw [he', List.inj_on_of_nodup_map hnodup hmem he hindex]
    · have hlt := lt_nextOf_state h (i := e.logId.index) (by simp [hold])
      have hle := hnew e he
      omega

/-- A deletion leaves what is before its index. -/
theorem entry_deleteConflictLogsSince (h : Refines codec st m) (logId : LogId) {i : ℕ}
    (hi : i < logId.index) :
    (st.deleteConflictLogsSince logId).entry codec i = st.entry codec i := by
  rw [(h.deleteSince logId).entry, h.entry, without_get, if_neg (by simp; omega)]

/-- A purge leaves what is after its index. -/
theorem entry_removeUpTo (h : Refines codec st m) (logId : LogId) {i : ℕ} (hi : logId.index < i) :
    (st.removeUpTo logId).entry codec i = st.entry codec i := by
  rw [(h.removeUpTo logId).entry, h.entry, without_get, if_neg (by simpa using hi)]

theorem getLastPurged_setLastPurged (codec : LogCodec Bytes) (st : LogStore Bytes) (logId : LogId) :
    (st.setLastPurged codec logId).getLastPurged codec = some logId := by
  simp [LogStore.getLastPurged, LogStore.setLastPurged, codec.logIdFromSlice_toVec]

end Rows

/-! ### What is always in order -/

/-- The snapshot is the state machine after a prefix of the log that has been applied. -/
def RegistrySnapshot.Of (docs : SnapshotCodec Doc) (log : List Entry) (applied : ℕ)
    (snapshot : RegistrySnapshot Doc) : Prop :=
  snapshot.reach ≤ applied ∧ ∃ db, replay (log.take snapshot.reach) = some db ∧
    docs.fromSlice snapshot.data = some (serializable db) ∧
    snapshot.snapshotMeta.lastLogId = db.lastAppliedLog ∧
    snapshot.snapshotMeta.lastMembership = db.getLastMembership

section

variable (codec : LogCodec Bytes) (docs : SnapshotCodec Doc)

/-- A database that raft can go on with. -/
structure Disk.Sound (log : List Entry) (s : Disk Bytes Doc Vote) : Prop where
  refines : ∃ m, Refines codec s.log m
  applied : replay (log.take (nextIndex s.db)) = some s.db
  le_committed : nextIndex s.db ≤ s.committed
  committed_le : s.committed ≤ log.length
  stored : ∀ i, s.purged codec ≤ i → i < s.committed → s.log.entry codec i = log[i]?
  snapshot : ∀ snapshot ∈ s.snapshot, snapshot.Of docs log (nextIndex s.db)
  purged : 0 < s.purged codec → ∃ snapshot ∈ s.snapshot, s.purged codec ≤ snapshot.reach

variable [Preorder Vote]

/-- The index is in a suffix that has been deleted since then. -/
def Disk.DeletedSince (s : Disk Bytes Doc Vote) (since i : ℕ) : Prop :=
  ∃ logId ∈ s.deleted.drop since, logId.index ≤ i

/-- No write takes back a vote, a purge or what has been applied, and an entry stays unless it is
    purged or deleted. -/
structure Disk.Grows (s s' : Disk Bytes Doc Vote) : Prop where
  vote : ∀ v ∈ s.vote, ∃ v' ∈ s'.vote, v ≤ v'
  purged : s.purged codec ≤ s'.purged codec
  committed : s.committed ≤ s'.committed
  applied : nextIndex s.db ≤ nextIndex s'.db
  index : s.snapshotIndex.getD 0 ≤ s'.snapshotIndex.getD 0
  reach : ∀ snapshot ∈ s.snapshot, ∃ snapshot' ∈ s'.snapshot, snapshot.reach ≤ snapshot'.reach
  deleted : s.deleted <+: s'.deleted
  entries : ∀ i e, s.log.entry codec i = some e → s'.log.entry codec i = some e ∨
    i < s'.purged codec ∨ s'.DeletedSince s.deleted.length i

/-- What only the task itself writes stays. -/
def Disk.Own (s s' : Disk Bytes Doc Vote) : RaftTask → Prop
  | .core => s'.log = s.log ∧ s'.vote = s.vote ∧ s'.committed = s.committed ∧
      s'.deleted = s.deleted
  | .stateMachine => s'.db = s.db
  | .snapshotBuilder => s'.snapshotIndex = s.snapshotIndex ∧ s'.snapshot = s.snapshot

/-- What a call that has returned is for. A deletion is looked up among those that have been made
    durable, since what it deleted may have been appended again. -/
def Returned.Done (r : Returned Vote) (s : Disk Bytes Doc Vote) : Prop :=
  match r.call with
  | .saveVote vote => ∃ v ∈ s.vote, vote ≤ v
  | .log (.append entries) => r.since ≤ s.deleted.length ∧
      ∀ e ∈ entries, s.log.entry codec e.logId.index = some e ∨
        e.logId.index < s.purged codec ∨ s.DeletedSince r.since e.logId.index
  | .log (.deleteSince logId) => logId ∈ s.deleted.drop r.since
  | .log (.purge logId) => logId.index < s.purged codec
  | .applyToStateMachine upTo => upTo ≤ nextIndex s.db
  | .buildSnapshot => ∀ b ∈ r.built, b.1 ≤ s.snapshotIndex.getD 0 ∧
      ∃ snapshot ∈ s.snapshot, nextOf b.2.lastLogId ≤ snapshot.reach
  | .commit upTo => upTo ≤ s.committed

variable {codec}

theorem Disk.Grows.refl (s : Disk Bytes Doc Vote) : s.Grows codec s where
  vote v hv := ⟨v, hv, le_rfl⟩
  purged := le_rfl
  committed := le_rfl
  applied := le_rfl
  index := le_rfl
  reach snapshot h := ⟨snapshot, h, le_rfl⟩
  deleted := List.prefix_rfl
  entries _ _ h := .inl h

omit [Preorder Vote] in
/-- What has been deleted stays deleted. -/
theorem Disk.DeletedSince.mono {s s' : Disk Bytes Doc Vote} {since since' i : ℕ}
    (h : s.DeletedSince since i) (hle : since' ≤ since) (hextends : s.deleted <+: s'.deleted) :
    s'.DeletedSince since' i := by
  obtain ⟨logId, hmem, hi⟩ := h
  obtain ⟨more, hmore⟩ := hextends
  refine ⟨logId, List.drop_subset_drop_left _ hle ?_, hi⟩
  rw [← hmore, List.drop_append]
  exact List.mem_append_left _ hmem

theorem Disk.Grows.trans {s t u : Disk Bytes Doc Vote} (hst : s.Grows codec t)
    (htu : t.Grows codec u) : s.Grows codec u where
  vote v hv := by
    obtain ⟨v', hv', hle⟩ := hst.vote v hv
    obtain ⟨v'', hv'', hle'⟩ := htu.vote v' hv'
    exact ⟨v'', hv'', hle.trans hle'⟩
  purged := hst.purged.trans htu.purged
  committed := hst.committed.trans htu.committed
  applied := hst.applied.trans htu.applied
  index := hst.index.trans htu.index
  reach snapshot h := by
    obtain ⟨snapshot', h', hle⟩ := hst.reach snapshot h
    obtain ⟨snapshot'', h'', hle'⟩ := htu.reach snapshot' h'
    exact ⟨snapshot'', h'', hle.trans hle'⟩
  deleted := hst.deleted.trans htu.deleted
  entries i e h := by
    rcases hst.entries i e h with h | hlt | hdeleted
    · rcases htu.entries i e h with h | hlt | hdeleted
      · exact .inl h
      · exact .inr (.inl hlt)
      · exact .inr (.inr (hdeleted.mono hst.deleted.length_le List.prefix_rfl))
    · exact .inr (.inl (hlt.trans_le htu.purged))
    · exact .inr (.inr (hdeleted.mono le_rfl htu.deleted))

theorem Returned.Done.grows {r : Returned Vote} {s s' : Disk Bytes Doc Vote}
    (h : r.Done codec s) (hgrows : s.Grows codec s') :
    r.Done codec s' := by
  obtain ⟨call, built, since⟩ := r
  cases call with
  | saveVote vote =>
    obtain ⟨v, hv, hle⟩ := h
    obtain ⟨v', hv', hle'⟩ := hgrows.vote v hv
    exact ⟨v', hv', hle.trans hle'⟩
  | log op =>
    cases op with
    | append entries =>
      obtain ⟨hsince, h⟩ := h
      refine ⟨hsince.trans hgrows.deleted.length_le, fun e he => ?_⟩
      rcases h e he with h | hlt | hdeleted
      · rcases hgrows.entries _ e h with h | hlt | hdeleted
        · exact .inl h
        · exact .inr (.inl hlt)
        · exact .inr (.inr (hdeleted.mono hsince List.prefix_rfl))
      · exact .inr (.inl (hlt.trans_le hgrows.purged))
      · exact .inr (.inr (hdeleted.mono le_rfl hgrows.deleted))
    | deleteSince logId =>
      obtain ⟨more, hmore⟩ := hgrows.deleted
      show logId ∈ s'.deleted.drop since
      rw [← hmore, List.drop_append]
      exact List.mem_append_left _ h
    | purge logId => exact lt_of_lt_of_le (show logId.index < s.purged codec from h) hgrows.purged
  | applyToStateMachine upTo => exact le_trans (show upTo ≤ nextIndex s.db from h) hgrows.applied
  | buildSnapshot =>
    intro b hb
    obtain ⟨hindex, snapshot, hsnapshot, hle⟩ := h b hb
    obtain ⟨snapshot', hsnapshot', hle'⟩ := hgrows.reach snapshot hsnapshot
    exact ⟨hindex.trans hgrows.index, snapshot', hsnapshot', hle.trans hle'⟩
  | commit upTo => exact le_trans (show upTo ≤ s.committed from h) hgrows.committed

variable (codec)

/-- The protocol of the three tasks. -/
def storageProtocol (log : List Entry) :
    Protocol RaftTask (Returned Vote) (Disk Bytes Doc Vote) where
  Inv := Disk.Sound codec docs log
  Guarantee task s s' := s.Grows codec s' ∧ ∀ other ≠ task, s.Own s' other
  Done r s := r.Done codec s
  done_mono h hdone := hdone.grows h.1

variable {codec docs}

/-- What a task finds when it comes to its next write. -/
theorem of_rely {log : List Entry} {task : RaftTask} {s s' : Disk Bytes Doc Vote}
    (h : (storageProtocol codec docs log).Rely task s s') :
    s.Grows codec s' ∧ s.Own s' task := by
  refine h.of_guarantees (Q := fun s s' => s.Grows codec s' ∧ s.Own s' task) ?_ ?_ ?_
  · intro s
    refine ⟨.refl s, ?_⟩
    cases task <;> simp [Disk.Own]
  · rintro s t u ⟨hst, hst'⟩ ⟨htu, htu'⟩
    refine ⟨hst.trans htu, ?_⟩
    cases task with
    | core =>
      obtain ⟨hlog, hvote, hcommitted, hdeleted⟩ := hst'
      exact ⟨htu'.1.trans hlog, htu'.2.1.trans hvote, htu'.2.2.1.trans hcommitted,
        htu'.2.2.2.trans hdeleted⟩
    | stateMachine => exact Eq.trans htu' hst'
    | snapshotBuilder => exact ⟨htu'.1.trans hst'.1, htu'.2.trans hst'.2⟩
  · intro j hj s s' hstep
    exact ⟨hstep.1, hstep.2 task (Ne.symm hj)⟩

/-! ### The writes of each call -/

section Calls

variable {log : CommittedLog} {s : Disk Bytes Doc Vote}

omit [Preorder Vote] in
theorem own_of_core {s' : Disk Bytes Doc Vote} (hdb : s'.db = s.db)
    (hindex : s'.snapshotIndex = s.snapshotIndex) (hsnapshot : s'.snapshot = s.snapshot) :
    ∀ other ≠ .core, s.Own s' other := by
  intro other hother
  cases other with
  | core => exact absurd rfl hother
  | stateMachine => exact hdb
  | snapshotBuilder => exact ⟨hindex, hsnapshot⟩

omit [Preorder Vote] in
/-- A new state of the log. -/
theorem Disk.Sound.setLog (h : s.Sound codec docs log.entries) {l : LogStore Bytes}
    {deleted : List LogId} (hrefines : ∃ m, Refines codec l m)
    (hpurged : 0 < nextOf (l.getLastPurged codec) →
      ∃ snapshot ∈ s.snapshot, nextOf (l.getLastPurged codec) ≤ snapshot.reach)
    (hlater : s.purged codec ≤ nextOf (l.getLastPurged codec))
    (hstored : ∀ i, nextOf (l.getLastPurged codec) ≤ i → i < s.committed →
      l.entry codec i = s.log.entry codec i) :
    ({ s with log := l, deleted } : Disk Bytes Doc Vote).Sound codec docs log.entries where
  refines := hrefines
  applied := h.applied
  le_committed := h.le_committed
  committed_le := h.committed_le
  stored i hi hlt := (hstored i hi hlt).trans (h.stored i (hlater.trans hi) hlt)
  snapshot := h.snapshot
  purged := hpurged

theorem guarantee_setLog {l : LogStore Bytes} {deleted : List LogId}
    (hlater : s.purged codec ≤ nextOf (l.getLastPurged codec)) (hextends : s.deleted <+: deleted)
    (hentries : ∀ i e, s.log.entry codec i = some e → l.entry codec i = some e ∨
      i < nextOf (l.getLastPurged codec) ∨ ∃ logId ∈ deleted.drop s.deleted.length, logId.index ≤ i) :
    (storageProtocol codec docs log.entries).Guarantee .core s { s with log := l, deleted } :=
  ⟨⟨fun v hv => ⟨v, hv, le_rfl⟩, hlater, le_rfl, le_rfl, le_rfl,
    fun snapshot h => ⟨snapshot, h, le_rfl⟩, hextends, hentries⟩, own_of_core rfl rfl rfl⟩

theorem fits_saveVote {vote : Vote}
    (hallowed : (StorageCall.saveVote vote).Allowed codec log.entries s)
    (built : Option (ℕ × SnapshotMeta)) (since : ℕ) :
    (storageProtocol codec docs log.entries).Fits .core ⟨.saveVote vote, built, since⟩
      [fun s => { s with vote := some vote }] s := by
  intro s' hrely hs'
  obtain ⟨-, -, hvote, -⟩ := of_rely hrely
  refine ⟨⟨hs'.refines, hs'.applied, hs'.le_committed, hs'.committed_le, hs'.stored, hs'.snapshot,
    hs'.purged⟩, ⟨⟨?_, le_rfl, le_rfl, le_rfl, le_rfl, fun snapshot h => ⟨snapshot, h, le_rfl⟩,
    List.prefix_rfl, fun _ _ h => .inl h⟩, own_of_core rfl rfl rfl⟩, ⟨vote, rfl, le_rfl⟩⟩
  intro v hv
  rw [hvote] at hv
  exact ⟨vote, rfl, hallowed v hv⟩

theorem fits_append {entries : List Entry}
    (hdigests : ∀ e ∈ entries, e.OnlyDigests codec.comesBack)
    (hallowed : (.log (.append entries) : StorageCall Vote).Allowed codec log.entries s)
    (built : Option (ℕ × SnapshotMeta)) :
    (storageProtocol codec docs log.entries).Fits .core
      ⟨.log (.append entries), built, s.deleted.length⟩
      [fun s => { s with log := s.log.appendToLog codec entries }] s := by
  intro s' hrely hs'
  obtain ⟨hgrows, hlog, -, -, -⟩ := of_rely hrely
  obtain ⟨m, hm⟩ := hs'.refines
  obtain ⟨hold, hnew⟩ := entry_appendToLog hm hdigests
    (show Legal codec s'.log (.append entries) by rw [hlog]; exact hallowed)
  refine ⟨hs'.setLog ⟨_, hm.append hdigests⟩ hs'.purged le_rfl ?_,
    guarantee_setLog le_rfl List.prefix_rfl fun i e h => .inl (hold i e h),
    hgrows.deleted.length_le, fun e he => .inl (hnew e he)⟩
  intro i hi hlt
  have hstored := hs'.stored i hi hlt
  obtain ⟨e, hsome⟩ : ∃ e, log.entries[i]? = some e :=
    ⟨_, List.getElem?_eq_getElem (hlt.trans_le hs'.committed_le)⟩
  rw [hstored, hsome]
  exact hold i e (hstored.trans hsome)

theorem fits_deleteSince {logId : LogId}
    (hallowed : (.log (.deleteSince logId) : StorageCall Vote).Allowed codec log.entries s)
    (built : Option (ℕ × SnapshotMeta)) :
    (storageProtocol codec docs log.entries).Fits .core
      ⟨.log (.deleteSince logId), built, s.deleted.length⟩
      [fun s => { s with
        log := s.log.deleteConflictLogsSince logId
        deleted := s.deleted ++ [logId] }] s := by
  intro s' hrely hs'
  obtain ⟨-, -, -, hcommitted, hdeleted⟩ := of_rely hrely
  obtain ⟨m, hm⟩ := hs'.refines
  refine ⟨hs'.setLog ⟨_, hm.deleteSince logId⟩ hs'.purged le_rfl ?_,
    guarantee_setLog le_rfl (List.prefix_append _ _) ?_, ?_⟩
  · intro i hi hlt
    have hle := hallowed.2
    exact entry_deleteConflictLogsSince hm logId (by omega)
  · intro i e h
    by_cases hi : i < logId.index
    · exact .inl ((entry_deleteConflictLogsSince hm logId hi).trans h)
    · exact .inr (.inr ⟨logId, by simp, not_lt.mp hi⟩)
  · show logId ∈ (s'.deleted ++ [logId]).drop s.deleted.length
    rw [hdeleted]
    simp

theorem fits_purge {logId : LogId}
    (hallowed : (.log (.purge logId) : StorageCall Vote).Allowed codec log.entries s)
    (built : Option (ℕ × SnapshotMeta)) (since : ℕ) :
    (storageProtocol codec docs log.entries).Fits .core ⟨.log (.purge logId), built, since⟩
      [fun s => { s with log := s.log.setLastPurged codec logId },
       fun s => { s with log := s.log.removeUpTo logId }] s := by
  intro s' hrely hs'
  obtain ⟨hgrows, hlog, -, -, -⟩ := of_rely hrely
  obtain ⟨m, hm⟩ := hs'.refines
  have hnext : nextOf ((s'.log.setLastPurged codec logId).getLastPurged codec) =
      logId.index + 1 := by
    rw [getLastPurged_setLastPurged]
    rfl
  have hlater : s'.purged codec ≤
      nextOf ((s'.log.setLastPurged codec logId).getLastPurged codec) := by
    rw [hnext, Disk.purged, hlog]
    exact hallowed.1.1
  refine ⟨hs'.setLog ⟨_, hm.setLastPurged logId⟩ ?_ hlater (fun _ _ _ => rfl),
    guarantee_setLog hlater List.prefix_rfl (fun _ _ h => .inl h), ?_⟩
  · -- the snapshot has not got any shorter
    obtain ⟨snapshot, hsnapshot, hlt⟩ := hallowed.2
    obtain ⟨snapshot', hsnapshot', hle⟩ := hgrows.reach snapshot hsnapshot
    intro _
    exact ⟨snapshot', hsnapshot', by rw [hnext]; omega⟩
  · intro t hrely' ht
    obtain ⟨-, hlog', -, -, -⟩ := of_rely hrely'
    obtain ⟨m', hm'⟩ := ht.refines
    have hpurged : t.purged codec = logId.index + 1 := by
      rw [Disk.purged, hlog']
      exact hnext
    refine ⟨ht.setLog ⟨_, hm'.removeUpTo logId⟩ ht.purged le_rfl ?_,
      guarantee_setLog le_rfl List.prefix_rfl ?_, ?_⟩
    · intro i hi _
      have hle : t.purged codec ≤ i := hi
      exact entry_removeUpTo hm' logId (by omega)
    · intro i e h
      by_cases hi : logId.index < i
      · exact .inl ((entry_removeUpTo hm' logId hi).trans h)
      · refine .inr (.inl ?_)
        show i < t.purged codec
        omega
    · show logId.index < t.purged codec
      omega

theorem fits_commit {upTo : ℕ}
    (hallowed : (.commit upTo : StorageCall Vote).Allowed codec log.entries s)
    (built : Option (ℕ × SnapshotMeta)) (since : ℕ) :
    (storageProtocol codec docs log.entries).Fits .core ⟨.commit upTo, built, since⟩
      [fun s => { s with committed := upTo }] s := by
  obtain ⟨hle, hlength, hsame⟩ := hallowed
  intro s' hrely hs'
  obtain ⟨-, hlog, -, hcommitted, -⟩ := of_rely hrely
  have hle' : s'.committed ≤ upTo := hcommitted.trans_le hle
  refine ⟨⟨hs'.refines, hs'.applied, hs'.le_committed.trans hle', hlength, ?_, hs'.snapshot,
    hs'.purged⟩, ⟨⟨fun v hv => ⟨v, hv, le_rfl⟩, le_rfl, hle', le_rfl, le_rfl,
    fun snapshot h => ⟨snapshot, h, le_rfl⟩, List.prefix_rfl, fun _ _ h => .inl h⟩,
    own_of_core rfl rfl rfl⟩, le_rfl⟩
  intro i hi hlt
  have hpurged : s.purged codec ≤ i := by
    rw [Disk.purged, ← hlog]
    exact hi
  have hstored := hsame i hlt hpurged
  rwa [← hlog] at hstored

theorem filterMap_range' {α : Type*} (l : List α) (a n : ℕ) :
    (List.range' a n).filterMap (l[·]?) = (l.drop a).take n := by
  induction n generalizing a with
  | zero => simp
  | succ n ih =>
    rw [List.range'_succ]
    cases ha : l[a]? with
    | none =>
      rw [List.filterMap_cons_none ha, ih]
      have hlength := List.getElem?_eq_none_iff.mp ha
      rw [List.drop_eq_nil_of_le hlength, List.drop_eq_nil_of_le (hlength.trans a.le_succ)]
      simp
    | some x =>
      obtain ⟨hlt, rfl⟩ := List.getElem?_eq_some_iff.mp ha
      rw [List.filterMap_cons_some ha, ih, List.drop_eq_getElem_cons hlt, List.take_succ_cons]

omit [Preorder Vote] in
/-- The entries for the state machine are the next ones of the committed log. -/
theorem batch_eq (hs : s.Sound codec docs log.entries) {upTo : ℕ} (hupTo : upTo ≤ s.committed) :
    s.batch codec upTo = (log.entries.drop (nextIndex s.db)).take (upTo - nextIndex s.db) := by
  have hpurged : s.purged codec ≤ nextIndex s.db := by
    rcases Nat.eq_zero_or_pos (s.purged codec) with hzero | hpos
    · omega
    · obtain ⟨snapshot, hsnapshot, hle⟩ := hs.purged hpos
      exact hle.trans (hs.snapshot snapshot hsnapshot).1
  have hle := hs.committed_le
  have hmap : ∀ i ∈ List.range' (nextIndex s.db) (upTo - nextIndex s.db),
      s.log.entry codec i = log.entries[i]? := by
    intro i hi
    rw [List.mem_range'_1] at hi
    exact hs.stored i (hpurged.trans hi.1) (by omega)
  rw [Disk.batch, List.filterMap_congr hmap, filterMap_range']

omit [Preorder Vote] in
/-- What the state machine is when its entries have been applied. -/
theorem run_batch (hs : s.Sound codec docs log.entries) {upTo : ℕ} (hle : nextIndex s.db ≤ upTo)
    (hupTo : upTo ≤ s.committed) : ∃ db, replica.run s.db (s.batch codec upTo) = some db ∧
      replay (log.entries.take upTo) = some db ∧ nextIndex db = upTo := by
  have hlength := hs.committed_le
  obtain ⟨db, hdb⟩ : ∃ db, replay (log.entries.take upTo) = some db := by
    obtain ⟨whole, hwhole⟩ := Option.isSome_iff_exists.mp log.replays
    rw [← List.take_append_drop upTo log.entries] at hwhole
    obtain ⟨db, hdb, -⟩ := replica.run_append_some hwhole
    exact ⟨db, hdb⟩
  refine ⟨db, ?_, hdb, nextIndex_replay log.index (by omega) hdb⟩
  have hsplit : log.entries.take upTo = log.entries.take (nextIndex s.db) ++
      (log.entries.drop (nextIndex s.db)).take (upTo - nextIndex s.db) := by
    rw [← List.take_add, Nat.add_sub_cancel' hle]
  rw [hsplit] at hdb
  obtain ⟨db', hdb', hrun⟩ := replica.run_append_some hdb
  obtain rfl : s.db = db' := Option.some.inj (hs.applied.symm.trans hdb')
  rw [batch_eq hs hupTo]
  exact hrun

theorem fits_apply (hs : s.Sound codec docs log.entries) {upTo : ℕ}
    (hallowed : (.applyToStateMachine upTo : StorageCall Vote).Allowed codec log.entries s)
    (id : RegistryNodeId) (built : Option (ℕ × SnapshotMeta)) (since : ℕ) :
    (storageProtocol codec docs log.entries).Fits .stateMachine
        ⟨.applyToStateMachine upTo, built, since⟩
        ((StorageCall.applyToStateMachine upTo).writes codec docs id s) s ∧
      (StorageCall.applyToStateMachine upTo).writes codec docs id s ≠ [] := by
  obtain ⟨hle, hupTo⟩ := hallowed
  obtain ⟨db, hrun, hreplay, hnext⟩ := run_batch hs hle hupTo
  have hwrites : (StorageCall.applyToStateMachine upTo).writes codec docs id s =
      [fun s => { s with db }] := by
    simp [StorageCall.writes, transaction_eq, hrun]
  rw [hwrites]
  refine ⟨?_, by simp⟩
  intro s' hrely hs'
  obtain ⟨hgrows, hdb⟩ := of_rely hrely
  replace hdb : s'.db = s.db := hdb
  have hmore : nextIndex s'.db ≤ nextIndex db := by
    rw [hdb, hnext]
    exact hle
  refine ⟨⟨hs'.refines, ?_, ?_, hs'.committed_le, hs'.stored, ?_, hs'.purged⟩,
    ⟨⟨fun v hv => ⟨v, hv, le_rfl⟩, le_rfl, le_rfl, hmore, le_rfl,
      fun snapshot h => ⟨snapshot, h, le_rfl⟩, List.prefix_rfl, fun _ _ h => .inl h⟩, ?_⟩,
    hnext.ge⟩
  · show replay (log.entries.take (nextIndex db)) = some db
    rw [hnext, hreplay]
  · show nextIndex db ≤ s'.committed
    exact hnext.le.trans (hupTo.trans hgrows.committed)
  · intro snapshot hsnapshot
    obtain ⟨hreach, hof⟩ := hs'.snapshot snapshot hsnapshot
    exact ⟨hreach.trans hmore, hof⟩
  · intro other hother
    cases other with
    | core => exact ⟨rfl, rfl, rfl, rfl⟩
    | stateMachine => exact absurd rfl hother
    | snapshotBuilder => exact ⟨rfl, rfl⟩

theorem fits_build (hs : s.Sound codec docs log.entries)
    (hlog : ∀ e ∈ log.entries, e.OnlyDigests docs.comesBack) (id : RegistryNodeId) :
    (storageProtocol codec docs log.entries).Fits .snapshotBuilder
      ((.buildSnapshot : StorageCall Vote).returned docs id s)
      ((.buildSnapshot : StorageCall Vote).writes codec docs id s) s := by
  set built := ((s.snapshotStore id).buildSnapshot docs).2 with hbuilt
  have hreach : built.reach = nextIndex s.db := rfl
  have hread : docs.fromSlice built.data = some (serializable s.db) :=
    docs.fromSlice_toVec _ (onlyDigests_serializable (onlyDigests_replay hs.applied
      fun e he => hlog e (List.mem_of_mem_take he)))
  have hof : built.Of docs log.entries (nextIndex s.db) :=
    ⟨hreach.le, s.db, hreach ▸ hs.applied, hread, rfl, rfl⟩
  intro s' hrely hs'
  obtain ⟨hgrows, hindex, hsnapshot⟩ := of_rely hrely
  refine ⟨⟨hs'.refines, hs'.applied, hs'.le_committed, hs'.committed_le, hs'.stored, hs'.snapshot,
    hs'.purged⟩, ⟨⟨fun v hv => ⟨v, hv, le_rfl⟩, le_rfl, le_rfl, le_rfl, ?_,
    fun snapshot h => ⟨snapshot, h, le_rfl⟩, List.prefix_rfl, fun _ _ h => .inl h⟩, ?_⟩, ?_⟩
  · show s'.snapshotIndex.getD 0 ≤ s.snapshotIndex.getD 0 + 1
    rw [hindex]
    exact Nat.le_succ _
  · intro other hother
    cases other with
    | core => exact ⟨rfl, rfl, rfl, rfl⟩
    | stateMachine => rfl
    | snapshotBuilder => exact absurd rfl hother
  · intro t hrely' ht
    obtain ⟨hgrows', hindex', hsnapshot'⟩ := of_rely hrely'
    replace hindex' : t.snapshotIndex = some (s.snapshotIndex.getD 0 + 1) := hindex'
    replace hsnapshot' : t.snapshot = s'.snapshot := hsnapshot'
    have happlied : nextIndex s.db ≤ nextIndex t.db := hgrows.applied.trans hgrows'.applied
    -- the snapshot that is there has been built before
    have holder : ∀ old ∈ t.snapshot, old.reach ≤ built.reach := by
      intro old hold
      rw [hsnapshot', hsnapshot] at hold
      exact (hs.snapshot old hold).1
    refine ⟨⟨ht.refines, ht.applied, ht.le_committed, ht.committed_le, ht.stored, ?_, ?_⟩,
      ⟨⟨fun v hv => ⟨v, hv, le_rfl⟩, le_rfl, le_rfl, le_rfl, le_rfl,
        fun old hold => ⟨built, rfl, holder old hold⟩, List.prefix_rfl, fun _ _ h => .inl h⟩, ?_⟩,
      ?_⟩
    · intro snapshot h
      obtain rfl : built = snapshot := Option.some.inj h
      exact ⟨hof.1.trans happlied, hof.2⟩
    · intro hpos
      obtain ⟨old, hold, hle⟩ := ht.purged hpos
      exact ⟨built, rfl, hle.trans (holder old hold)⟩
    · intro other hother
      cases other with
      | core => exact ⟨rfl, rfl, rfl, rfl⟩
      | stateMachine => rfl
      | snapshotBuilder => exact absurd rfl hother
    · intro b hb
      obtain rfl := Option.some.inj hb
      exact ⟨(congrArg (·.getD 0) hindex').ge, built, rfl, le_rfl⟩

/-- The writes of a call that raft may make. -/
theorem fits_call (hs : s.Sound codec docs log.entries)
    (hlog : ∀ e ∈ log.entries, e.OnlyDigests docs.comesBack) {call : StorageCall Vote}
    (hallowed : call.Allowed codec log.entries s) (hdigests : call.OnlyDigests codec.comesBack)
    (id : RegistryNodeId) :
    (storageProtocol codec docs log.entries).Fits call.task (call.returned docs id s)
        (call.writes codec docs id s) s ∧ call.writes codec docs id s ≠ [] := by
  cases call with
  | saveVote vote => exact ⟨fits_saveVote hallowed _ _, by simp [StorageCall.writes]⟩
  | log op =>
    cases op with
    | append entries =>
      exact ⟨fits_append hdigests hallowed _, by simp [StorageCall.writes, LogOp.writes]⟩
    | deleteSince logId => exact ⟨fits_deleteSince hallowed _, by simp [StorageCall.writes]⟩
    | purge logId => exact ⟨fits_purge hallowed _ _, by simp [StorageCall.writes, LogOp.writes]⟩
  | applyToStateMachine upTo => exact fits_apply hs hallowed id _ _
  | buildSnapshot => exact ⟨fits_build hs hlog id, by simp [StorageCall.writes]⟩
  | commit upTo => exact ⟨fits_commit hallowed _ _, by simp [StorageCall.writes]⟩

end Calls

end

/-! ### The numbers of the snapshots -/

/-- A number can be read off the end of an id. -/
theorem number_of_id {a b : String} {m n : ℕ}
    (h : a ++ "-" ++ toString m = b ++ "-" ++ toString n) : m = n := by
  have hlist : ∀ (t : String) (k : ℕ), (t ++ "-" ++ toString k).toList =
      t.toList ++ '-' :: Nat.toDigits 10 k := by
    intro t k
    simp [Nat.toList_repr]
  have hdigit : ∀ k : ℕ, ∀ c ∈ (Nat.toDigits 10 k).reverse, (c != '-') = true := by
    intro k c hc
    have hc := Nat.isDigit_of_mem_toDigits (by decide) (by decide) (List.mem_reverse.mp hc)
    by_contra hne
    obtain rfl : c = '-' := by simpa using hne
    cases hc
  have hrev := congrArg (fun t : String => t.toList.reverse.takeWhile (· != '-')) h
  simp only [hlist, List.reverse_append, List.reverse_cons, List.append_assoc,
    List.singleton_append] at hrev
  rw [List.takeWhile_append_of_pos (hdigit m), List.takeWhile_append_of_pos (hdigit n),
    List.takeWhile_cons_of_neg (by simp), List.takeWhile_cons_of_neg (by simp), List.append_nil,
    List.append_nil] at hrev
  exact Nat.repr_injective (String.toList_inj.mp (by simpa [Nat.toList_repr] using hrev))

/-- Only a builder makes snapshots, and an id ends in its number. -/
def Returned.Named (r : Returned Vote) : Prop :=
  ∀ b ∈ r.built, r.call = .buildSnapshot ∧
    ∃ start : String, b.2.snapshotId = start ++ "-" ++ toString b.1

/-- A snapshot that is under way has a larger number than those that raft knows of. -/
structure Numbered (m : Process Bytes Doc Vote) : Prop where
  named : ∀ r ∈ m.returned, r.Named
  grow : (m.returned.filterMap (·.built)).Pairwise (·.1 < ·.1)
  task : ∀ k t, m.task k = some t → t.call.Named ∧ k = t.call.call.task
  next : ∀ k t, m.task k = some t → ∀ b ∈ t.call.built, ∀ r ∈ m.returned, ∀ b' ∈ r.built,
    b'.1 < b.1

theorem named_returned (docs : SnapshotCodec Doc) (id : RegistryNodeId)
    (s : Disk Bytes Doc Vote) (call : StorageCall Vote) : (call.returned docs id s).Named := by
  intro b hb
  cases call with
  | buildSnapshot =>
    obtain rfl := Option.some.inj hb
    refine ⟨rfl, ?_⟩
    split
    · exact ⟨_, rfl⟩
    · exact ⟨"-", rfl⟩
  | _ => cases hb

theorem numbered_new (s : Disk Bytes Doc Vote) : Numbered (.new s : Process Bytes Doc Vote) where
  named r hr := by cases hr
  grow := List.Pairwise.nil
  task k t ht := by cases ht
  next k t ht := by cases ht

/-- The ids of the snapshots that raft knows of. -/
theorem Numbered.nodup {m : Process Bytes Doc Vote} (h : Numbered m) :
    ((m.returned.filterMap (·.built)).map (·.2.snapshotId)).Nodup := by
  rw [List.Nodup, List.pairwise_map]
  refine h.grow.imp_of_mem ?_
  intro b b' hb hb' hlt heq
  obtain ⟨r, hr, hrb⟩ := List.mem_filterMap.mp hb
  obtain ⟨r', hr', hrb'⟩ := List.mem_filterMap.mp hb'
  obtain ⟨-, start, hid⟩ := h.named r hr b hrb
  obtain ⟨-, start', hid'⟩ := h.named r' hr' b' hrb'
  rw [hid, hid'] at heq
  exact absurd (number_of_id heq) hlt.ne

section

variable {codec : LogCodec Bytes} {docs : SnapshotCodec Doc} {log : CommittedLog}
  {m m' : Process Bytes Doc Vote}

theorem numbered_start [Preorder Vote]
    (hgood : (storageProtocol codec docs log.entries).Good m) (h : Numbered m)
    {call : StorageCall Vote} {id : RegistryNodeId}
    {writes : List (Disk Bytes Doc Vote → Disk Bytes Doc Vote)}
    (hstart : m.start call.task (call.returned docs id m.store.current) writes = some m') :
    Numbered m' := by
  obtain ⟨hreturned, htask⟩ := Tasks.start_cases hstart
  refine ⟨hreturned ▸ h.named, hreturned ▸ h.grow, ?_, ?_⟩
  · intro k t ht
    rcases htask k t ht with ⟨rfl, hcall⟩ | ⟨-, ht⟩
    · rw [hcall]
      exact ⟨named_returned docs id _ call, rfl⟩
    · exact h.task k t ht
  · intro k t ht b hb r hr b' hb'
    rw [hreturned] at hr
    rcases htask k t ht with ⟨rfl, hcall⟩ | ⟨-, ht⟩
    · -- the index says how many there have been
      rw [hcall] at hb
      obtain ⟨rfl, -⟩ := named_returned docs id _ call b hb
      obtain rfl := Option.some.inj hb
      have hdone := hgood.returned r hr _ m.store.current_mem
      obtain ⟨rcall, built, since⟩ := r
      obtain ⟨rfl, -⟩ := h.named _ hr b' hb'
      exact Nat.lt_succ_of_le (hdone b' hb').1
    · exact h.next k t ht b hb r hr b' hb'

theorem numbered_proceed (h : Numbered m) {k : RaftTask} (hproceed : m.proceed k = some m') :
    Numbered m' := by
  rcases Tasks.proceed_cases hproceed with ⟨hreturned, htask⟩ | ⟨t, ht, hreturned, htask⟩
  · refine ⟨hreturned ▸ h.named, hreturned ▸ h.grow, ?_, ?_⟩
    · intro j t ht
      obtain ⟨t₀, ht₀, hcall⟩ := htask j t ht
      rw [← hcall]
      exact h.task j t₀ ht₀
    · intro j t ht b hb r hr b' hb'
      obtain ⟨t₀, ht₀, hcall⟩ := htask j t ht
      rw [← hcall] at hb
      exact h.next j t₀ ht₀ b hb r (hreturned ▸ hr) b' hb'
  · refine ⟨?_, ?_, ?_, ?_⟩
    · intro r hr
      rw [hreturned] at hr
      rcases List.mem_append.mp hr with hr | hr
      · exact h.named r hr
      · obtain rfl := List.mem_singleton.mp hr
        exact (h.task k t ht).1
    · rw [hreturned, List.filterMap_append, List.pairwise_append]
      refine ⟨h.grow, ?_, ?_⟩
      · cases hb : t.call.built <;> simp [hb]
      · intro b' hb' b hb
        obtain ⟨r, hr, hrb⟩ := List.mem_filterMap.mp hb'
        obtain ⟨r', hr', hrb'⟩ := List.mem_filterMap.mp hb
        obtain rfl := List.mem_singleton.mp hr'
        exact h.next k t ht b hrb' r hr b' hrb
    · intro j t' ht'
      rw [htask] at ht'
      rcases task_cases ht' with ⟨-, heq⟩ | ⟨-, ht'⟩
      · cases heq
      · exact h.task j t' ht'
    · intro j t' ht' b hb r hr b' hb'
      rw [htask] at ht'
      rw [hreturned] at hr
      rcases task_cases ht' with ⟨-, heq⟩ | ⟨hj, ht'⟩
      · cases heq
      · rcases List.mem_append.mp hr with hr | hr
        · exact h.next j t' ht' b hb r hr b' hb'
        · -- there is one builder
          obtain rfl := List.mem_singleton.mp hr
          obtain ⟨hnamed, hk⟩ := h.task k _ ht
          obtain ⟨hnamed', hj'⟩ := h.task j t' ht'
          rw [(hnamed b' hb').1] at hk
          rw [(hnamed' b hb).1] at hj'
          exact absurd (hj'.trans hk.symm) hj

/-! ### Every run -/

variable [Preorder Vote] [DecidableLE Vote]

omit [Preorder Vote] [DecidableLE Vote] in
theorem sound_new : (Disk.new : Disk Bytes Doc Vote).Sound codec docs log.entries where
  refines := ⟨_, refines_new⟩
  applied := by rw [show nextIndex (Disk.new : Disk Bytes Doc Vote).db = 0 from rfl]; rfl
  le_committed := le_rfl
  committed_le := Nat.zero_le _
  stored _ _ hlt := absurd hlt (Nat.not_lt_zero _)
  snapshot _ h := by cases h
  purged h := absurd h (by
    simp [Disk.purged, Disk.new, refines_new.getLastPurged, nextOf, FiniteLog.empty])

/-- One event. -/
theorem good_step {id : RegistryNodeId} {e : StorageEvent Vote}
    (hlog : ∀ e ∈ log.entries, e.OnlyDigests docs.comesBack)
    (hdigests : e.OnlyDigests codec.comesBack)
    (h : (storageProtocol codec docs log.entries).Good m ∧ Numbered m)
    (hstep : storageStep codec docs id log.entries m e = some m') :
    (storageProtocol codec docs log.entries).Good m' ∧ Numbered m' := by
  obtain ⟨hgood, hnumbered⟩ := h
  cases e with
  | call call =>
    obtain ⟨hallowed, hstep⟩ := Option.ite_none_right_eq_some.mp hstep
    obtain ⟨hfits, hne⟩ := fits_call (hgood.inv _ m.store.current_mem) hlog hallowed
      hdigests id
    exact ⟨hgood.start hfits hne hstep, numbered_start hgood hnumbered hstep⟩
  | proceed k => exact ⟨hgood.proceed hstep, numbered_proceed hnumbered hstep⟩
  | fail k =>
    obtain rfl := Option.some.inj hstep
    refine ⟨hgood.fail k, hnumbered.named, hnumbered.grow, ?_, ?_⟩
    · intro j t ht
      rcases task_cases ht with ⟨-, heq⟩ | ⟨-, ht⟩
      · cases heq
      · exact hnumbered.task j t ht
    · intro j t ht
      rcases task_cases ht with ⟨-, heq⟩ | ⟨-, ht⟩
      · cases heq
      · exact hnumbered.next j t ht
  | crash lost =>
    refine ⟨hgood.crash hstep, ?_⟩
    obtain ⟨store, -, rfl⟩ := Option.map_eq_some_iff.mp hstep
    refine ⟨hnumbered.named, hnumbered.grow, ?_, ?_⟩
    · intro j t ht
      cases ht
    · intro j t ht
      cases ht

/-- A RESTART FINDS EVERYTHING IN ORDER: at any moment, whatever a crash would leave is a database
    that raft can go on with, what the calls that have returned were for is there, and no two
    snapshots have one id. -/
theorem recovers (id : RegistryNodeId) (log : CommittedLog)
    (hlog : ∀ e ∈ log.entries, e.OnlyDigests docs.comesBack) {es : List (StorageEvent Vote)}
    (hes : ∀ e ∈ es, e.OnlyDigests codec.comesBack)
    (h : (storage codec docs id log.entries).run (storage codec docs id log.entries).init es =
      some m) :
    (∀ s ∈ m.store.possible, s.Sound codec docs log.entries ∧
        ∀ r ∈ m.returned, r.Done codec s) ∧
      ((m.returned.filterMap (·.built)).map (·.2.snapshotId)).Nodup := by
  have hinit : (storageProtocol codec docs log.entries).Good
      (.new .new : Process Bytes Doc Vote) := Protocol.good_new sound_new
  obtain ⟨hgood, hm⟩ := (storage codec docs id log.entries).run_inv_of_meets
    (fun _ _ _ hm he hstep => good_step hlog he hm hstep) ⟨hinit, numbered_new _⟩
    ((storage codec docs id log.entries).meets_of_forall hes) h
  exact ⟨fun s hs => ⟨hgood.inv s hs, fun r hr => hgood.returned r hr s hs⟩, hm.nodup⟩

end

/-- A node has the log `smallLog`, applies two entries while a snapshot is made, makes another one,
    and stops in the middle of the purge. -/
def cutPurge : List (StorageEvent ℕ) :=
  [.call (.saveVote 1), .proceed .core, .proceed .core, .proceed .core,
   .call (.log (.append smallLog.entries)), .proceed .core, .proceed .core, .proceed .core,
   .call (.commit 2), .proceed .core, .proceed .core, .proceed .core,
   .call .buildSnapshot, .proceed .snapshotBuilder,
   .call (.applyToStateMachine 2), .proceed .stateMachine, .proceed .stateMachine,
   .proceed .stateMachine,
   .proceed .snapshotBuilder, .proceed .snapshotBuilder, .proceed .snapshotBuilder,
   .proceed .snapshotBuilder,
   .call .buildSnapshot, .proceed .snapshotBuilder, .proceed .snapshotBuilder,
   .proceed .snapshotBuilder, .proceed .snapshotBuilder, .proceed .snapshotBuilder,
   .call (.log (.purge ⟨⟨1, 1⟩, 0⟩)), .proceed .core, .crash 0]

/-- Six calls have returned, and what they were for is there. -/
theorem recovers_cutPurge : ∃ m,
    (storage plainLogCodec plainCodec 1 smallLog.entries).run
        (storage plainLogCodec plainCodec 1 smallLog.entries).init cutPurge = some m ∧
      m.returned.length = 6 ∧
      (∀ s ∈ m.store.possible, s.Sound plainLogCodec plainCodec smallLog.entries ∧
        ∀ r ∈ m.returned, r.Done plainLogCodec s) ∧
      ((m.returned.filterMap (·.built)).map (·.2.snapshotId)).Nodup := by
  have hrun : ((storage plainLogCodec plainCodec 1 smallLog.entries).run
      (storage plainLogCodec plainCodec 1 smallLog.entries).init cutPurge).map
        (·.returned.length) = some 6 := by decide +kernel
  obtain ⟨m, hm, hlength⟩ := Option.map_eq_some_iff.mp hrun
  have hdigests : ∀ e ∈ cutPurge, e.OnlyDigests plainLogCodec.comesBack := by
    intro e _
    cases e with
    | call call =>
      cases call with
      | log op => exact onlyDigests_plain op
      | _ => trivial
    | _ => trivial
  exact ⟨m, hm, hlength, recovers 1 smallLog (fun _ _ _ _ _ _ => trivial) hdigests hm⟩

end Distribd.Store
