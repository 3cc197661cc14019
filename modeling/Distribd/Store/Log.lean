import Distribd.Schemes.TreeMap
import Distribd.Schemes.ByteKeys
import Distribd.Store.Apply

/-! The raft log (`store/mod.rs`). The entries lie in the sled tree `logs` under the eight big-endian
    bytes of their index, so that sled's byte order is the order of the indices; the log id up to
    which the log has been purged lies in the tree `store`. Appending and the two kinds of deletion
    are one batch each, and a purge writes its log id first. `FiniteLog` is what the store is for, a
    finite map from indices to entries, and `log_store_refines` says that every answer of the store
    is that of the map. The upper end of the scan of `delete_conflict_logs_since` is exclusive, so
    that the last of all indices stays out of it.

    JSON is outside of this repository: a `LogCodec` is any encoding of entries and log ids that
    decodes its own output, entries if the digests in them come back from their texts. An index is a
    `u64`; it is a number here and its bound is said where it matters. -/

namespace Distribd.Store
open Schemes

/-! ### The store -/

/-- `u64::MAX`. -/
def maxIndex : ℕ := 0xffffffffffffffff

/-- `id_to_bin`. -/
def idToBin (id : ℕ) : List ℕ := bigEndian 8 id

/-- `bin_to_id`; `none` is the panic of the slice. -/
def binToId (buf : List ℕ) : Option ℕ :=
  if 8 ≤ buf.length then some ((buf.take 8).foldl (fun acc b => acc * 256 + b) 0) else none

/-- `serde_json` on entries, in which digests are texts, and on log ids. -/
structure LogCodec (Bytes : Type*) where
  entryToVec : Entry → Bytes
  entryFromSlice : Bytes → Option Entry
  comesBack : Digest → Prop
  entryFromSlice_toVec : ∀ e : Entry, e.OnlyDigests comesBack →
    entryFromSlice (entryToVec e) = some e
  logIdToVec : LogId → Bytes
  logIdFromSlice : Bytes → Option LogId
  logIdFromSlice_toVec : ∀ id, logIdFromSlice (logIdToVec id) = some id

/-- The tree `logs` and the key `last_purged_log_id` of the tree `store`. -/
structure LogStore (Bytes : Type*) where
  logs : Std.ExtTreeMap (List ℕ) Bytes
  lastPurgedLogId : Option Bytes

/-- The log of a new database. -/
def LogStore.new {Bytes : Type*} : LogStore Bytes := ⟨∅, none⟩

/-- `std::ops::Bound` over `u64`. -/
inductive Bound where
  | included (x : UInt64)
  | excluded (x : UInt64)
  | unbounded

/-- `RangeBounds::contains`. -/
def contains (range : Bound × Bound) (id : ℕ) : Bool :=
  (match range.1 with
    | .included x => decide (x.toNat ≤ id)
    | .excluded x => decide (x.toNat < id)
    | .unbounded => true) &&
  (match range.2 with
    | .included x => decide (id ≤ x.toNat)
    | .excluded x => decide (id < x.toNat)
    | .unbounded => true)

/-- The start of the scan; `*x + 1` wraps around. -/
def startOf : Bound → List ℕ
  | .included x => idToBin x.toNat
  | .excluded x => idToBin (x + 1).toNat
  | .unbounded => idToBin 0

/-- `LogState`. -/
structure LogState where
  lastPurgedLogId : Option LogId
  lastLogId : Option LogId
  deriving DecidableEq

namespace LogStore

variable {Bytes : Type*} (codec : LogCodec Bytes) (st : LogStore Bytes)

/-- The lazy part of `try_get_log_entries`: each row that is reached is decoded and checked, the
    first one beyond the range too; `none` is the panic of the assertion. -/
def readRows (range : Bound × Bound) : List (List ℕ × Bytes) → Option (List Entry)
  | [] => some []
  | (key, val) :: rows =>
    match binToId key, codec.entryFromSlice val with
    | some id, some entry =>
      if id = entry.logId.index then
        if contains range id then (readRows range rows).map (entry :: ·) else some []
      else none
    | _, _ => none

/-- `try_get_log_entries`. -/
def tryGetLogEntries (range : Bound × Bound) : Option (List Entry) :=
  readRows codec range (st.logs.toList.filter fun row => (compare (startOf range.1) row.1).isLE)

/-- `get_last_purged_`. -/
def getLastPurged : Option LogId := st.lastPurgedLogId.bind codec.logIdFromSlice

/-- `get_log_state`. -/
def getLogState : LogState :=
  let lastPurgedLogId := st.getLastPurged codec
  let last := (st.logs.toList.getLast?).bind fun row =>
    (codec.entryFromSlice row.2).map fun e => e.logId
  let lastLogId := match last with
    | none => lastPurgedLogId
    | some x => some x
  ⟨lastPurgedLogId, lastLogId⟩

/-- The batch of `append_to_log`. -/
def appendToLog (entries : List Entry) : LogStore Bytes :=
  let batch := entries.map fun entry => (idToBin entry.logId.index, codec.entryToVec entry)
  { st with logs := st.logs.insertMany batch }

/-- The batch of `delete_conflict_logs_since`: the keys `from .. to`, without `to`. -/
def deleteConflictLogsSince (logId : LogId) : LogStore Bytes :=
  { st with logs := removeRows st.logs fun key =>
      (compare (idToBin logId.index) key).isLE && (compare key (idToBin maxIndex)).isLT }

/-- `set_last_purged_`. -/
def setLastPurged (logId : LogId) : LogStore Bytes :=
  { st with lastPurgedLogId := some (codec.logIdToVec logId) }

/-- The batch of `purge_logs_upto`: the keys `from ..= to`. -/
def removeUpTo (logId : LogId) : LogStore Bytes :=
  { st with logs := removeRows st.logs fun key =>
      (compare (idToBin 0) key).isLE && (compare key (idToBin logId.index)).isLE }

/-- `purge_logs_upto`. -/
def purgeLogsUpto (logId : LogId) : LogStore Bytes :=
  (st.setLastPurged codec logId).removeUpTo logId

end LogStore

/-- The calls that write to the log. -/
inductive LogOp where
  | append (entries : List Entry)
  | deleteSince (logId : LogId)
  | purge (logId : LogId)
  deriving DecidableEq

/-- The durable writes of a call, in order. -/
def LogOp.writes {Bytes : Type*} (codec : LogCodec Bytes) :
    LogOp → List (LogStore Bytes → LogStore Bytes)
  | .append entries => [(·.appendToLog codec entries)]
  | .deleteSince logId => [(·.deleteConflictLogsSince logId)]
  | .purge logId => [(·.setLastPurged codec logId), (·.removeUpTo logId)]

/-- The first `n` writes of a call. -/
def LogStore.write {Bytes : Type*} (codec : LogCodec Bytes) (st : LogStore Bytes) (op : LogOp)
    (n : ℕ) : LogStore Bytes :=
  ((op.writes codec).take n).foldl (fun st write => write st) st

/-- A whole call. -/
def LogStore.call {Bytes : Type*} (codec : LogCodec Bytes) (st : LogStore Bytes) :
    LogOp → LogStore Bytes
  | .append entries => st.appendToLog codec entries
  | .deleteSince logId => st.deleteConflictLogsSince logId
  | .purge logId => st.purgeLogsUpto codec logId

/-! ### What the store is for -/

/-- The log as a finite map, and how far it has been purged. -/
structure FiniteLog where
  entries : Std.ExtTreeMap ℕ Entry
  lastPurgedLogId : Option LogId
  deriving DecidableEq

namespace FiniteLog

/-- Nothing in it. -/
def empty : FiniteLog := ⟨∅, none⟩

/-- New entries take the place of old ones. -/
def append (m : FiniteLog) (entries : List Entry) : FiniteLog :=
  { m with entries := m.entries.insertMany (entries.map fun e => (e.logId.index, e)) }

/-- Without the indices that satisfy the test. -/
def without (m : FiniteLog) (test : ℕ → Bool) : FiniteLog :=
  { m with entries := m.entries.filter fun i _ => !test i }

/-- A call: `deleteSince` removes what is not below its index, `purge` what is not above. -/
def call (m : FiniteLog) : LogOp → FiniteLog
  | .append entries => m.append entries
  | .deleteSince logId => m.without fun i => logId.index ≤ i
  | .purge logId => { m.without (fun i => i ≤ logId.index) with lastPurgedLogId := some logId }

/-- The entries of a range, in the order of their indices. -/
def range (m : FiniteLog) (r : Bound × Bound) : List Entry :=
  (m.entries.toList.filter fun p => contains r p.1).map Prod.snd

/-- The last entry, or where the log was purged to when there is none. -/
def state (m : FiniteLog) : LogState :=
  ⟨m.lastPurgedLogId, match m.entries.toList.getLast? with
    | some p => some p.2.logId
    | none => m.lastPurgedLogId⟩

end FiniteLog

/-! ### Keys -/

/-- Sled's byte order is the order of the indices. -/
theorem compare_idToBin (i j : ℕ) : compare (idToBin i) (idToBin j) = compare i j :=
  compare_bigEndian 7 i j

theorem binToId_idToBin (i : ℕ) : binToId (idToBin i) = some i := by
  have hlen : (idToBin i).length = 8 := bigEndian_length 8 i
  rw [binToId, if_pos (by omega), List.take_of_length_le (by omega), idToBin, foldl_bigEndian]
  simp

/-- The index at which the scan starts. -/
def startIndex : Bound → ℕ
  | .included x => x.toNat
  | .excluded x => (x + 1).toNat
  | .unbounded => 0

theorem startOf_eq (b : Bound) : startOf b = idToBin (startIndex b) := by cases b <;> rfl

/-- What lies in the range is not before the start; when `*x + 1` wraps, the range is empty. -/
theorem startIndex_le_of_contains {r : Bound × Bound} {i : ℕ} (h : contains r i = true) :
    startIndex r.1 ≤ i := by
  obtain ⟨b, b'⟩ := r
  cases b with
  | included x =>
    simp only [contains, Bool.and_eq_true, decide_eq_true_eq] at h
    exact h.1
  | excluded x =>
    simp only [contains, Bool.and_eq_true, decide_eq_true_eq] at h
    have hwrap : (x + 1).toNat ≤ x.toNat + 1 := by
      rw [UInt64.toNat_add]
      exact Nat.mod_le _ _
    have hlt := h.1
    simp only [startIndex]
    omega
  | unbounded => exact Nat.zero_le _

/-- From the start on, an index of the range has only indices of the range before it. -/
theorem contains_of_le {r : Bound × Bound} {i j : ℕ} (hstart : startIndex r.1 ≤ i) (hij : i ≤ j)
    (hj : j ≤ maxIndex) (h : contains r j = true) : contains r i = true := by
  obtain ⟨b, b'⟩ := r
  simp only [contains, Bool.and_eq_true] at h ⊢
  refine ⟨?_, ?_⟩
  · cases b with
    | included x => exact decide_eq_true hstart
    | excluded x =>
      have hxj : x.toNat < j := of_decide_eq_true h.1
      have hnowrap : (x + 1).toNat = x.toNat + 1 := by
        rw [UInt64.toNat_add, Nat.mod_eq_of_lt]
        · rfl
        · have hone : (1 : UInt64).toNat = 1 := rfl
          simp only [maxIndex] at hj
          omega
      simp only [startIndex, hnowrap] at hstart
      exact decide_eq_true (by omega)
    | unbounded => rfl
  · cases b' with
    | included x =>
      have hjx : j ≤ x.toNat := of_decide_eq_true h.2
      exact decide_eq_true (by omega)
    | excluded x =>
      have hjx : j < x.toNat := of_decide_eq_true h.2
      exact decide_eq_true (by omega)
    | unbounded => rfl

/-! ### The store holds the map -/

/-- The rows of the store are the entries of the map, each under its own index. -/
structure Refines {Bytes : Type*} (codec : LogCodec Bytes) (st : LogStore Bytes) (m : FiniteLog) :
    Prop where
  rows : Represents idToBin codec.entryToVec st.logs m.entries
  index : ∀ (i : ℕ) (e : Entry), m.entries[i]? = some e → e.logId.index = i
  digests : ∀ (i : ℕ) (e : Entry), m.entries[i]? = some e → e.OnlyDigests codec.comesBack
  purged : st.lastPurgedLogId = m.lastPurgedLogId.map codec.logIdToVec

section Refines

variable {Bytes : Type*} {codec : LogCodec Bytes} {st : LogStore Bytes} {m : FiniteLog}

theorem refines_new : Refines codec LogStore.new .empty where
  rows := represents_empty
  index i e h := by simp [FiniteLog.empty] at h
  digests i e h := by simp [FiniteLog.empty] at h
  purged := rfl

theorem append_get {m : FiniteLog} {entries : List Entry} {i : ℕ} {e : Entry}
    (h : (m.append entries).entries[i]? = some e) :
    (e ∈ entries ∧ e.logId.index = i) ∨ m.entries[i]? = some e := by
  have hfold : ∀ (l : List (ℕ × Entry)) (t : Std.ExtTreeMap ℕ Entry),
      (t.insertMany l)[i]? = some e → (i, e) ∈ l ∨ t[i]? = some e := by
    intro l
    induction l with
    | nil => intro t ht; simpa using ht
    | cons p l ih =>
      intro t ht
      rw [Std.ExtTreeMap.insertMany_cons] at ht
      rcases ih _ ht with hmem | hget
      · exact .inl (List.mem_cons_of_mem _ hmem)
      · rw [Std.ExtTreeMap.getElem?_insert] at hget
        split at hget
        case isTrue heq =>
          have hkey := Std.LawfulEqOrd.eq_of_compare heq
          have hval := Option.some.inj hget
          exact .inl (List.mem_cons.mpr (.inl (by rw [← hkey, ← hval])))
        case isFalse => exact .inr hget
  rcases hfold _ _ h with hmem | hget
  · obtain ⟨e', he', heq⟩ := List.mem_map.mp hmem
    obtain ⟨rfl, rfl⟩ := Prod.mk.inj heq
    exact .inl ⟨he', rfl⟩
  · exact .inr hget

theorem append_get_ne_none {m : FiniteLog} {entries : List Entry} {i : ℕ} :
    (m.append entries).entries[i]? ≠ none ↔
      m.entries[i]? ≠ none ∨ i ∈ entries.map (·.logId.index) := by
  have hfold : ∀ (l : List (ℕ × Entry)) (t : Std.ExtTreeMap ℕ Entry),
      (t.insertMany l)[i]? ≠ none ↔ t[i]? ≠ none ∨ i ∈ l.map Prod.fst := by
    intro l
    induction l with
    | nil => intro t; simp
    | cons p l ih =>
      intro t
      rw [Std.ExtTreeMap.insertMany_cons, ih, Std.ExtTreeMap.getElem?_insert, List.map_cons,
        List.mem_cons]
      by_cases hp : p.1 = i
      · simp [hp]
      · simp only [Std.compare_eq_iff_eq, hp, if_false, show i ≠ p.1 from fun h => hp h.symm,
          false_or]
  rw [FiniteLog.append, hfold, List.map_map]
  rfl

theorem Refines.append (h : Refines codec st m) {entries : List Entry}
    (hdigests : ∀ e ∈ entries, e.OnlyDigests codec.comesBack) :
    Refines codec (st.appendToLog codec entries) (m.append entries) where
  rows := by
    have hrows := h.rows.insertMany (injective_of_compare compare_idToBin)
      (entries.map fun e => (e.logId.index, e))
    rw [List.map_map] at hrows
    exact hrows
  index i e he := by
    rcases append_get he with ⟨-, hi⟩ | hold
    · exact hi
    · exact h.index i e hold
  digests i e he := by
    rcases append_get he with ⟨hmem, -⟩ | hold
    · exact hdigests e hmem
    · exact h.digests i e hold
  purged := h.purged

theorem without_get {m : FiniteLog} {test : ℕ → Bool} {i : ℕ} :
    (m.without test).entries[i]? = if test i then none else m.entries[i]? := by
  simp only [FiniteLog.without, Std.ExtTreeMap.getElem?_filter']
  cases m.entries[i]? <;> cases test i <;> simp [Option.filter]

theorem Refines.without (h : Refines codec st m) {test : List ℕ → Bool} {test' : ℕ → Bool}
    (htest : ∀ i, test (idToBin i) = test' i) :
    Refines codec { st with logs := removeRows st.logs test } (m.without test') where
  rows := h.rows.removeRows htest
  index i e he := by
    rw [without_get] at he
    split at he
    · cases he
    · exact h.index i e he
  digests i e he := by
    rw [without_get] at he
    split at he
    · cases he
    · exact h.digests i e he
  purged := h.purged

/-- The exclusive end of the scan: the last of all indices stays. -/
theorem Refines.deleteSince (h : Refines codec st m) (logId : LogId) :
    Refines codec (st.deleteConflictLogsSince logId)
      (m.without fun i => decide (logId.index ≤ i) && decide (i < maxIndex)) := by
  refine h.without fun i => Bool.eq_iff_iff.mpr ?_
  simp only [Bool.and_eq_true, compare_idToBin, Nat.isLE_compare,
    Ordering.isLT_iff_eq_lt, Nat.compare_eq_lt, decide_eq_true_eq]

theorem Refines.setLastPurged (h : Refines codec st m) (logId : LogId) :
    Refines codec (st.setLastPurged codec logId) { m with lastPurgedLogId := some logId } :=
  ⟨h.rows, h.index, h.digests, rfl⟩

theorem Refines.removeUpTo (h : Refines codec st m) (logId : LogId) :
    Refines codec (st.removeUpTo logId) (m.without fun i => i ≤ logId.index) := by
  refine h.without fun i => Bool.eq_iff_iff.mpr ?_
  simp only [Bool.and_eq_true, compare_idToBin, Nat.isLE_compare, Nat.zero_le, true_and,
    decide_eq_true_eq]

theorem Refines.getLastPurged (h : Refines codec st m) :
    st.getLastPurged codec = m.lastPurgedLogId := by
  rw [LogStore.getLastPurged, h.purged]
  cases m.lastPurgedLogId with
  | none => rfl
  | some id => exact codec.logIdFromSlice_toVec id

/-- The scan decodes every row that it reaches and stops at the first beyond the range. -/
theorem readRows_eq (range : Bound × Bound) {l : List (ℕ × Entry)}
    (hl : ∀ p ∈ l, p.2.logId.index = p.1) (hdigests : ∀ p ∈ l, p.2.OnlyDigests codec.comesBack) :
    LogStore.readRows codec range (l.map fun p => (idToBin p.1, codec.entryToVec p.2)) =
      some ((l.takeWhile fun p => contains range p.1).map Prod.snd) := by
  induction l with
  | nil => rfl
  | cons p l ih =>
    have hindex := hl p (List.mem_cons_self ..)
    have hread := codec.entryFromSlice_toVec p.2 (hdigests p (List.mem_cons_self ..))
    have hrest := ih (fun q hq => hl q (List.mem_cons_of_mem _ hq))
      fun q hq => hdigests q (List.mem_cons_of_mem _ hq)
    simp only [List.map_cons, LogStore.readRows, binToId_idToBin, hread, hindex, if_true]
    cases hc : contains range p.1 with
    | true => simp [hrest, hc]
    | false => simp [hc]

/-- A range of the store is the range of the map. -/
theorem Refines.tryGetLogEntries (h : Refines codec st m)
    (hmax : ∀ i : ℕ, m.entries[i]? ≠ none → i ≤ maxIndex) (range : Bound × Bound) :
    st.tryGetLogEntries codec range = some (m.range range) := by
  have hscan : (st.logs.toList.filter fun row => (compare (startOf range.1) row.1).isLE) =
      (m.entries.toList.filter fun p => decide (startIndex range.1 ≤ p.1)).map
        fun p => (idToBin p.1, codec.entryToVec p.2) := by
    rw [h.rows.toList compare_idToBin, List.filter_map]
    refine congrArg _ (List.filter_congr fun p _ => Bool.eq_iff_iff.mpr ?_)
    simp only [Function.comp_apply, startOf_eq, compare_idToBin, Nat.isLE_compare,
      decide_eq_true_eq]
  have hget : ∀ p ∈ m.entries.toList, m.entries[p.1]? = some p.2 :=
    fun p hp => Std.ExtTreeMap.mem_toList_iff_getElem?_eq_some.mp hp
  rw [LogStore.tryGetLogEntries, hscan, readRows_eq, FiniteLog.range]
  · refine congrArg some (congrArg _ ?_)
    rw [takeWhile_eq_filter, List.filter_filter]
    · refine List.filter_congr fun p _ => ?_
      cases hc : contains range p.1 with
      | true => simpa using startIndex_le_of_contains hc
      | false => rfl
    · refine (m.entries.ordered_keys_toList.filter _).imp_of_mem ?_
      intro p q hp hq hlt hc
      have hstart := of_decide_eq_true (List.mem_filter.mp hp).2
      have hle : p.1 ≤ q.1 := (Nat.compare_eq_lt.mp hlt).le
      have hq' := hget q (List.mem_filter.mp hq).1
      exact contains_of_le hstart hle (hmax q.1 (by rw [hq']; simp)) hc
  · intro p hp
    exact h.index p.1 p.2 (hget p (List.mem_filter.mp hp).1)
  · intro p hp
    exact h.digests p.1 p.2 (hget p (List.mem_filter.mp hp).1)

theorem Refines.getLogState (h : Refines codec st m) : st.getLogState codec = m.state := by
  rw [LogStore.getLogState, FiniteLog.state, h.getLastPurged, h.rows.toList compare_idToBin,
    List.getLast?_map]
  cases hlast : m.entries.toList.getLast? with
  | none => rfl
  | some p =>
    have hp := Std.ExtTreeMap.mem_toList_iff_getElem?_eq_some.mp (List.mem_of_getLast? hlast)
    simp [codec.entryFromSlice_toVec _ (h.digests p.1 p.2 hp)]

end Refines

/-! ### Every sequence of calls -/

/-- The indices of a call are below the last of all. -/
def LogOp.Below : LogOp → Prop
  | .append entries => ∀ e ∈ entries, e.logId.index < maxIndex
  | .deleteSince logId | .purge logId => logId.index < maxIndex

instance : ∀ op : LogOp, Decidable op.Below
  | .append entries => inferInstanceAs (Decidable (∀ e ∈ entries, e.logId.index < maxIndex))
  | .deleteSince logId | .purge logId =>
    inferInstanceAs (Decidable (logId.index < maxIndex))

/-- Every digest in the entries of a call has the property. -/
def LogOp.OnlyDigests (P : Digest → Prop) : LogOp → Prop
  | .append entries => ∀ e ∈ entries, e.OnlyDigests P
  | .deleteSince _ | .purge _ => True

/-- The entry that the store has for an index. -/
def LogStore.entry {Bytes : Type*} (codec : LogCodec Bytes) (st : LogStore Bytes) (i : ℕ) :
    Option Entry :=
  (st.logs[idToBin i]?).bind codec.entryFromSlice

section Calls

variable {Bytes : Type*} {codec : LogCodec Bytes} {st : LogStore Bytes} {m : FiniteLog}

theorem Refines.entry (h : Refines codec st m) (i : ℕ) : st.entry codec i = m.entries[i]? := by
  rw [LogStore.entry, h.rows.get]
  cases he : m.entries[i]? with
  | none => rfl
  | some e => exact codec.entryFromSlice_toVec e (h.digests i e he)

/-- All indices are below the last of all. -/
def FiniteLog.Below (m : FiniteLog) : Prop := ∀ i : ℕ, m.entries[i]? ≠ none → i < maxIndex

/-- Then the exclusive end of a deletion makes no difference. -/
theorem without_eq_of_below (hm : m.Below) (n : ℕ) :
    (m.without fun i => decide (n ≤ i) && decide (i < maxIndex)) = m.without fun i => n ≤ i := by
  have hentries : (m.without fun i => decide (n ≤ i) && decide (i < maxIndex)).entries =
      (m.without fun i => n ≤ i).entries := by
    refine Std.ExtTreeMap.ext_getElem? fun {i} => ?_
    rw [without_get, without_get]
    by_cases hi : m.entries[i]? = none
    · simp [hi]
    · simp [hm i hi]
  exact congrArg (FiniteLog.mk · m.lastPurgedLogId) hentries

theorem Refines.call (h : Refines codec st m) (hm : m.Below) {op : LogOp}
    (hop : op.OnlyDigests codec.comesBack) : Refines codec (st.call codec op) (m.call op) := by
  cases op with
  | append entries => exact h.append hop
  | deleteSince logId =>
    have hdel := h.deleteSince logId
    rw [without_eq_of_below hm] at hdel
    exact hdel
  | purge logId => exact (h.setLastPurged logId).removeUpTo logId

theorem FiniteLog.Below.call (hm : m.Below) {op : LogOp} (hop : op.Below) : (m.call op).Below := by
  cases op with
  | append entries =>
    intro i hi
    obtain ⟨e, he⟩ := Option.ne_none_iff_exists'.mp hi
    rcases append_get he with ⟨hmem, rfl⟩ | hold
    · exact hop e hmem
    · exact hm i (by rw [hold]; simp)
  | deleteSince logId | purge logId =>
    intro i hi
    refine hm i fun hnone => hi ?_
    refine without_get.trans ?_
    rw [hnone]
    split <;> rfl

theorem refines_calls (codec : LogCodec Bytes) {ops : List LogOp} (hops : ∀ op ∈ ops, op.Below)
    (hdigests : ∀ op ∈ ops, op.OnlyDigests codec.comesBack) :
    Refines codec (ops.foldl (·.call codec) .new) (ops.foldl (·.call) .empty) ∧
      (ops.foldl (·.call) FiniteLog.empty).Below := by
  induction ops using List.reverseRecOn with
  | nil => exact ⟨refines_new, fun i hi => absurd (by simp [FiniteLog.empty]) hi⟩
  | append_singleton ops op ih =>
    obtain ⟨hrefines, hbelow⟩ := ih (fun q hq => hops q (List.mem_append_left _ hq))
      fun q hq => hdigests q (List.mem_append_left _ hq)
    rw [List.foldl_append, List.foldl_append]
    exact ⟨hrefines.call hbelow (hdigests op (by simp)), hbelow.call (hops op (by simp))⟩

/-- THE LOG REFINES A FINITE MAP: after any calls with indices below the last of all, every range is
    the range of the map, in the order of the indices and without a panic, the log state is that of
    the map, and one more deletion or purge takes exactly the entries from its index on, or up to
    it. -/
theorem log_store_refines (codec : LogCodec Bytes) (ops : List LogOp)
    (hops : ∀ op ∈ ops, op.Below) (hdigests : ∀ op ∈ ops, op.OnlyDigests codec.comesBack) :
    let st := ops.foldl (·.call codec) LogStore.new
    let m := ops.foldl (·.call) FiniteLog.empty
    (∀ range, st.tryGetLogEntries codec range = some (m.range range)) ∧
      st.getLogState codec = m.state ∧
      (∀ i, st.entry codec i = m.entries[i]?) ∧
      ∀ (logId : LogId) (i : ℕ), logId.index < maxIndex →
        (st.deleteConflictLogsSince logId).entry codec i =
            (if logId.index ≤ i then none else st.entry codec i) ∧
          (st.purgeLogsUpto codec logId).entry codec i =
            if i ≤ logId.index then none else st.entry codec i := by
  intro st m
  obtain ⟨hrefines, hbelow⟩ := refines_calls codec hops hdigests
  refine ⟨hrefines.tryGetLogEntries fun i hi => (hbelow i hi).le, hrefines.getLogState,
    hrefines.entry, ?_⟩
  intro logId i _
  have hdel := (@Refines.call _ _ _ _ hrefines hbelow (.deleteSince logId) trivial).entry i
  have hpurge := (@Refines.call _ _ _ _ hrefines hbelow (.purge logId) trivial).entry i
  rw [hrefines.entry i]
  refine ⟨hdel.trans (without_get.trans (by simp)), hpurge.trans (without_get.trans (by simp))⟩

end Calls

/-- Entries and log ids as they are. -/
def plainLogCodec : LogCodec (Entry ⊕ LogId) where
  entryToVec := .inl
  entryFromSlice := Sum.getLeft?
  comesBack _ := True
  entryFromSlice_toVec _ _ := rfl
  logIdToVec := .inr
  logIdFromSlice := Sum.getRight?
  logIdFromSlice_toVec _ := rfl

theorem onlyDigests_plain (op : LogOp) : op.OnlyDigests plainLogCodec.comesBack := by
  cases op with
  | append entries => exact fun _ _ _ _ _ _ => trivial
  | deleteSince logId | purge logId => trivial

/-- A blank entry. -/
def blankAt (term index : ℕ) : Entry := ⟨⟨⟨term, 1⟩, index⟩, .blank⟩

/-- Entries 0 to 3, the last two of them overwritten by another leader, the first one purged. -/
def conflictOps : List LogOp :=
  [.append [blankAt 1 0, blankAt 1 1, blankAt 1 2, blankAt 1 3], .deleteSince ⟨⟨1, 1⟩, 2⟩,
   .append [blankAt 2 2], .purge ⟨⟨1, 1⟩, 0⟩]

/-- What is left of them, read from index 1 on. -/
theorem log_store_refines_conflictOps :
    (conflictOps.foldl (·.call plainLogCodec) LogStore.new).tryGetLogEntries plainLogCodec
        (.excluded 0, .unbounded) = some [blankAt 1 1, blankAt 2 2] ∧
      (conflictOps.foldl (·.call plainLogCodec) LogStore.new).getLogState plainLogCodec =
        ⟨some ⟨⟨1, 1⟩, 0⟩, some ⟨⟨2, 1⟩, 2⟩⟩ := by
  obtain ⟨hrange, hstate, -⟩ := log_store_refines plainLogCodec conflictOps (by decide)
    fun op _ => onlyDigests_plain op
  rw [hrange, hstate]
  decide +kernel

end Distribd.Store
