import Distribd.Store.Apply

/-! Replica agreement. A node feeds the committed log to `apply_to_state_machine` in batches of any
    size, each starting at the entry after the persisted `last_applied_log`, and may die at any
    point; recovery then yields the state after some prefix of its writes (sled), possibly losing
    the latest ones. Because every batch moves `last_applied_log`, the membership and the data trees
    in one transaction, every durable state is the replay of exactly the entries up to its own
    `last_applied_log`: no batch size and no crash can lose or double an entry. -/

namespace Distribd.Store
open Schemes

/-- A committed log: openraft numbers the entries from 0 without gaps, and no entry panics. -/
structure CommittedLog where
  entries : List Entry
  index : ∀ (i : ℕ) (e : Entry), entries[i]? = some e → e.logId.index = i
  replays : (replay entries).isSome

/-- A durable state, together with the entries that were applied to get there. -/
structure Durable where
  db : Db
  effects : List Entry
  deriving DecidableEq

/-- The index at which `last_applied_state` makes openraft resume. -/
def nextIndex (db : Db) : ℕ :=
  match db.lastAppliedLog with
  | some id => id.index + 1
  | none => 0

/-- What happens to the disk of a node. -/
inductive DiskEvent where
  /-- The next `n` entries are applied in one batch. -/
  | feed (n : ℕ)
  /-- The process dies; recovery finds the disk as it was `lost` writes ago. -/
  | crash (lost : ℕ)
  deriving DecidableEq, Repr

/-- The write history, newest first: a batch adds a state, a crash drops the latest ones. -/
def diskStep (log : List Entry) : List Durable → DiskEvent → Option (List Durable)
  | w :: ws, .feed n =>
    let batch := (log.drop (nextIndex w.db)).take n
    (transaction w.db batch []).map fun (db, _) => ⟨db, w.effects ++ batch⟩ :: w :: ws
  | [], .feed _ => none
  | ws, .crash lost => if lost < ws.length then some (ws.drop lost) else none

/-- The disk of a node that follows `log`. -/
def disk (log : List Entry) : Machine (List Durable) DiskEvent := ⟨[⟨.new, []⟩], diskStep log⟩

/-! ### Every durable state is the replay of its prefix -/

/-- The state holds the effect of exactly the entries before `nextIndex`. -/
structure Faithful (log : List Entry) (w : Durable) : Prop where
  effects : w.effects = log.take (nextIndex w.db)
  replayed : replay w.effects = some w.db

/-- After a prefix of a numbered log, openraft resumes right behind it. -/
theorem nextIndex_replay {log : List Entry}
    (hindex : ∀ (i : ℕ) (e : Entry), log[i]? = some e → e.logId.index = i) {k : ℕ}
    (hk : k ≤ log.length) {db : Db} (h : replay (log.take k) = some db) : nextIndex db = k := by
  have hlast := replica_run_lastAppliedLog h
  cases k with
  | zero => simp [nextIndex, hlast, Db.new]
  | succ k =>
    obtain ⟨e, he⟩ : ∃ e, log[k]? = some e := ⟨log[k], by simp⟩
    have hget : (log.take (k + 1)).getLast? = some e := by
      rw [List.getLast?_take, if_neg (Nat.succ_ne_zero k), Nat.add_sub_cancel, he]
      rfl
    simp [nextIndex, hlast, hget, hindex k e he]

/-- A batch from `nextIndex` on leads from one faithful state to the next. -/
theorem faithful_batch {log : List Entry}
    (hindex : ∀ (i : ℕ) (e : Entry), log[i]? = some e → e.logId.index = i) {w : Durable}
    (hw : Faithful log w) {n : ℕ} {db : Db}
    (h : replica.run w.db ((log.drop (nextIndex w.db)).take n) = some db) :
    Faithful log ⟨db, w.effects ++ (log.drop (nextIndex w.db)).take n⟩ ∧
      nextIndex db = min (nextIndex w.db + n) log.length := by
  set batch := (log.drop (nextIndex w.db)).take n with hbatch
  have hrep : replay (w.effects ++ batch) = some db := by
    rw [replay, replica.run_append]
    exact Option.bind_eq_some_iff.mpr ⟨w.db, hw.replayed, h⟩
  set k := min (nextIndex w.db + n) log.length with hk
  have hcat : w.effects ++ batch = log.take k := by
    rw [hw.effects, hbatch, ← List.take_add, hk, List.take_eq_take_min]
  have hnext : nextIndex db = k :=
    nextIndex_replay hindex (min_le_right _ _) (by rw [← hcat]; exact hrep)
  exact ⟨⟨hcat.trans (by rw [hnext]), hrep⟩, hnext⟩

theorem faithful_step (log : CommittedLog) (ws : List Durable) (e : DiskEvent) (ws' : List Durable)
    (hf : ∀ w ∈ ws, Faithful log.entries w) (h : diskStep log.entries ws e = some ws') :
    ∀ w ∈ ws', Faithful log.entries w := by
  cases e with
  | feed n =>
    cases ws with
    | nil => cases h
    | cons w ws =>
      simp only [diskStep, transaction_eq, Option.map_map] at h
      obtain ⟨db, hdb, rfl⟩ := Option.map_eq_some_iff.mp h
      intro v hv
      rcases List.mem_cons.mp hv with rfl | hv
      · exact (faithful_batch log.index (hf w (List.mem_cons_self ..)) hdb).1
      · exact hf v hv
  | crash lost =>
    simp only [diskStep] at h
    split at h
    · obtain rfl := Option.some.inj h
      exact fun w hw => hf w (List.mem_of_mem_drop hw)
    · cases h

/-- Every state that a disk can hold is faithful. -/
theorem disk_faithful (log : CommittedLog) {es : List DiskEvent} {ws : List Durable}
    (h : (disk log.entries).run (disk log.entries).init es = some ws) :
    ∀ w ∈ ws, Faithful log.entries w := by
  refine (disk log.entries).run_inv (faithful_step log) ?_ h
  intro w hw
  obtain rfl := List.mem_singleton.mp hw
  exact ⟨rfl, rfl⟩

/-- The entries in a faithful state are numbered without gap or repetition. -/
theorem faithful_indices (log : CommittedLog) {w : Durable} (hw : Faithful log.entries w) :
    w.effects.map (·.logId.index) = List.range (nextIndex w.db) := by
  have hlen : nextIndex w.db ≤ log.entries.length := by
    by_contra hlt
    have hall : log.entries.take (nextIndex w.db) = log.entries.take log.entries.length := by
      rw [List.take_of_length_le (by omega), List.take_of_length_le le_rfl]
    have hnext := nextIndex_replay log.index le_rfl
      (by rw [← hall, ← hw.effects]; exact hw.replayed)
    omega
  rw [hw.effects]
  refine List.ext_getElem? ?_
  intro i
  by_cases hi : i < nextIndex w.db
  · obtain ⟨e, he⟩ : ∃ e, log.entries[i]? = some e := ⟨log.entries[i], by simp⟩
    simp [hi, he, log.index i e he]
  · simp [hi]

/-- REPLICA AGREEMENT: two nodes that follow one committed log, with any batch sizes and any
    crashes, hold the same trees and membership whenever they report the same `last_applied_log`;
    and on each of them every entry up to that point has taken effect exactly once, in order. -/
theorem replica_agreement (log : CommittedLog) (es₁ es₂ : List DiskEvent) (w₁ w₂ : Durable)
    (ws₁ ws₂ : List Durable)
    (h₁ : (disk log.entries).run (disk log.entries).init es₁ = some (w₁ :: ws₁))
    (h₂ : (disk log.entries).run (disk log.entries).init es₂ = some (w₂ :: ws₂)) :
    (w₁.db.lastAppliedLog = w₂.db.lastAppliedLog →
      w₁.db.toTrees = w₂.db.toTrees ∧ w₁.db.getLastMembership = w₂.db.getLastMembership) ∧
    (∀ w ∈ [w₁, w₂], replay w.effects = some w.db ∧
      w.effects = log.entries.take (nextIndex w.db) ∧
      w.effects.map (·.logId.index) = List.range (nextIndex w.db)) := by
  have hf₁ := disk_faithful log h₁ w₁ (List.mem_cons_self ..)
  have hf₂ := disk_faithful log h₂ w₂ (List.mem_cons_self ..)
  constructor
  · intro hlast
    have hnext : nextIndex w₁.db = nextIndex w₂.db := by simp only [nextIndex, hlast]
    have hdb : w₁.db = w₂.db := by
      refine Option.some.inj (hf₁.replayed.symm.trans ?_)
      rw [hf₁.effects, hnext, ← hf₂.effects]
      exact hf₂.replayed
    rw [hdb]
    exact ⟨rfl, rfl⟩
  · intro w hw
    have hfw : Faithful log.entries w := by
      rcases List.mem_cons.mp hw with rfl | hw
      · exact hf₁
      · obtain rfl := List.mem_singleton.mp hw
        exact hf₂
    exact ⟨hfw.replayed, hfw.effects, faithful_indices log hfw⟩

/-- A membership entry, an upload and a blank entry. -/
def smallLog : CommittedLog where
  entries :=
    [⟨⟨⟨1, 1⟩, 0⟩, .membership ⟨[{1, 2}], (∅ : Std.ExtTreeMap ℕ BasicNode).insert 1 ⟨"one:8080"⟩⟩⟩,
     ⟨⟨⟨1, 1⟩, 1⟩, .normal (.transaction
        [.blobMounted 10 helloDigest ⟨"library/a"⟩ "alice", .blobStored 12 helloDigest 1 "alice"])⟩,
     ⟨⟨⟨2, 2⟩, 2⟩, .blank⟩]
  index i e h := by
    match i with
    | 0 | 1 | 2 => obtain rfl := Option.some.inj h; rfl
    | i + 3 => simp at h
  replays := by decide

/-- One node in a single batch, the other entry by entry with a crash that loses two writes. -/
theorem replica_agreement_smallLog : ∃ w₁ w₂ ws₁ ws₂,
    (disk smallLog.entries).run (disk smallLog.entries).init [.feed 3] = some (w₁ :: ws₁) ∧
    (disk smallLog.entries).run (disk smallLog.entries).init
      [.feed 1, .feed 1, .feed 1, .crash 2, .feed 1, .feed 5] = some (w₂ :: ws₂) ∧
    w₁.db.toTrees = w₂.db.toTrees := by
  obtain ⟨ws₁, h₁⟩ := Option.isSome_iff_exists.mp (show ((disk smallLog.entries).run
    (disk smallLog.entries).init [.feed 3]).isSome by decide)
  obtain ⟨ws₂, h₂⟩ := Option.isSome_iff_exists.mp (show ((disk smallLog.entries).run
    (disk smallLog.entries).init
      [.feed 1, .feed 1, .feed 1, .crash 2, .feed 1, .feed 5]).isSome by decide)
  have hlast : (((disk smallLog.entries).run (disk smallLog.entries).init [.feed 3]).bind
      (·.head?)).map (·.db.lastAppliedLog) = some (some ⟨⟨2, 2⟩, 2⟩) ∧
      (((disk smallLog.entries).run (disk smallLog.entries).init
      [.feed 1, .feed 1, .feed 1, .crash 2, .feed 1, .feed 5]).bind
      (·.head?)).map (·.db.lastAppliedLog) = some (some ⟨⟨2, 2⟩, 2⟩) := by decide
  cases ws₁ with
  | nil => simp [h₁] at hlast
  | cons w₁ ws₁ =>
    cases ws₂ with
    | nil => simp [h₂] at hlast
    | cons w₂ ws₂ =>
      have hsame : w₁.db.lastAppliedLog = w₂.db.lastAppliedLog := by
        simp only [h₁, h₂, Option.bind_some, List.head?_cons, Option.map_some,
          Option.some.injEq] at hlast
        rw [hlast.1, hlast.2]
      exact ⟨w₁, w₂, ws₁, ws₂, h₁, h₂,
        ((replica_agreement smallLog _ _ w₁ w₂ ws₁ ws₂ h₁ h₂).1 hsame).1⟩

end Distribd.Store
