import Distribd.Store.Log

/-! Crashes and the raft log (`store/mod.rs`). Each batch and each write of a key is durable on its
    own, and a purge is two of them: first how far the log is purged, then the batch that removes the
    entries. A crash in between leaves entries that have been purged already; what raft looks at
    begins after them. `logMachine` makes the calls that raft may make on what `get_log_state` says,
    each with any number of its durable writes. The entries after the last purged one have no hole
    in any state of a run, with one exception: `delete_conflict_logs_since` leaves an entry with the
    last of all indices where it is, and then misses those before it (`no_hole_iff`). -/

namespace Distribd.Store
open Schemes

/-! ### Runs of raft with crashes -/

/-- A call, and how many of its durable writes are made before the process stops or goes on. -/
structure LogEvent where
  op : LogOp
  writes : ℕ
  deriving DecidableEq

/-- The index after a log id; an empty log begins at 0. -/
def nextOf (logId : Option LogId) : ℕ :=
  match logId with
  | some id => id.index + 1
  | none => 0

section

variable {Bytes : Type*} (codec : LogCodec Bytes)

/-- What raft may call: append at the index after the last one, delete a suffix after the last purged
    entry, purge no less than before, maybe beyond the end. All indices are `u64`. -/
def Legal (st : LogStore Bytes) : LogOp → Prop
  | .append entries =>
    entries.map (·.logId.index) =
        List.range' (nextOf (st.getLogState codec).lastLogId) entries.length ∧
      ∀ e ∈ entries, e.logId.index ≤ maxIndex
  | .deleteSince logId => nextOf (st.getLastPurged codec) ≤ logId.index ∧ logId.index ≤ maxIndex
  | .purge logId => nextOf (st.getLastPurged codec) ≤ logId.index + 1 ∧ logId.index ≤ maxIndex

instance (st : LogStore Bytes) : ∀ op, Decidable (Legal codec st op)
  | .append entries => inferInstanceAs (Decidable (entries.map (·.logId.index) =
        List.range' (nextOf (st.getLogState codec).lastLogId) entries.length ∧
      ∀ e ∈ entries, e.logId.index ≤ maxIndex))
  | .deleteSince logId => inferInstanceAs (Decidable
      (nextOf (st.getLastPurged codec) ≤ logId.index ∧ logId.index ≤ maxIndex))
  | .purge logId => inferInstanceAs (Decidable
      (nextOf (st.getLastPurged codec) ≤ logId.index + 1 ∧ logId.index ≤ maxIndex))

/-- The log under raft, with crashes after any durable write. -/
def logMachine : Machine (LogStore Bytes) LogEvent where
  init := .new
  step st e := if Legal codec st e.op then some (st.write codec e.op e.writes) else none

/-- The entries after the last purged one are a block that begins right after it, or there are
    none. -/
def NoHole (st : LogStore Bytes) : Prop :=
  ∃ n, ∀ i, nextOf (st.getLastPurged codec) ≤ i →
    (st.entry codec i ≠ none ↔ i < nextOf (st.getLastPurged codec) + n)

/-- The condition: a suffix is deleted only while no entry has the last of all indices. -/
def SparesLast (st : LogStore Bytes) (e : LogEvent) : Prop :=
  match e.op with
  | .deleteSince logId => 0 < e.writes → logId.index < maxIndex → st.entry codec maxIndex = none
  | _ => True

instance (st : LogStore Bytes) (e : LogEvent) : Decidable (SparesLast codec st e) :=
  match h : e.op with
  | .deleteSince logId => decidable_of_iff
      (0 < e.writes → logId.index < maxIndex → st.entry codec maxIndex = none)
      (by simp only [SparesLast, h])
  | .append _ => isTrue (by simp only [SparesLast, h])
  | .purge _ => isTrue (by simp only [SparesLast, h])

end

/-! ### Blocks of the map -/

/-- The entries of the map from `start` on are `n` in a row. -/
def Block (m : FiniteLog) (start n : ℕ) : Prop :=
  ∀ i, start ≤ i → (m.entries[i]? ≠ none ↔ i < start + n)

/-- Where raft appends: at the end of the block if there is one, else not after its beginning. -/
theorem nextOf_state {m : FiniteLog} {n : ℕ}
    (hindex : ∀ (i : ℕ) (e : Entry), m.entries[i]? = some e → e.logId.index = i)
    (h : Block m (nextOf m.lastPurgedLogId) n) :
    (0 < n → nextOf m.state.lastLogId = nextOf m.lastPurgedLogId + n) ∧
      (n = 0 → nextOf m.state.lastLogId ≤ nextOf m.lastPurgedLogId) := by
  cases hlast : m.entries.toList.getLast? with
  | none =>
    have hnil : m.entries.toList = [] := List.getLast?_eq_none_iff.mp hlast
    have hstate : m.state.lastLogId = m.lastPurgedLogId := by simp [FiniteLog.state, hlast]
    rw [hstate]
    refine ⟨?_, fun _ => le_rfl⟩
    intro hn
    obtain ⟨e, he⟩ := Option.ne_none_iff_exists'.mp
      ((h (nextOf m.lastPurgedLogId) le_rfl).mpr (by omega))
    have hmem := Std.ExtTreeMap.mem_toList_iff_getElem?_eq_some.mpr he
    rw [hnil] at hmem
    cases hmem
  | some p =>
    have hp := Std.ExtTreeMap.mem_toList_iff_getElem?_eq_some.mp (List.mem_of_getLast? hlast)
    have hmax : ∀ i : ℕ, m.entries[i]? ≠ none → i ≤ p.1 := by
      intro i hi
      obtain ⟨e, he⟩ := Option.ne_none_iff_exists'.mp hi
      exact le_getLast?_toList hlast he
    have hnext : nextOf m.state.lastLogId = p.1 + 1 := by
      simp [FiniteLog.state, hlast, nextOf, hindex p.1 p.2 hp]
    rw [hnext]
    constructor
    · intro hn
      have hend := hmax (nextOf m.lastPurgedLogId + n - 1) ((h _ (by omega)).mpr (by omega))
      have hp' := (h p.1 (by omega)).mp (by rw [hp]; simp)
      omega
    · rintro rfl
      by_contra hlt
      have hp' := (h p.1 (by omega)).mp (by rw [hp]; simp)
      omega

/-- Appending makes the block longer. -/
theorem block_append {m : FiniteLog} {n : ℕ}
    (hindex : ∀ (i : ℕ) (e : Entry), m.entries[i]? = some e → e.logId.index = i)
    (h : Block m (nextOf m.lastPurgedLogId) n) {entries : List Entry}
    (hlegal : entries.map (·.logId.index) = List.range' (nextOf m.state.lastLogId) entries.length) :
    ∃ n', Block (m.append entries) (nextOf m.lastPurgedLogId) n' := by
  obtain ⟨hpos, hzero⟩ := nextOf_state hindex h
  have hnew : ∀ i : ℕ, (m.append entries).entries[i]? ≠ none ↔ m.entries[i]? ≠ none ∨
      (nextOf m.state.lastLogId ≤ i ∧ i < nextOf m.state.lastLogId + entries.length) := by
    intro i
    have hkeys : i ∈ entries.map (·.logId.index) ↔
        nextOf m.state.lastLogId ≤ i ∧ i < nextOf m.state.lastLogId + entries.length := by
      rw [hlegal, List.mem_range'_1]
    rw [← hkeys, append_get_ne_none]
  refine ⟨max n (nextOf m.state.lastLogId + entries.length - nextOf m.lastPurgedLogId), ?_⟩
  intro i hi
  rw [hnew, h i hi]
  rcases Nat.eq_zero_or_pos n with rfl | hn
  · have hle := hzero rfl
    omega
  · have heq := hpos hn
    omega

/-- Deleting a suffix makes it shorter. -/
theorem block_without {m : FiniteLog} {start n k : ℕ} (h : Block m start n) (hk : start ≤ k)
    {test : ℕ → Bool} (htest : ∀ i, m.entries[i]? ≠ none → (test i = true ↔ k ≤ i)) :
    Block (m.without test) start (min n (k - start)) := by
  intro i hi
  rw [without_get]
  by_cases hm : m.entries[i]? = none
  · have hge := mt (h i hi).mpr (not_not_intro hm)
    simp only [hm, ite_self, ne_eq, not_true_eq_false, false_iff]
    omega
  · have hlt := (h i hi).mp hm
    have ht := htest i hm
    cases htest' : test i with
    | true =>
      have hki := ht.mp htest'
      simp only [if_true, ne_eq, not_true_eq_false, false_iff]
      omega
    | false =>
      have hki : i < k := by
        by_contra hle
        rw [ht.mpr (by omega)] at htest'
        cases htest'
      simp only [Bool.false_eq_true, if_false, ne_eq, hm, not_false_eq_true, true_iff]
      omega

/-- Purging moves its beginning. -/
theorem block_later {m : FiniteLog} {start start' n : ℕ} (h : Block m start n)
    (hle : start ≤ start') : Block m start' (start + n - start') := by
  intro i hi
  rw [h i (by omega)]
  omega

theorem block_removeUpTo {m : FiniteLog} {start n k : ℕ} (h : Block m start n) (hk : k < start) :
    Block (m.without fun i => i ≤ k) start n := by
  intro i hi
  rw [without_get, if_neg (by simpa using (show k < i by omega))]
  exact h i hi

/-! ### One call -/

section

variable {Bytes : Type*} {codec : LogCodec Bytes} {st : LogStore Bytes} {m : FiniteLog}

theorem noHole_iff_block (h : Refines codec st m) :
    NoHole codec st ↔ ∃ n, Block m (nextOf m.lastPurgedLogId) n := by
  simp only [NoHole, Block, h.getLastPurged, h.entry]

/-- What the durable writes of a call make of the map. -/
theorem write_cases (h : Refines codec st m) {op : LogOp} (hop : op.OnlyDigests codec.comesBack)
    (k : ℕ) :
    (k = 0 ∧ st.write codec op k = st) ∨
    (∃ entries, op = .append entries ∧ Refines codec (st.write codec op k) (m.append entries)) ∨
    (∃ logId, op = .deleteSince logId ∧ 0 < k ∧ Refines codec (st.write codec op k)
      (m.without fun i => decide (logId.index ≤ i) && decide (i < maxIndex))) ∨
    (∃ logId, op = .purge logId ∧ (Refines codec (st.write codec op k)
        { m with lastPurgedLogId := some logId } ∨ Refines codec (st.write codec op k)
        { m.without (fun i => i ≤ logId.index) with lastPurgedLogId := some logId })) := by
  cases k with
  | zero => exact .inl ⟨rfl, by simp [LogStore.write]⟩
  | succ k =>
    cases op with
    | append entries =>
      refine .inr (.inl ⟨entries, rfl, ?_⟩)
      simpa [LogStore.write, LogOp.writes] using h.append hop
    | deleteSince logId =>
      refine .inr (.inr (.inl ⟨logId, rfl, k.succ_pos, ?_⟩))
      simpa [LogStore.write, LogOp.writes] using h.deleteSince logId
    | purge logId =>
      refine .inr (.inr (.inr ⟨logId, rfl, ?_⟩))
      cases k with
      | zero => exact .inl (h.setLastPurged logId)
      | succ k =>
        refine .inr ?_
        have hpurged := (h.setLastPurged logId).removeUpTo logId
        simpa [LogStore.write, LogOp.writes, FiniteLog.without] using hpurged

/-- The store holds some map whose indices are `u64`. -/
def Holding (codec : LogCodec Bytes) (st : LogStore Bytes) : Prop :=
  ∃ m, Refines codec st m ∧ ∀ i : ℕ, m.entries[i]? ≠ none → i ≤ maxIndex

theorem without_ne_none {test : ℕ → Bool} {i : ℕ} (h : (m.without test).entries[i]? ≠ none) :
    m.entries[i]? ≠ none := by
  intro hnone
  rw [without_get, hnone, ite_self] at h
  exact h rfl

theorem holding_step (st : LogStore Bytes) (e : LogEvent) (st' : LogStore Bytes)
    (hst : Holding codec st) (hdigests : e.op.OnlyDigests codec.comesBack)
    (h : (logMachine codec).step st e = some st') : Holding codec st' := by
  obtain ⟨m, hm, hmax⟩ := hst
  simp only [logMachine] at h
  split at h
  case isFalse => cases h
  case isTrue hlegal =>
    obtain rfl := Option.some.inj h
    rcases write_cases hm hdigests e.writes with ⟨-, hw⟩ | ⟨entries, hop, hw⟩ | ⟨logId, -, -, hw⟩ |
      ⟨logId, -, hw | hw⟩
    · rw [hw]
      exact ⟨m, hm, hmax⟩
    · refine ⟨_, hw, ?_⟩
      intro i hi
      rw [hop] at hlegal
      obtain ⟨e', he'⟩ := Option.ne_none_iff_exists'.mp hi
      rcases append_get he' with ⟨hmem, rfl⟩ | hold
      · exact hlegal.2 e' hmem
      · exact hmax i (by rw [hold]; simp)
    · exact ⟨_, hw, fun i hi => hmax i (without_ne_none hi)⟩
    · exact ⟨_, hw, hmax⟩
    · exact ⟨_, hw, fun i hi => hmax i (without_ne_none hi)⟩

/-- A deletion that leaves an entry behind with the last of all indices leaves a hole before it. -/
theorem hole_of_last {start n k : ℕ} (hk : start ≤ k) (hlt : k < maxIndex)
    (hlast : m.entries[maxIndex]? ≠ none)
    (h : Block (m.without fun i => decide (k ≤ i) && decide (i < maxIndex)) start n) : False := by
  have hgone := mt (h k hk).mpr (by simp [without_get, hlt])
  have hkept := (h maxIndex (by omega)).mp (by simpa [without_get] using hlast)
  omega

/-- One call keeps the log without holes exactly if it meets the condition. -/
theorem noHole_step_iff (st : LogStore Bytes) (e : LogEvent) (st' : LogStore Bytes)
    (hst : Holding codec st) (hhole : NoHole codec st)
    (hdigests : e.op.OnlyDigests codec.comesBack)
    (h : (logMachine codec).step st e = some st') :
    SparesLast codec st e ↔ NoHole codec st' := by
  obtain ⟨m, hm, hmax⟩ := hst
  obtain ⟨n, hblock⟩ := (noHole_iff_block hm).mp hhole
  simp only [logMachine] at h
  split at h
  case isFalse => cases h
  case isTrue hlegal =>
    obtain rfl := Option.some.inj h
    rcases write_cases hm hdigests e.writes with ⟨hzero, hw⟩ | ⟨entries, hop, hw⟩ |
      ⟨logId, hop, hpos, hw⟩ | ⟨logId, hop, hw⟩
    · rw [hw]
      refine iff_of_true ?_ hhole
      unfold SparesLast
      split
      · intro hpos
        omega
      · trivial
    · refine iff_of_true (by simp only [SparesLast, hop]) ((noHole_iff_block hw).mpr ?_)
      rw [hop] at hlegal
      have hkeys := hlegal.1
      rw [hm.getLogState] at hkeys
      exact block_append hm.index hblock hkeys
    · rw [hop] at hlegal
      obtain ⟨hstart, hindex⟩ := hlegal
      rw [hm.getLastPurged] at hstart
      rw [noHole_iff_block hw]
      simp only [SparesLast, hop, hm.entry]
      constructor
      · intro hspares
        by_cases hlt : logId.index < maxIndex
        · refine ⟨_, block_without hblock hstart ?_⟩
          intro i hi
          simp only [Bool.and_eq_true, decide_eq_true_eq, and_iff_left_iff_imp]
          intro _
          refine lt_of_le_of_ne (hmax i hi) ?_
          rintro rfl
          exact hi (hspares hpos hlt)
        · -- the scan is empty
          refine ⟨_, block_without hblock (k := maxIndex + 1) (by omega) ?_⟩
          intro i hi
          have hle := hmax i hi
          simp only [Bool.and_eq_true, decide_eq_true_eq]
          omega
      · rintro ⟨n', hn'⟩ - hlt
        by_contra hlast
        exact hole_of_last hstart hlt hlast hn'
    · refine iff_of_true (by simp only [SparesLast, hop]) ?_
      rw [hop] at hlegal
      obtain ⟨hstart, -⟩ := hlegal
      rw [hm.getLastPurged] at hstart
      rcases hw with hw | hw
      · exact (noHole_iff_block hw).mpr ⟨_, block_later hblock hstart⟩
      · refine (noHole_iff_block hw).mpr ⟨_, block_removeUpTo (block_later hblock hstart) ?_⟩
        exact Nat.lt_succ_self _

/-- NO HOLE IN THE LOG, exactly: over a whole run of calls that raft may make, with crashes after any
    durable write, the entries after the last purged one form one block from there on in every
    state, if and only if no suffix is deleted from an index below the last of all while an entry
    has that last index. -/
theorem no_hole_iff (codec : LogCodec Bytes) (es : List LogEvent) (st : LogStore Bytes)
    (hdigests : ∀ e ∈ es, e.op.OnlyDigests codec.comesBack)
    (h : (logMachine codec).run (logMachine codec).init es = some st) :
    (∀ xs ys t, es = xs ++ ys → (logMachine codec).run (logMachine codec).init xs = some t →
      ∃ n, ∀ i, nextOf (t.getLastPurged codec) ≤ i →
        (t.entry codec i ≠ none ↔ i < nextOf (t.getLastPurged codec) + n)) ↔
    (logMachine codec).Meets (SparesLast codec) (logMachine codec).init es := by
  have hempty : ∀ i : ℕ, FiniteLog.empty.entries[i]? = none := by simp [FiniteLog.empty]
  have hinit : Holding codec (logMachine codec).init :=
    ⟨.empty, refines_new, fun i hi => absurd (hempty i) hi⟩
  have hnohole : NoHole codec (logMachine codec).init := by
    refine (noHole_iff_block refines_new).mpr ⟨0, ?_⟩
    intro i hi
    simp only [hempty, ne_eq, not_true_eq_false, false_iff, not_lt]
    exact hi
  exact (logMachine codec).meets_iff_run_inv holding_step noHole_step_iff hinit hnohole
    ((logMachine codec).meets_of_forall hdigests) h

end

/-! ### A crash in the middle of a purge, and the end of the index space -/

/-- Three entries; a purge beyond the end stops after its first write; raft goes on where
    `get_log_state` says, and purges again. -/
def purgeCrashRun : List LogEvent :=
  [⟨.append [blankAt 1 0, blankAt 1 1, blankAt 1 2], 1⟩, ⟨.purge ⟨⟨1, 1⟩, 3⟩, 1⟩,
   ⟨.append [blankAt 2 3, blankAt 2 4, blankAt 2 5], 1⟩, ⟨.deleteSince ⟨⟨2, 1⟩, 5⟩, 1⟩,
   ⟨.purge ⟨⟨1, 1⟩, 3⟩, 2⟩]

/-- A snapshot brings the log close to the end of the index space; the last two entries are appended
    and a conflict deletes both. -/
def endOfIndicesRun : List LogEvent :=
  [⟨.purge ⟨⟨1, 1⟩, maxIndex - 2⟩, 2⟩, ⟨.append [blankAt 1 (maxIndex - 1), blankAt 1 maxIndex], 1⟩,
   ⟨.deleteSince ⟨⟨1, 1⟩, maxIndex - 1⟩, 1⟩]

/-- The run with a crash keeps its log in one piece. -/
theorem no_hole_iff_purgeCrashRun :
    ∃ st, (logMachine plainLogCodec).run (logMachine plainLogCodec).init purgeCrashRun = some st ∧
      NoHole plainLogCodec st := by
  obtain ⟨st, h⟩ := Option.isSome_iff_exists.mp
    (show ((logMachine plainLogCodec).run (logMachine plainLogCodec).init purgeCrashRun).isSome by
      decide +kernel)
  have hall := (no_hole_iff plainLogCodec purgeCrashRun st (fun e _ => onlyDigests_plain e.op)
    h).mpr (by decide +kernel)
  exact ⟨st, h, hall purgeCrashRun [] st (List.append_nil _).symm h⟩

/-- At the end of the index space the deletion leaves the last entry and takes the one before it. -/
theorem endOfIndicesRun_hole :
    ∃ st, (logMachine plainLogCodec).run (logMachine plainLogCodec).init endOfIndicesRun = some st ∧
      nextOf (st.getLastPurged plainLogCodec) = maxIndex - 1 ∧
      st.entry plainLogCodec (maxIndex - 1) = none ∧
      st.entry plainLogCodec maxIndex = some (blankAt 1 maxIndex) ∧
      ¬ NoHole plainLogCodec st := by
  have hfacts : ((logMachine plainLogCodec).run (logMachine plainLogCodec).init
      endOfIndicesRun).map (fun st => decide (nextOf (st.getLastPurged plainLogCodec) = maxIndex - 1 ∧
        st.entry plainLogCodec (maxIndex - 1) = none ∧
        st.entry plainLogCodec maxIndex = some (blankAt 1 maxIndex))) = some true := by
    decide +kernel
  simp only [Option.map_eq_some_iff, decide_eq_true_eq] at hfacts
  obtain ⟨st, h, hnext, hgone, hlast⟩ := hfacts
  refine ⟨st, h, hnext, hgone, hlast, ?_⟩
  rintro ⟨n, hn⟩
  rw [hnext] at hn
  have hlt := mt (hn (maxIndex - 1) le_rfl).mpr (by simp [hgone])
  have hge := (hn maxIndex (by omega)).mp (by simp [hlast])
  simp only [maxIndex] at hlt hge
  omega

end Distribd.Store
