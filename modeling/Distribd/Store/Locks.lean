import Distribd.Schemes.RwLock
import Distribd.Store.Pending

/-! The lock around the in-memory state machine, and the database (`store/mod.rs`,
    `network/management.rs`, `mirror.rs`). A sled transaction over several trees holds the lock of
    the database exclusively from before its closure runs until after the commit, and each `get` and
    each step of an iterator takes it shared. Everybody takes `state_machine` first and reads the
    database under it, also `apply_to_state_machine` itself when it refreshes the pending sets; only
    the closure of its transaction takes them the other way round. If a reader is at work at that
    moment, or comes in before the closure has the write lock, each waits for the other
    (`no_circular_wait_iff`), and for ever (`circular_wait_run`). -/

namespace Distribd.Store
open Schemes

/-! ### Who takes which lock -/

/-- The `RwLock` around the state machine, and the lock of the database. -/
inductive Lock where | stateMachine | database
  deriving DecidableEq, Repr

/-- The trees that are read under the lock. -/
inductive Tree where | stateMachine | blobs | manifests | tags
  deriving DecidableEq, Repr

/-- `SerializableRegistryStateMachine::from`: three iterators, with one step more than rows each,
    then `get_last_applied_log` and `get_last_membership`. -/
def serializableReads (blobs manifests tags : ℕ) : List Tree :=
  List.replicate (blobs + 1) .blobs ++ List.replicate (manifests + 1) .manifests ++
    List.replicate (tags + 1) .tags ++ [.stateMachine, .stateMachine]

/-- The functions that hold the read lock while they use the database; an iterator sees some number
    of rows. -/
inductive ReadPath where
  | buildSnapshot (blobs manifests tags : ℕ)
  | exportState (blobs manifests tags : ℕ)
  | lastAppliedState
  | doTransfer
  deriving DecidableEq, Repr

/-- What is read under the lock, in order. -/
def ReadPath.accesses : ReadPath → List Tree
  | .buildSnapshot b m t | .exportState b m t => serializableReads b m t
  | .lastAppliedState => [.stateMachine, .stateMachine]
  | .doTransfer => [.stateMachine]

/-- A call of one of them. A read of the database that fails ends it, with an error or a panic. -/
structure Reader where
  path : ReadPath
  failsAt : Option ℕ
  deriving DecidableEq, Repr

/-- The reads up to the one that fails, if one does. -/
def upTo (failsAt : Option ℕ) (accesses : List Tree) : List Tree :=
  match failsAt with
  | some k => accesses.take (k + 1)
  | none => accesses

/-- A reader reads at least once. -/
theorem accesses_ne_zero (r : Reader) : (upTo r.failsAt r.path.accesses).length ≠ 0 := by
  obtain ⟨path, failsAt⟩ := r
  cases failsAt <;> cases path <;> simp [upTo, ReadPath.accesses, serializableReads]

/-- A `get` or a step of an iterator. -/
def access : List (LockOp Lock) := [.acquire .database .shared, .release .database]

/-- `n` accesses, and the end of the guard. -/
def reads : ℕ → List (LockOp Lock)
  | 0 => [.release .stateMachine]
  | n + 1 => access ++ reads n

/-- A call that takes the lock, uses the database and drops the guard. -/
def Reader.program (r : Reader) : List (LockOp Lock) :=
  .acquire .stateMachine .shared :: reads (upTo r.failsAt r.path.accesses).length

/-- The rows that the loop after the commit reads: one for each action that stores or unstores. -/
def rowsRead (entries : List Entry) : List Tree :=
  (actionsOf entries).filterMap fun a =>
    match (a.half .blob).bind refreshed, (a.half .manifest).bind refreshed with
    | some _, _ => some .blobs
    | _, some _ => some .manifests
    | _, _ => none

/-- How far a call of `apply_to_state_machine` gets. -/
inductive ApplyEnd where
  /-- The closure, the commit or the flush fails; a panic in the closure gives both locks back too. -/
  | transaction
  /-- The loop after the commit runs, to its end or to a panic at one of its reads. -/
  | announcing (failsAt : Option ℕ)
  deriving DecidableEq, Repr

/-- What follows the transaction: the write lock again, and the loop under it. -/
def ApplyEnd.rest (entries : List Entry) : ApplyEnd → List (LockOp Lock)
  | .transaction => []
  | .announcing failsAt =>
    .acquire .stateMachine .exclusive :: reads (upTo failsAt (rowsRead entries)).length

/-- `apply_to_state_machine`: the transaction with the write lock in its closure, then the rest. -/
def applyLocks (entries : List Entry) (applyEnd : ApplyEnd) : List (LockOp Lock) :=
  .acquire .database .exclusive :: .acquire .stateMachine .exclusive ::
    .release .stateMachine :: .release .database :: applyEnd.rest entries

/-- One `apply_to_state_machine`, thread 0, among any number of readers. -/
def lockRuns (entries : List Entry) (applyEnd : ApplyEnd) (readers : List Reader) :
    Machine (List (LockThread Lock)) ℕ :=
  lockMachine (applyLocks entries applyEnd :: readers.map Reader.program)

/-! ### Waiting in a circle -/

/-- The closure waits for the write lock while a holder of the read lock waits for the database. -/
def CircularWait (s : List (LockThread Lock)) : Prop :=
  ∃ a ∈ s[0]?, (.database, .exclusive) ∈ a.held ∧ WaitsFor s a .stateMachine .exclusive ∧
    ∃ r ∈ s, (.stateMachine, .shared) ∈ r.held ∧ WaitsFor s r .database .shared

instance (s : List (LockThread Lock)) : Decidable (CircularWait s) :=
  inferInstanceAs (Decidable (∃ a ∈ s[0]?, (.database, .exclusive) ∈ a.held ∧
    WaitsFor s a .stateMachine .exclusive ∧
    ∃ r ∈ s, (.stateMachine, .shared) ∈ r.held ∧ WaitsFor s r .database .shared))

/-- The thread is in the closure and has yet to take the write lock. -/
def Entering (t : LockThread Lock) : Prop :=
  (.database, .exclusive) ∈ t.held ∧ t.todo.head? = some (.acquire .stateMachine .exclusive)

/-- The thread holds the read lock and has the database to read next. -/
def Reading (t : LockThread Lock) : Prop :=
  (.stateMachine, .shared) ∈ t.held ∧ t.todo.head? = some (.acquire .database .shared)

instance (t : LockThread Lock) : Decidable (Entering t) := inferInstanceAs (Decidable (_ ∧ _))
instance (t : LockThread Lock) : Decidable (Reading t) := inferInstanceAs (Decidable (_ ∧ _))

/-- The condition: a transaction begins while no holder of the read lock has reads to make, and
    nobody takes the read lock while the closure has yet to take the write lock. -/
def Apart (s : List (LockThread Lock)) (i : ℕ) : Prop :=
  ∀ t ∈ s[i]?,
    (t.todo.head? = some (.acquire .database .exclusive) → ∀ r ∈ s, ¬ Reading r) ∧
    (t.todo.head? = some (.acquire .stateMachine .shared) → ∀ a ∈ s, ¬ Entering a)

instance (s : List (LockThread Lock)) (i : ℕ) : Decidable (Apart s i) :=
  inferInstanceAs (Decidable (∀ t ∈ s[i]?,
    (t.todo.head? = some (.acquire .database .exclusive) → ∀ r ∈ s, ¬ Reading r) ∧
    (t.todo.head? = some (.acquire .stateMachine .shared) → ∀ a ∈ s, ¬ Entering a)))

/-- A circle is a closure that is entering while somebody is reading. -/
theorem circularWait_iff {s : List (LockThread Lock)} :
    CircularWait s ↔ (∃ a ∈ s[0]?, Entering a) ∧ ∃ r ∈ s, Reading r := by
  constructor
  · rintro ⟨a, ha, hdb, hwait, r, hr, hsm, hwait'⟩
    exact ⟨⟨a, ha, hdb, hwait.1⟩, r, hr, hsm, hwait'.1⟩
  · rintro ⟨⟨a, ha, hdb, hnext⟩, r, hr, hsm, hnext'⟩
    have hasm : ¬ Free s .stateMachine .exclusive := by
      intro hfree
      cases (hfree r hr _ hsm rfl).2
    have hrdb : ¬ Free s .database .shared := by
      intro hfree
      cases (hfree a (List.mem_of_getElem? ha) _ hdb rfl).1
    exact ⟨a, ha, hdb, ⟨hnext, hasm⟩, r, hr, hsm, hnext', hrdb⟩

/-! ### Where the threads can be -/

/-- A thread between the moment it has `state_machine` in mode `m` and its end. -/
inductive Guarded (m : LockMode) : LockThread Lock → Prop where
  | between (n : ℕ) : Guarded m ⟨reads n, [(.stateMachine, m)]⟩
  | inside (n : ℕ) :
    Guarded m ⟨.release .database :: reads n, [(.database, .shared), (.stateMachine, m)]⟩
  | finished : Guarded m ⟨[], []⟩

/-- A reader before its lock, or with it. It has at least one read to make. -/
inductive ReaderAt : LockThread Lock → Prop where
  | before (n : ℕ) : ReaderAt ⟨.acquire .stateMachine .shared :: reads (n + 1), []⟩
  | guarded {t : LockThread Lock} (h : Guarded .shared t) : ReaderAt t

/-- What `apply_to_state_machine` does after the transaction. -/
inductive Rest : List (LockOp Lock) → Prop where
  | none : Rest []
  | announce (n : ℕ) : Rest (.acquire .stateMachine .exclusive :: reads n)

/-- The points of `apply_to_state_machine`. -/
inductive ApplyAt : LockThread Lock → Prop where
  | before {rest} (h : Rest rest) :
    ApplyAt ⟨.acquire .database .exclusive :: .acquire .stateMachine .exclusive ::
      .release .stateMachine :: .release .database :: rest, []⟩
  | entering {rest} (h : Rest rest) :
    ApplyAt ⟨.acquire .stateMachine .exclusive :: .release .stateMachine :: .release .database ::
      rest, [(.database, .exclusive)]⟩
  | inClosure {rest} (h : Rest rest) :
    ApplyAt ⟨.release .stateMachine :: .release .database :: rest,
      [(.stateMachine, .exclusive), (.database, .exclusive)]⟩
  | committing {rest} (h : Rest rest) :
    ApplyAt ⟨.release .database :: rest, [(.database, .exclusive)]⟩
  | committed {rest} (h : Rest rest) : ApplyAt ⟨rest, []⟩
  | announcing {t : LockThread Lock} (h : Guarded .exclusive t) : ApplyAt t

/-- What a thread makes of its next operation. -/
def Advances (t t' : LockThread Lock) : Prop :=
  (∃ l m, t.todo = .acquire l m :: t'.todo ∧ t'.held = (l, m) :: t.held) ∨
    (∃ l, t.todo = .release l :: t'.todo ∧ t'.held = t.held.filter (·.1 ≠ l))

theorem advances_acquire {l : Lock} {m : LockMode} {todo : List (LockOp Lock)}
    {held : List (Lock × LockMode)} {t' : LockThread Lock}
    (h : Advances ⟨.acquire l m :: todo, held⟩ t') : t' = ⟨todo, (l, m) :: held⟩ := by
  obtain ⟨todo', held'⟩ := t'
  rcases h with ⟨l', m', htodo, hheld⟩ | ⟨l', htodo, -⟩
  · simp only [List.cons.injEq, LockOp.acquire.injEq] at htodo hheld
    obtain ⟨⟨rfl, rfl⟩, rfl⟩ := htodo
    rw [hheld]
  · cases htodo

theorem advances_release {l : Lock} {todo : List (LockOp Lock)}
    {held : List (Lock × LockMode)} {t' : LockThread Lock}
    (h : Advances ⟨.release l :: todo, held⟩ t') : t' = ⟨todo, held.filter (·.1 ≠ l)⟩ := by
  obtain ⟨todo', held'⟩ := t'
  rcases h with ⟨l', m', htodo, -⟩ | ⟨l', htodo, hheld⟩
  · cases htodo
  · simp only [List.cons.injEq, LockOp.release.injEq] at htodo hheld
    obtain ⟨rfl, rfl⟩ := htodo
    rw [hheld]

theorem not_advances_nil {held : List (Lock × LockMode)} {t' : LockThread Lock} :
    ¬ Advances ⟨[], held⟩ t' := by
  rintro (⟨l, m, h, -⟩ | ⟨l, h, -⟩) <;> cases h

theorem guarded_advances {m : LockMode} {t t' : LockThread Lock} (h : Guarded m t)
    (hadv : Advances t t') : Guarded m t' := by
  cases h with
  | between n =>
    cases n with
    | zero =>
      obtain rfl := advances_release hadv
      exact .finished
    | succ n =>
      obtain rfl := advances_acquire hadv
      exact .inside n
  | inside n =>
    obtain rfl := advances_release hadv
    exact .between n
  | finished => exact absurd hadv not_advances_nil

theorem readerAt_advances {t t' : LockThread Lock} (h : ReaderAt t) (hadv : Advances t t') :
    ReaderAt t' := by
  cases h with
  | before n =>
    obtain rfl := advances_acquire hadv
    exact .guarded (.between (n + 1))
  | guarded h => exact .guarded (guarded_advances h hadv)

theorem applyAt_advances {t t' : LockThread Lock} (h : ApplyAt t) (hadv : Advances t t') :
    ApplyAt t' := by
  cases h with
  | before h =>
    obtain rfl := advances_acquire hadv
    exact .entering h
  | entering h =>
    obtain rfl := advances_acquire hadv
    exact .inClosure h
  | inClosure h =>
    obtain rfl := advances_release hadv
    exact .committing h
  | committing h =>
    obtain rfl := advances_release hadv
    exact .committed h
  | committed h =>
    cases h with
    | none => exact absurd hadv not_advances_nil
    | announce n =>
      obtain rfl := advances_acquire hadv
      exact .announcing (.between n)
  | announcing h => exact .announcing (guarded_advances h hadv)

/-- Every thread is at a point of its program, and locks exclude. -/
structure Placed (s : List (LockThread Lock)) : Prop where
  apply : ∀ t ∈ s[0]?, ApplyAt t
  reader : ∀ j, ∀ t ∈ s[j + 1]?, ReaderAt t
  exclusive : Exclusive s

/-- One step: the thread that moved, where it was and where it is. -/
theorem lockRuns_step {entries : List Entry} {applyEnd : ApplyEnd} {readers : List Reader}
    {s s' : List (LockThread Lock)} {i : ℕ}
    (h : (lockRuns entries applyEnd readers).step s i = some s') :
    ∃ t t', s[i]? = some t ∧ s' = s.set i t' ∧ Advances t t' := by
  obtain ⟨t, t', hi, rfl, hcases⟩ := lock_step_cases h
  refine ⟨t, t', hi, rfl, ?_⟩
  rcases hcases with ⟨l, m, htodo, hheld, -⟩ | ⟨l, htodo, hheld⟩
  · exact .inl ⟨l, m, htodo, hheld⟩
  · exact .inr ⟨l, htodo, hheld⟩

theorem placed_step {entries : List Entry} {applyEnd : ApplyEnd} {readers : List Reader}
    {s s' : List (LockThread Lock)} {i : ℕ} (hs : Placed s)
    (h : (lockRuns entries applyEnd readers).step s i = some s') : Placed s' := by
  have hexcl := exclusive_step hs.exclusive h
  obtain ⟨t, t', hi, rfl, hadv⟩ := lockRuns_step h
  refine ⟨?_, ?_, hexcl⟩
  · intro u hu
    rw [Option.mem_def, getElem?_lock_step hi] at hu
    split at hu
    · cases hu
      subst i
      exact applyAt_advances (hs.apply t hi) hadv
    · exact hs.apply u hu
  · intro j u hu
    rw [Option.mem_def, getElem?_lock_step hi] at hu
    split at hu
    · cases hu
      subst i
      exact readerAt_advances (hs.reader j t hi) hadv
    · exact hs.reader j u hu

theorem placed_init {entries : List Entry} {applyEnd : ApplyEnd} {readers : List Reader} :
    Placed (lockRuns entries applyEnd readers).init := by
  refine ⟨?_, ?_, exclusive_init⟩
  · rintro t ht
    obtain rfl : (⟨applyLocks entries applyEnd, []⟩ : LockThread Lock) = t := by
      simpa [lockRuns, lockMachine] using ht
    refine .before ?_
    cases applyEnd with
    | transaction => exact .none
    | announcing failsAt => exact .announce _
  · intro j t ht
    obtain ⟨r, -, rfl⟩ : ∃ r, readers[j]? = some r ∧ ⟨r.program, []⟩ = t := by
      simpa [lockRuns, lockMachine] using ht
    obtain ⟨n, hn⟩ := Nat.exists_eq_succ_of_ne_zero (accesses_ne_zero r)
    rw [Reader.program, hn]
    exact .before n

/-! ### The exact condition -/

theorem not_entering_readerAt {t : LockThread Lock} (h : ReaderAt t) : ¬ Entering t := by
  rintro ⟨hheld, -⟩
  rcases h with _ | h
  · simp at hheld
  · cases h <;> simp at hheld

theorem not_reading_applyAt {t : LockThread Lock} (h : ApplyAt t) : ¬ Reading t := by
  rintro ⟨hheld, -⟩
  rcases h with _ | _ | _ | _ | _ | h
  · simp at hheld
  · simp at hheld
  · simp at hheld
  · simp at hheld
  · simp at hheld
  · cases h <;> simp at hheld

/-- Only the beginning of the transaction makes `apply_to_state_machine` wait in its closure, and it
    never takes the read lock. -/
theorem entering_advances_iff {t t' : LockThread Lock} (h : ApplyAt t) (hadv : Advances t t') :
    (Entering t' ↔ t.todo.head? = some (.acquire .database .exclusive)) ∧
      t.todo.head? ≠ some (.acquire .stateMachine .shared) := by
  cases h with
  | before h =>
    obtain rfl := advances_acquire hadv
    simp [Entering]
  | entering h =>
    obtain rfl := advances_acquire hadv
    simp [Entering]
  | inClosure h =>
    obtain rfl := advances_release hadv
    simp [Entering]
  | committing h =>
    obtain rfl := advances_release hadv
    simp [Entering]
  | committed h =>
    cases h with
    | none => exact absurd hadv not_advances_nil
    | announce n =>
      obtain rfl := advances_acquire hadv
      simp [Entering]
  | announcing h =>
    cases h with
    | between n =>
      cases n with
      | zero =>
        obtain rfl := advances_release hadv
        simp [Entering, reads]
      | succ n =>
        obtain rfl := advances_acquire hadv
        simp [Entering, reads, access]
    | inside n =>
      obtain rfl := advances_release hadv
      simp [Entering]
    | finished => exact absurd hadv not_advances_nil

/-- A reader comes to a read by taking its lock, or from the database; it never begins a
    transaction. -/
theorem reading_advances_iff {t t' : LockThread Lock} (h : ReaderAt t) (hadv : Advances t t')
    (hdb : (.database, .shared) ∉ t.held) :
    (Reading t' ↔ t.todo.head? = some (.acquire .stateMachine .shared)) ∧
      t.todo.head? ≠ some (.acquire .database .exclusive) := by
  cases h with
  | before n =>
    obtain rfl := advances_acquire hadv
    simp [Reading, reads, access]
  | guarded h =>
    cases h with
    | between n =>
      cases n with
      | zero =>
        obtain rfl := advances_release hadv
        simp [Reading, reads]
      | succ n =>
        obtain rfl := advances_acquire hadv
        simp [Reading, reads, access]
    | inside n => exact absurd (List.mem_cons_self ..) hdb
    | finished => exact absurd hadv not_advances_nil

section

variable {entries : List Entry} {applyEnd : ApplyEnd} {readers : List Reader}
  {s s' : List (LockThread Lock)} {i : ℕ}

/-- A step of `apply_to_state_machine` closes the circle exactly if it begins the transaction under
    a reader. -/
theorem apart_apply_iff (hplaced : Placed s) {t t' : LockThread Lock} (ht : s[0]? = some t)
    (hadv : Advances t t') : Apart s 0 ↔ ¬ CircularWait (s.set 0 t') := by
  obtain ⟨hbegin, hread⟩ := entering_advances_iff (hplaced.apply t ht) hadv
  have hreading : (∃ r ∈ s.set 0 t', Reading r) ↔ ∃ r ∈ s, Reading r := by
    constructor
    · rintro ⟨r, hr, hreading⟩
      rcases List.mem_or_eq_of_mem_set hr with hr | rfl
      · exact ⟨r, hr, hreading⟩
      · exact absurd hreading (not_reading_applyAt (applyAt_advances (hplaced.apply t ht) hadv))
    · rintro ⟨r, hr, hreading⟩
      obtain ⟨j, hj⟩ := List.mem_iff_getElem?.mp hr
      refine ⟨r, List.mem_of_getElem? (i := j) ?_, hreading⟩
      rw [getElem?_lock_step ht, if_neg ?_, hj]
      rintro rfl
      obtain rfl := Option.some.inj (ht.symm.trans hj)
      exact not_reading_applyAt (hplaced.apply t ht) hreading
  rw [circularWait_iff, hreading, getElem?_lock_step ht]
  simp only [Apart, ht, Option.mem_def, Option.some.injEq, forall_eq', exists_eq_left', if_true,
    hbegin, hread, false_implies, and_true, not_and, not_exists]

/-- A step of a reader closes the circle exactly if it takes the read lock before the closure has
    the write lock. -/
theorem apart_reader_iff (hplaced : Placed s) (hno : ¬ CircularWait s) {j : ℕ}
    {t t' : LockThread Lock} (ht : s[j + 1]? = some t) (hadv : Advances t t') :
    Apart s (j + 1) ↔ ¬ CircularWait (s.set (j + 1) t') := by
  have hentering : (∃ a ∈ s, Entering a) ↔ ∃ a ∈ s[0]?, Entering a := by
    constructor
    · rintro ⟨a, ha, hent⟩
      obtain ⟨k, hk⟩ := List.mem_iff_getElem?.mp ha
      cases k with
      | zero => exact ⟨a, hk, hent⟩
      | succ k => exact absurd hent (not_entering_readerAt (hplaced.reader k a hk))
    · rintro ⟨a, ha, hent⟩
      exact ⟨a, List.mem_of_getElem? ha, hent⟩
  have hzero : (s.set (j + 1) t')[0]? = s[0]? := by
    rw [getElem?_lock_step ht, if_neg (by omega)]
  rw [circularWait_iff] at hno ⊢
  rw [hzero]
  by_cases hent : ∃ a ∈ s[0]?, Entering a
  · -- the closure has the database, so this reader is not in it
    have hdb : (.database, .shared) ∉ t.held := by
      obtain ⟨a, ha, hent⟩ := hent
      exact hplaced.exclusive 0 (j + 1) a t _ _ (by omega) ha ht hent.1
    obtain ⟨hreads, hbegin⟩ := reading_advances_iff (hplaced.reader j t ht) hadv hdb
    have hreading : (∃ r ∈ s.set (j + 1) t', Reading r) ↔ Reading t' := by
      constructor
      · rintro ⟨r, hr, hreading⟩
        rcases List.mem_or_eq_of_mem_set hr with hr | rfl
        · exact absurd ⟨hent, r, hr, hreading⟩ hno
        · exact hreading
      · intro hreading
        refine ⟨t', List.mem_of_getElem? (i := j + 1) ?_, hreading⟩
        rw [getElem?_lock_step ht, if_pos rfl]
    have hnone : ¬ ∀ a ∈ s, ¬ Entering a := by
      intro hall
      obtain ⟨a, ha, hent⟩ := hentering.mpr hent
      exact hall a ha hent
    simp only [Apart, ht, Option.mem_def, Option.some.injEq, forall_eq', hbegin, false_implies,
      true_and, hreading, hreads, hnone, imp_false, not_and]
    exact ⟨fun h _ => h, fun h => h (by simpa using hent)⟩
  · have hnone : ∀ a ∈ s, ¬ Entering a := fun a ha h => hent (hentering.mp ⟨a, ha, h⟩)
    refine ⟨fun _ h => hent h.1, ?_⟩
    rintro - u hu
    obtain rfl := Option.some.inj (ht.symm.trans hu)
    refine ⟨?_, fun _ => hnone⟩
    intro hbegin
    rcases hplaced.reader j t ht with _ | h
    · simp at hbegin
    · rcases h with n | n | _
      · cases n <;> simp [reads, access] at hbegin
      · simp at hbegin
      · simp at hbegin

theorem apart_step_iff (hplaced : Placed s) (hno : ¬ CircularWait s)
    (h : (lockRuns entries applyEnd readers).step s i = some s') :
    Apart s i ↔ ¬ CircularWait s' := by
  obtain ⟨t, t', hi, rfl, hadv⟩ := lockRuns_step h
  cases i with
  | zero => exact apart_apply_iff hplaced hi hadv
  | succ j => exact apart_reader_iff hplaced hno hi hadv

theorem not_circularWait_init : ¬ CircularWait (lockRuns entries applyEnd readers).init := by
  rintro ⟨a, ha, hheld, -⟩
  obtain rfl : (⟨applyLocks entries applyEnd, []⟩ : LockThread Lock) = a := by
    simpa [lockRuns, lockMachine] using ha
  cases hheld

/-- NO CIRCULAR WAIT: exactly if every transaction begins while no holder of the read lock has reads
    to make, and nobody takes the read lock before the closure has the write lock. -/
theorem no_circular_wait_iff {es : List ℕ} {t : List (LockThread Lock)}
    (h : (lockRuns entries applyEnd readers).run (lockRuns entries applyEnd readers).init es =
      some t) :
    (∀ xs ys m, es = xs ++ ys → (lockRuns entries applyEnd readers).run
        (lockRuns entries applyEnd readers).init xs = some m → ¬ CircularWait m) ↔
      (lockRuns entries applyEnd readers).Meets Apart (lockRuns entries applyEnd readers).init es :=
  Machine.meets_iff_run_inv (lockRuns entries applyEnd readers) (A := fun _ _ => True)
    (fun _ _ _ hplaced _ hstep => placed_step hplaced hstep)
    (fun _ _ _ hplaced hno _ hstep => apart_step_iff hplaced hno hstep)
    placed_init not_circularWait_init (Machine.meets_true _ es _) h

/-- An upload is committed. -/
def uploadEntries : List Entry :=
  [⟨⟨⟨1, 1⟩, 1⟩, .normal (.transaction
    [.blobMounted 0 helloDigest ⟨"library"⟩ "ci", .blobStored 0 helloDigest 1 "ci"])⟩]

/-- Three readers around the upload: the first has read what it wants when the transaction begins and
    drops its guard, the second comes in before the commit, the third after everything. -/
def threeReaders : List Reader := [⟨.lastAppliedState, none⟩, ⟨.doTransfer, none⟩,
  ⟨.exportState 1 0 0, some 0⟩]

def apartRun : List ℕ := [1, 1, 1, 1, 1, 0, 1, 0, 0, 2, 0, 2, 2, 2, 0, 0, 0, 0, 3, 3, 3, 3]

theorem no_circular_wait_iff_apartRun :
    ((lockRuns uploadEntries (.announcing none) threeReaders).run
      (lockRuns uploadEntries (.announcing none) threeReaders).init apartRun).isSome ∧
    ∀ xs ys m, apartRun = xs ++ ys → (lockRuns uploadEntries (.announcing none) threeReaders).run
      (lockRuns uploadEntries (.announcing none) threeReaders).init xs = some m →
        ¬ CircularWait m := by
  have hrun : ((lockRuns uploadEntries (.announcing none) threeReaders).run
      (lockRuns uploadEntries (.announcing none) threeReaders).init apartRun).map
        (fun s => s.map LockThread.todo) = some [[], [], [], []] := by decide +kernel
  obtain ⟨t, ht, -⟩ := Option.map_eq_some_iff.mp hrun
  exact ⟨Option.isSome_of_mem ht, (no_circular_wait_iff ht).mpr (by decide +kernel)⟩

/-- The mirror looks up the members while the upload is applied: it has the read lock, the
    transaction begins, and now each waits for the other. -/
def lookupRun : List ℕ := [1, 0]

theorem lookupRun_circular_wait :
    ∃ s, (lockRuns uploadEntries (.announcing none) [⟨.doTransfer, none⟩]).run
      (lockRuns uploadEntries (.announcing none) [⟨.doTransfer, none⟩]).init lookupRun = some s ∧
        CircularWait s := by
  have hwait : ((lockRuns uploadEntries (.announcing none) [⟨.doTransfer, none⟩]).run
      (lockRuns uploadEntries (.announcing none) [⟨.doTransfer, none⟩]).init lookupRun).map
        (fun s => decide (CircularWait s)) = some true := by decide +kernel
  obtain ⟨s, hs, hcircle⟩ := Option.map_eq_some_iff.mp hwait
  exact ⟨s, hs, of_decide_eq_true hcircle⟩

/-- FOR EVER: a circle is still there after every run, whatever the other readers do. -/
theorem circular_wait_run {es : List ℕ} (hwait : CircularWait s)
    (h : (lockRuns entries applyEnd readers).run s es = some s') : CircularWait s' := by
  obtain ⟨⟨a, ha, hent⟩, r, hr, hreading⟩ := circularWait_iff.mp hwait
  obtain ⟨j, hj⟩ := List.mem_iff_getElem?.mp hr
  have hreader : Blocks s j 0 :=
    ⟨a, r, .stateMachine, .exclusive, .shared, ha, hj, hent.2, hreading.1, by simp⟩
  have hclosure : Blocks s 0 j :=
    ⟨r, a, .database, .shared, .exclusive, hj, ha, hreading.2, hent.1, by simp⟩
  obtain ⟨hzero, hthread⟩ := deadlock_run hclosure hreader h
  exact circularWait_iff.mpr ⟨⟨a, hzero.trans ha, hent⟩, r,
    List.mem_of_getElem? (hthread.trans hj), hreading⟩

end

end Distribd.Store
