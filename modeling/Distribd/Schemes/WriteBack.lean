import Mathlib.Data.List.Basic
import Mathlib.Logic.Function.Basic
import Mathlib.Logic.Relation
import Mathlib.Order.Lattice

/-! A store with write-back. A write is seen at once and is durable when it has been flushed: writes
    become durable in their order, and a flush that ends has made durable what was written before it
    began. Several tasks share the store. Each makes the writes of one call after another, and waits
    for a flush after each of them; between the steps of a task the others go on as they like. A
    crash ends all calls and leaves the store as it was after some write, no older than the last
    flush.

    The rule for such tasks is one of rely and guarantee (`Protocol`): if each write of a call keeps
    an invariant and what its task guarantees, whatever the other tasks have done before it within
    their guarantees, then the invariant holds of everything that a crash can leave, and what the
    calls that have returned were for has been done there, too (`Good.proceed`, `Good.crash`). -/

namespace Distribd.Schemes

/-! ### The store -/

/-- What is seen, what a crash can leave instead, the latest first, and the number of writes. -/
structure WriteBack (σ : Type*) where
  current : σ
  earlier : List σ
  written : ℕ

namespace WriteBack

variable {σ : Type*}

/-- Everything that a crash can leave. -/
def possible (w : WriteBack σ) : List σ := w.current :: w.earlier

/-- A write. -/
def write (w : WriteBack σ) (f : σ → σ) : WriteBack σ := ⟨f w.current, w.possible, w.written + 1⟩

/-- A flush ends that began when so many writes had been made. -/
def flushed (w : WriteBack σ) (since : ℕ) : WriteBack σ :=
  { w with earlier := w.earlier.take (w.written - since) }

/-- A crash takes back the latest writes; `none`: they are durable. -/
def crash (w : WriteBack σ) (lost : ℕ) : Option (WriteBack σ) :=
  w.possible[lost]?.map fun s => ⟨s, [], 0⟩

theorem current_mem (w : WriteBack σ) : w.current ∈ w.possible := List.mem_cons_self ..

theorem mem_of_flushed {w : WriteBack σ} {since : ℕ} {s : σ}
    (h : s ∈ (w.flushed since).possible) : s ∈ w.possible := by
  rcases List.mem_cons.mp h with rfl | h
  · exact w.current_mem
  · exact List.mem_cons_of_mem _ (List.mem_of_mem_take h)

/-- A flush that ends takes nothing from what another one will leave. -/
theorem mem_flushed_of_flushed {w : WriteBack σ} {since since' : ℕ} {s : σ}
    (h : s ∈ ((w.flushed since).flushed since').possible) :
    s ∈ (w.flushed since').possible := by
  rcases List.mem_cons.mp h with rfl | h
  · exact List.mem_cons_self ..
  · refine List.mem_cons_of_mem _ ?_
    simp only [flushed, List.take_take] at h ⊢
    exact List.take_subset_take_left _ (min_le_left _ _) h

/-- What a flush leaves after one more write: the new state, and what it would have left before. -/
theorem mem_flushed_of_write {w : WriteBack σ} {f : σ → σ} {since : ℕ} {s : σ}
    (h : s ∈ ((w.write f).flushed since).possible) :
    s = f w.current ∨ s ∈ (w.flushed since).possible := by
  rcases List.mem_cons.mp h with rfl | h
  · exact .inl rfl
  · refine .inr ?_
    have hle : w.written + 1 - since ≤ (w.written - since) + 1 := by omega
    have hmem : s ∈ w.possible.take ((w.written - since) + 1) :=
      List.take_subset_take_left _ hle h
    simpa [possible, flushed] using hmem

/-- A flush that begins after the write leaves nothing else. -/
theorem eq_of_mem_flushed_write {w : WriteBack σ} {f : σ → σ} {s : σ}
    (h : s ∈ ((w.write f).flushed (w.written + 1)).possible) : s = f w.current := by
  simpa [write, flushed, possible] using h

theorem mem_of_crash {w w' : WriteBack σ} {lost : ℕ} (h : w.crash lost = some w') {s : σ}
    (hs : s ∈ w'.possible) : s ∈ w.possible := by
  obtain ⟨t, ht, rfl⟩ := Option.map_eq_some_iff.mp h
  obtain rfl : s = t := List.mem_singleton.mp hs
  exact List.mem_of_getElem? ht

end WriteBack

/-! ### The tasks -/

/-- A call under way: the writes that it still has to make, and how many writes had been made when
    the flush began that it is waiting for. -/
structure Task (ι σ : Type*) where
  call : ι
  todo : List (σ → σ)
  flushing : Option ℕ

/-- A process: its store, the call of each task, and the calls that have returned. -/
structure Tasks (κ ι σ : Type*) where
  store : WriteBack σ
  task : κ → Option (Task ι σ)
  returned : List ι

namespace Tasks

variable {κ ι σ : Type*} [DecidableEq κ]

/-- The process begins. -/
def new (s : σ) : Tasks κ ι σ := ⟨⟨s, [], 0⟩, fun _ => none, []⟩

/-- A task that has nothing else to do takes a call up. -/
def start (m : Tasks κ ι σ) (k : κ) (call : ι) (writes : List (σ → σ)) : Option (Tasks κ ι σ) :=
  match m.task k with
  | none => some { m with task := Function.update m.task k (some ⟨call, writes, none⟩) }
  | some _ => none

/-- A task gets on: its flush ends, or it makes a write and begins to flush it, or its call
    returns. -/
def proceed (m : Tasks κ ι σ) (k : κ) : Option (Tasks κ ι σ) :=
  match m.task k with
  | none => none
  | some ⟨call, todo, some since⟩ =>
    some { m with
      store := m.store.flushed since
      task := Function.update m.task k (some ⟨call, todo, none⟩) }
  | some ⟨call, f :: todo, none⟩ =>
    some { m with
      store := m.store.write f
      task := Function.update m.task k (some ⟨call, todo, some (m.store.written + 1)⟩) }
  | some ⟨call, [], none⟩ =>
    some { m with task := Function.update m.task k none, returned := m.returned ++ [call] }

/-- A call ends with an error. -/
def fail (m : Tasks κ ι σ) (k : κ) : Tasks κ ι σ :=
  { m with task := Function.update m.task k none }

/-- The process dies and is started again. -/
def crash (m : Tasks κ ι σ) (lost : ℕ) : Option (Tasks κ ι σ) :=
  (m.store.crash lost).map fun store => ⟨store, fun _ => none, m.returned⟩

end Tasks

theorem task_cases {κ ι σ : Type*} [DecidableEq κ] {task : κ → Option (Task ι σ)} {k j : κ}
    {new : Option (Task ι σ)} {t : Task ι σ} (h : Function.update task k new j = some t) :
    (j = k ∧ new = some t) ∨ (j ≠ k ∧ task j = some t) := by
  by_cases hj : j = k
  · subst hj
    rw [Function.update_self] at h
    exact .inl ⟨rfl, h⟩
  · rw [Function.update_of_ne hj] at h
    exact .inr ⟨hj, h⟩

/-- A task that gets on goes on with its call, or the call returns. -/
theorem Tasks.proceed_cases {κ ι σ : Type*} [DecidableEq κ] {m m' : Tasks κ ι σ} {k : κ}
    (h : m.proceed k = some m') :
    (m'.returned = m.returned ∧
        ∀ j t, m'.task j = some t → ∃ t₀, m.task j = some t₀ ∧ t₀.call = t.call) ∨
      ∃ t, m.task k = some t ∧ m'.returned = m.returned ++ [t.call] ∧
        m'.task = Function.update m.task k none := by
  unfold Tasks.proceed at h
  split at h
  · cases h
  · rename_i hk
    cases h
    refine .inl ⟨rfl, fun j t ht => ?_⟩
    rcases task_cases ht with ⟨rfl, heq⟩ | ⟨-, ht⟩
    · cases heq
      exact ⟨_, hk, rfl⟩
    · exact ⟨t, ht, rfl⟩
  · rename_i hk
    cases h
    refine .inl ⟨rfl, fun j t ht => ?_⟩
    rcases task_cases ht with ⟨rfl, heq⟩ | ⟨-, ht⟩
    · cases heq
      exact ⟨_, hk, rfl⟩
    · exact ⟨t, ht, rfl⟩
  · rename_i hk
    cases h
    exact .inr ⟨_, hk, rfl, rfl⟩

/-- A call that begins is the only change of the tasks. -/
theorem Tasks.start_cases {κ ι σ : Type*} [DecidableEq κ] {m m' : Tasks κ ι σ} {k : κ} {call : ι}
    {writes : List (σ → σ)} (h : m.start k call writes = some m') :
    m'.returned = m.returned ∧
      ∀ j t, m'.task j = some t → (j = k ∧ t.call = call) ∨ (j ≠ k ∧ m.task j = some t) := by
  unfold Tasks.start at h
  split at h
  · cases h
    refine ⟨rfl, fun j t ht => ?_⟩
    rcases task_cases ht with ⟨rfl, heq⟩ | hj
    · cases heq
      exact .inl ⟨rfl, rfl⟩
    · exact .inr hj
  · cases h

/-- What a call leaves when the flush that it is waiting for has ended. -/
def Task.settled {ι σ : Type*} (t : Task ι σ) (w : WriteBack σ) : WriteBack σ :=
  match t.flushing with
  | some since => w.flushed since
  | none => w

/-! ### Rely and guarantee -/

/-- An invariant of the store, what the writes of each task guarantee, and what a call is for, which
    no write undoes. -/
structure Protocol (κ ι σ : Type*) where
  Inv : σ → Prop
  Guarantee : κ → σ → σ → Prop
  Done : ι → σ → Prop
  done_mono : ∀ {k : κ} {c : ι} {s s' : σ}, Guarantee k s s' → Done c s → Done c s'

namespace Protocol

variable {κ ι σ : Type*} (P : Protocol κ ι σ)

/-- What the other tasks may do between two steps of a task. -/
def Rely (k : κ) : σ → σ → Prop := Relation.ReflTransGen fun s s' => ∃ j ≠ k, P.Guarantee j s s'

/-- The writes are those of a call of the task: each may come after whatever the others do. -/
def Fits (k : κ) (call : ι) : List (σ → σ) → σ → Prop
  | [], s => P.Done call s
  | f :: fs, s => ∀ s', P.Rely k s s' → P.Inv s' →
      P.Inv (f s') ∧ P.Guarantee k s' (f s') ∧ Fits k call fs (f s')

/-- The store is sound, and so are the calls under way; what has been done stays done. -/
structure Good (m : Tasks κ ι σ) : Prop where
  inv : ∀ s ∈ m.store.possible, P.Inv s
  fits : ∀ k t, m.task k = some t → P.Fits k t.call t.todo m.store.current
  settled : ∀ k t, m.task k = some t → t.todo = [] →
    ∀ s ∈ (t.settled m.store).possible, P.Done t.call s
  returned : ∀ c ∈ m.returned, ∀ s ∈ m.store.possible, P.Done c s

variable {P}

/-- What no guarantee breaks is there after whatever the others do. -/
theorem Rely.of_guarantees {Q : σ → σ → Prop} (hrefl : ∀ s, Q s s)
    (htrans : ∀ {s t u}, Q s t → Q t u → Q s u) {k : κ}
    (h : ∀ j ≠ k, ∀ s s', P.Guarantee j s s' → Q s s') {s s' : σ} (hrely : P.Rely k s s') :
    Q s s' := by
  induction hrely with
  | refl => exact hrefl s
  | tail _ hstep ih =>
    obtain ⟨j, hj, hstep⟩ := hstep
    exact htrans ih (h j hj _ _ hstep)

theorem Fits.rely {k : κ} {call : ι} {writes : List (σ → σ)} {s s' : σ}
    (h : P.Fits k call writes s) (hrely : P.Rely k s s') : P.Fits k call writes s' := by
  cases writes with
  | nil =>
    exact hrely.of_guarantees (Q := fun s s' => P.Done call s → P.Done call s') (fun _ hs => hs)
      (fun hst htu hs => htu (hst hs)) (fun j _ _ _ hstep => P.done_mono hstep) h
  | cons f fs => exact fun t ht => h t (hrely.trans ht)

theorem good_new {s : σ} (h : P.Inv s) : P.Good (.new s : Tasks κ ι σ) where
  inv t ht := by
    obtain rfl : t = s := List.mem_singleton.mp ht
    exact h
  fits k t ht := by cases ht
  settled k t ht := by cases ht
  returned c hc := by cases hc

variable [DecidableEq κ] {m m' : Tasks κ ι σ} {k : κ}

namespace Good

/-- A call begins whose writes fit. -/
theorem start (h : P.Good m) {call : ι} {writes : List (σ → σ)}
    (hfits : P.Fits k call writes m.store.current) (hne : writes ≠ [])
    (hstart : m.start k call writes = some m') : P.Good m' := by
  unfold Tasks.start at hstart
  split at hstart
  · cases hstart
    refine ⟨h.inv, ?_, ?_, h.returned⟩
    · intro j t ht
      rcases task_cases ht with ⟨rfl, heq⟩ | ⟨hj, ht⟩
      · cases heq
        exact hfits
      · exact h.fits j t ht
    · intro j t ht hnil
      rcases task_cases ht with ⟨rfl, heq⟩ | ⟨hj, ht⟩
      · cases heq
        exact absurd hnil hne
      · exact h.settled j t ht hnil
  · cases hstart

/-- A flush ends. -/
theorem flush (h : P.Good m) {call : ι} {todo : List (σ → σ)} {since : ℕ}
    (hk : m.task k = some ⟨call, todo, some since⟩) :
    P.Good { m with
      store := m.store.flushed since
      task := Function.update m.task k (some ⟨call, todo, none⟩) } := by
  refine ⟨fun s hs => h.inv s (WriteBack.mem_of_flushed hs), ?_, ?_,
    fun c hc s hs => h.returned c hc s (WriteBack.mem_of_flushed hs)⟩
  · intro j t ht
    rcases task_cases ht with ⟨rfl, heq⟩ | ⟨hj, ht⟩
    · have hfits := h.fits j _ hk
      cases heq
      exact hfits
    · exact h.fits j t ht
  · intro j t ht hnil s hs
    rcases task_cases ht with ⟨rfl, heq⟩ | ⟨hj, ht⟩
    · have hsettled := h.settled j _ hk
      cases heq
      exact hsettled hnil s hs
    · refine h.settled j t ht hnil s ?_
      unfold Task.settled at hs ⊢
      split at hs
      · exact WriteBack.mem_flushed_of_flushed hs
      · exact WriteBack.mem_of_flushed hs

/-- A write is made. -/
theorem write (h : P.Good m) {call : ι} {f : σ → σ} {todo : List (σ → σ)}
    (hk : m.task k = some ⟨call, f :: todo, none⟩) :
    P.Good { m with
      store := m.store.write f
      task := Function.update m.task k (some ⟨call, todo, some (m.store.written + 1)⟩) } := by
  obtain ⟨hinv, hguarantee, hfits⟩ :=
    h.fits k _ hk m.store.current .refl (h.inv _ m.store.current_mem)
  refine ⟨?_, ?_, ?_, ?_⟩
  · intro s hs
    rcases List.mem_cons.mp hs with rfl | hs
    · exact hinv
    · exact h.inv s hs
  · intro j t ht
    rcases task_cases ht with ⟨rfl, heq⟩ | ⟨hj, ht⟩
    · cases heq
      exact hfits
    · exact (h.fits j t ht).rely (.single ⟨k, Ne.symm hj, hguarantee⟩)
  · intro j t ht hnil s hs
    rcases task_cases ht with ⟨rfl, heq⟩ | ⟨hj, ht⟩
    · cases heq
      obtain rfl := WriteBack.eq_of_mem_flushed_write hs
      obtain rfl : todo = [] := hnil
      exact hfits
    · have hsettled := h.settled j t ht hnil
      have hcurrent : P.Done t.call m.store.current := by
        refine hsettled _ ?_
        unfold Task.settled
        split
        · exact List.mem_cons_self ..
        · exact m.store.current_mem
      unfold Task.settled at hs hsettled
      split at hs
      · rename_i since hflushing
        rw [hflushing] at hsettled
        rcases WriteBack.mem_flushed_of_write hs with rfl | hs
        · exact P.done_mono hguarantee hcurrent
        · exact hsettled s hs
      · rename_i hflushing
        rw [hflushing] at hsettled
        rcases List.mem_cons.mp hs with rfl | hs
        · exact P.done_mono hguarantee hcurrent
        · exact hsettled s hs
  · intro c hc s hs
    rcases List.mem_cons.mp hs with rfl | hs
    · exact P.done_mono hguarantee (h.returned c hc _ m.store.current_mem)
    · exact h.returned c hc s hs

/-- A call ends with an error. -/
theorem fail (h : P.Good m) (k : κ) : P.Good (m.fail k) := by
  refine ⟨h.inv, ?_, ?_, h.returned⟩
  · intro j t ht
    rcases task_cases ht with ⟨rfl, heq⟩ | ⟨hj, ht⟩
    · cases heq
    · exact h.fits j t ht
  · intro j t ht
    rcases task_cases ht with ⟨rfl, heq⟩ | ⟨hj, ht⟩
    · cases heq
    · exact h.settled j t ht

/-- A task gets on. -/
theorem proceed (h : P.Good m) (hproceed : m.proceed k = some m') : P.Good m' := by
  unfold Tasks.proceed at hproceed
  split at hproceed
  · cases hproceed
  · rename_i hk
    cases hproceed
    exact h.flush hk
  · rename_i hk
    cases hproceed
    exact h.write hk
  · rename_i call hk
    cases hproceed
    have hfail := h.fail k
    refine ⟨hfail.inv, hfail.fits, hfail.settled, ?_⟩
    intro c hc s hs
    rcases List.mem_append.mp hc with hc | hc
    · exact h.returned c hc s hs
    · obtain rfl := List.mem_singleton.mp hc
      exact h.settled k _ hk rfl s hs

omit [DecidableEq κ] in
/-- The process dies. -/
theorem crash (h : P.Good m) {lost : ℕ} (hcrash : m.crash lost = some m') : P.Good m' := by
  obtain ⟨store, hstore, rfl⟩ := Option.map_eq_some_iff.mp hcrash
  refine ⟨fun s hs => h.inv s (WriteBack.mem_of_crash hstore hs), ?_, ?_,
    fun c hc s hs => h.returned c hc s (WriteBack.mem_of_crash hstore hs)⟩
  · intro j t ht
    cases ht
  · intro j t ht
    cases ht

end Good

end Protocol

end Distribd.Schemes
