import Distribd.Schemes.Machine

/-! Threads that take and release reader-writer locks. A thread is the list of lock operations it
    still has to make with the locks it holds; a run interleaves the threads, one operation an event.
    A lock is granted as long as nobody holds it, or everybody who does shares it: nothing is promised
    about who comes first, so a writer that waits may be overtaken. Two rules are proved for every
    set of programs: a lock that is held exclusively is held by nobody else (`exclusive_step`), and
    two threads that each hold what the other waits for do so for ever (`deadlock_run`). -/

namespace Distribd.Schemes

inductive LockMode where | shared | exclusive
  deriving DecidableEq, Repr

/-- What a program does with a lock. -/
inductive LockOp (L : Type*) where
  | acquire (lock : L) (mode : LockMode)
  | release (lock : L)
  deriving DecidableEq

/-- The rest of a program, and the locks held so far. -/
structure LockThread (L : Type*) where
  todo : List (LockOp L)
  held : List (L × LockMode)
  deriving DecidableEq

section

variable {L : Type*} [DecidableEq L]

/-- The lock can be granted: nobody holds it, or everybody shares it. -/
def Free (s : List (LockThread L)) (l : L) (m : LockMode) : Prop :=
  ∀ t ∈ s, ∀ h ∈ t.held, h.1 = l → h.2 = .shared ∧ m = .shared

instance (s : List (LockThread L)) (l : L) (m : LockMode) : Decidable (Free s l m) :=
  inferInstanceAs (Decidable (∀ t ∈ s, ∀ h ∈ t.held, h.1 = l → h.2 = .shared ∧ m = .shared))

/-- The thread's next operation is to take a lock that cannot be granted. -/
def WaitsFor (s : List (LockThread L)) (t : LockThread L) (l : L) (m : LockMode) : Prop :=
  t.todo.head? = some (.acquire l m) ∧ ¬ Free s l m

instance (s : List (LockThread L)) (t : LockThread L) (l : L) (m : LockMode) :
    Decidable (WaitsFor s t l m) :=
  inferInstanceAs (Decidable (t.todo.head? = some (.acquire l m) ∧ ¬ Free s l m))

/-- The threads of some programs; an event is the thread that makes its next operation. -/
def lockMachine (programs : List (List (LockOp L))) : Machine (List (LockThread L)) ℕ where
  init := programs.map (⟨·, []⟩)
  step s i :=
    match s[i]? with
    | some ⟨.acquire l m :: todo, held⟩ =>
      if Free s l m then some (s.set i ⟨todo, (l, m) :: held⟩) else none
    | some ⟨.release l :: todo, held⟩ => some (s.set i ⟨todo, held.filter (·.1 ≠ l)⟩)
    | _ => none

variable {programs : List (List (LockOp L))} {s s' : List (LockThread L)} {i j : ℕ}

/-- What one step does: the thread takes a lock that is free, or gives one back. -/
theorem lock_step_cases (h : (lockMachine programs).step s i = some s') :
    ∃ t t', s[i]? = some t ∧ s' = s.set i t' ∧
      ((∃ l m, t.todo = .acquire l m :: t'.todo ∧ t'.held = (l, m) :: t.held ∧ Free s l m) ∨
       (∃ l, t.todo = .release l :: t'.todo ∧ t'.held = t.held.filter (·.1 ≠ l))) := by
  simp only [lockMachine] at h
  split at h
  · rename_i l m todo held hi
    split at h
    · rename_i hfree
      exact ⟨_, ⟨todo, (l, m) :: held⟩, hi, (Option.some.inj h).symm, .inl ⟨l, m, rfl, rfl, hfree⟩⟩
    · cases h
  · rename_i l todo held hi
    exact ⟨_, ⟨todo, held.filter (·.1 ≠ l)⟩, hi, (Option.some.inj h).symm, .inr ⟨l, rfl, rfl⟩⟩
  · cases h

omit [DecidableEq L] in
/-- The thread that moved, and the others. -/
theorem getElem?_lock_step {t t' : LockThread L} (hi : s[i]? = some t) (j : ℕ) :
    (s.set i t')[j]? = if i = j then some t' else s[j]? := by
  rw [List.getElem?_set]
  obtain ⟨hlt, -⟩ := List.getElem?_eq_some_iff.mp hi
  rcases eq_or_ne i j with rfl | hne
  · simp [hlt]
  · simp [hne]

/-! ### A lock held exclusively has one holder -/

/-- Nobody else holds a lock that one thread holds exclusively. -/
def Exclusive (s : List (LockThread L)) : Prop :=
  ∀ (i j : ℕ) (t u : LockThread L) (l : L) (m : LockMode), i ≠ j → s[i]? = some t →
    s[j]? = some u → (l, .exclusive) ∈ t.held → (l, m) ∉ u.held

theorem exclusive_init : Exclusive (lockMachine programs).init := by
  intro i j t u l m _ hi
  obtain ⟨p, -, rfl⟩ : ∃ p, programs[i]? = some p ∧ ⟨p, []⟩ = t := by
    simpa [lockMachine] using hi
  intro _ hl
  cases hl

theorem exclusive_step (h : Exclusive s) (hs : (lockMachine programs).step s i = some s') :
    Exclusive s' := by
  obtain ⟨t, t', hi, rfl, hcases⟩ := lock_step_cases hs
  intro a b u v l m hab ha hb hu hv
  rw [getElem?_lock_step hi] at ha hb
  -- what the thread that moved holds now, it held before or has just been granted
  have hheld : ∀ x, x ∈ t'.held → x ∈ t.held ∨ Free s x.1 x.2 := by
    intro x hx
    rcases hcases with ⟨l', m', -, hheld, hfree⟩ | ⟨l', -, hheld⟩
    · rw [hheld] at hx
      rcases List.mem_cons.mp hx with rfl | hx
      · exact .inr hfree
      · exact .inl hx
    · rw [hheld] at hx
      exact .inl (List.mem_filter.mp hx).1
  split at ha
  · rename_i hia
    split at hb
    · exact hab (by omega)
    · cases ha
      rcases hheld _ hu with hold | hfree
      · exact h i b t v l m (by omega) hi hb hold hv
      · exact absurd (hfree v (List.mem_of_getElem? hb) _ hv rfl).2 (by simp)
  · split at hb
    · cases hb
      rcases hheld _ hv with hold | hfree
      · exact h a i u t l m (by omega) ha hi hu hold
      · exact absurd (hfree u (List.mem_of_getElem? ha) _ hu rfl).1 (by simp)
    · exact h a b u v l m hab ha hb hu hv

/-! ### A circle of two threads never opens -/

/-- Thread `i` is about to take the lock `l`, which thread `j` holds in a mode that forbids it. -/
def Blocks (s : List (LockThread L)) (j i : ℕ) : Prop :=
  ∃ t u l m m', s[i]? = some t ∧ s[j]? = some u ∧ t.todo.head? = some (.acquire l m) ∧
    (l, m') ∈ u.held ∧ ¬ (m' = .shared ∧ m = .shared)

theorem not_step_of_blocks (h : Blocks s j i) : (lockMachine programs).step s i = none := by
  obtain ⟨t, u, l, m, m', hi, hj, hnext, hheld, hconf⟩ := h
  obtain ⟨todo, held⟩ := t
  cases todo with
  | nil => cases hnext
  | cons op todo =>
    obtain rfl : op = .acquire l m := by simpa using hnext
    have hfree : ¬ Free s l m := fun hf => hconf (hf u (List.mem_of_getElem? hj) _ hheld rfl)
    simp only [lockMachine, hi, if_neg hfree]

/-- DEADLOCK: two threads that block each other do so after every run. -/
theorem deadlock_run {es : List ℕ} (hij : Blocks s i j) (hji : Blocks s j i)
    (h : (lockMachine programs).run s es = some s') : s'[i]? = s[i]? ∧ s'[j]? = s[j]? := by
  refine (lockMachine programs).run_inv (I := fun m => m[i]? = s[i]? ∧ m[j]? = s[j]?) ?_ ⟨rfl, rfl⟩ h
  rintro m k m' ⟨hi, hj⟩ hstep
  have hkeep : ∀ {a b : ℕ}, Blocks s a b → m[a]? = s[a]? → m[b]? = s[b]? → k ≠ b := by
    rintro a b ⟨t, u, l, n, n', hb, ha, hrest⟩ hma hmb rfl
    have hblocks : Blocks m a k := ⟨t, u, l, n, n', hmb.trans hb, hma.trans ha, hrest⟩
    rw [not_step_of_blocks hblocks] at hstep
    cases hstep
  obtain ⟨t, t', hk, rfl, -⟩ := lock_step_cases hstep
  rw [getElem?_lock_step hk, getElem?_lock_step hk, if_neg (hkeep hji hj hi),
    if_neg (hkeep hij hi hj)]
  exact ⟨hi, hj⟩

end

end Distribd.Schemes
