import Mathlib.Logic.Function.Basic
import Mathlib.Data.List.Basic

/-! Files, names and handles. A name leads to an inode, an inode holds bytes. Opening for append
    gives the inode, and creates it when the name has none; writing through a handle appends to the
    inode, whatever name it has by then; renaming moves a name over another one and leaves the bytes
    alone. No two names lead to one inode, which the structure carries as a field, so that a write
    through a handle is seen under at most one name. -/

namespace Distribd.Schemes

/-- Names `P` and bytes `B`. -/
structure FileSystem (P B : Type*) where
  link : P → Option ℕ
  data : ℕ → List B
  next : ℕ
  link_lt : ∀ p i, link p = some i → i < next
  link_inj : ∀ p q i, link p = some i → link q = some i → p = q

namespace FileSystem

variable {P B : Type*}

/-- No files. -/
def empty : FileSystem P B where
  link _ := none
  data _ := []
  next := 0
  link_lt _ _ h := by cases h
  link_inj _ _ _ h := by cases h

/-- Write a chunk through a handle. -/
def append (fs : FileSystem P B) (i : ℕ) (chunk : List B) : FileSystem P B :=
  { fs with data := Function.update fs.data i (fs.data i ++ chunk) }

/-- The bytes under a name. -/
def read (fs : FileSystem P B) (p : P) : Option (List B) := (fs.link p).map fs.data

theorem append_data_of_ne (fs : FileSystem P B) {i j : ℕ} (h : j ≠ i) (chunk : List B) :
    (fs.append i chunk).data j = fs.data j := Function.update_of_ne h _ _

variable [DecidableEq P]

/-- Let the name `p` lead to an inode that no other name leads to. -/
def bind (fs : FileSystem P B) (p : P) (i : ℕ) (hlt : i < fs.next)
    (hfree : ∀ q, q ≠ p → fs.link q ≠ some i) : FileSystem P B where
  link := Function.update fs.link p (some i)
  data := fs.data
  next := fs.next
  link_lt q j hq := by
    by_cases hqp : q = p
    · subst hqp
      rw [Function.update_self] at hq
      exact Option.some.inj hq ▸ hlt
    · rw [Function.update_of_ne hqp] at hq
      exact fs.link_lt q j hq
  link_inj q r j hq hr := by
    by_cases hqp : q = p <;> by_cases hrp : r = p
    · rw [hqp, hrp]
    · rw [hqp, Function.update_self] at hq
      rw [Function.update_of_ne hrp, ← hq] at hr
      exact absurd hr (hfree r hrp)
    · rw [hrp, Function.update_self] at hr
      rw [Function.update_of_ne hqp, ← hr] at hq
      exact absurd hq (hfree q hqp)
    · rw [Function.update_of_ne hqp] at hq
      rw [Function.update_of_ne hrp] at hr
      exact fs.link_inj q r j hq hr

/-- A new, empty inode without a name. -/
def alloc (fs : FileSystem P B) : FileSystem P B :=
  { fs with
    data := Function.update fs.data fs.next []
    next := fs.next + 1
    link_lt := fun p i h => Nat.lt_succ_of_lt (fs.link_lt p i h) }

/-- Open for append, with `create(true)`: the handle and the new state. -/
def openAppend (fs : FileSystem P B) (p : P) : ℕ × FileSystem P B :=
  match fs.link p with
  | some i => (i, fs)
  | none => (fs.next, fs.alloc.bind p fs.next (Nat.lt_succ_self _) fun q _ h =>
      Nat.lt_irrefl _ (fs.link_lt q _ h))

/-- Remove a name. -/
def unlink (fs : FileSystem P B) (p : P) : FileSystem P B where
  link := Function.update fs.link p none
  data := fs.data
  next := fs.next
  link_lt q i hq := by
    by_cases hqp : q = p
    · subst hqp; simp at hq
    · rw [Function.update_of_ne hqp] at hq
      exact fs.link_lt q i hq
  link_inj q r i hq hr := by
    by_cases hqp : q = p
    · subst hqp; simp at hq
    · by_cases hrp : r = p
      · subst hrp; simp at hr
      · rw [Function.update_of_ne hqp] at hq
        rw [Function.update_of_ne hrp] at hr
        exact fs.link_inj q r i hq hr

theorem unlink_free (fs : FileSystem P B) {p : P} {i : ℕ} (h : fs.link p = some i) (q : P) :
    (fs.unlink p).link q ≠ some i := by
  by_cases hqp : q = p
  · subst hqp; simp [unlink]
  · intro hq
    have hq' : fs.link q = some i := by simpa [unlink, hqp] using hq
    exact hqp (fs.link_inj q p i hq' h)

/-- Move the name `p` over the name `q`; `none`: there is no `p`. -/
def rename (fs : FileSystem P B) (p q : P) : Option (FileSystem P B) :=
  match h : fs.link p with
  | some i => some ((fs.unlink p).bind q i (fs.link_lt p i h) fun r _ => fs.unlink_free h r)
  | none => none

/-! ### What the operations do -/

/-- Everything opening for append does. -/
theorem openAppend_cases (fs : FileSystem P B) (p : P) :
    (fs.link p = some (fs.openAppend p).1 ∧ (fs.openAppend p).2 = fs) ∨
    (fs.link p = none ∧ (fs.openAppend p).1 = fs.next ∧
      (fs.openAppend p).2.link = Function.update fs.link p (some fs.next) ∧
      (fs.openAppend p).2.data = Function.update fs.data fs.next [] ∧
      (fs.openAppend p).2.next = fs.next + 1) := by
  unfold openAppend
  split
  case h_1 i hi => exact .inl ⟨hi, rfl⟩
  case h_2 hnone => exact .inr ⟨hnone, rfl, rfl, rfl, rfl⟩

/-- Everything a rename does. -/
theorem rename_cases {fs fs' : FileSystem P B} {p q : P} (h : fs.rename p q = some fs') :
    ∃ i, fs.link p = some i ∧
      fs'.link = Function.update (Function.update fs.link p none) q (some i) ∧
      fs'.data = fs.data ∧ fs'.next = fs.next := by
  unfold rename at h
  split at h
  case h_1 i hi =>
    obtain rfl := Option.some.inj h
    exact ⟨i, hi, rfl, rfl, rfl⟩
  case h_2 => cases h

/-- A rename gives no name but its target a new inode. -/
theorem rename_link_of_ne {fs fs' : FileSystem P B} {p q r : P} {i : ℕ}
    (h : fs.rename p q = some fs') (hr : r ≠ q) (hl : fs'.link r = some i) :
    fs.link r = some i := by
  obtain ⟨j, -, hlink, -⟩ := rename_cases h
  rw [hlink, Function.update_of_ne hr] at hl
  by_cases hrp : r = p
  · rw [hrp, Function.update_self] at hl
    cases hl
  · rwa [Function.update_of_ne hrp] at hl

end FileSystem

end Distribd.Schemes
