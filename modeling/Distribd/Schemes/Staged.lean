import Mathlib.Logic.Basic
import Mathlib.Order.Basic
import Mathlib.Logic.Function.Basic

/-! Overwriting a state part by part. A state of several parts is replaced in stages, one part at a
    time in a fixed order, and may be looked at between two stages. Every such look shows the old or
    the new state, and no mixture, exactly when the two differ in one part at most
    (`atomic_iff`). -/

namespace Distribd.Schemes

variable {ι : Type*} {V : ι → Type*}

/-- The state after `k` stages: the parts of rank below `k` are new. -/
def staged (rank : ι → ℕ) (old new : ∀ i, V i) (k : ℕ) (i : ι) : V i :=
  if rank i < k then new i else old i

variable {rank : ι → ℕ} {old new : ∀ i, V i}

theorem staged_eq_old {k : ℕ} (h : ∀ i, rank i < k → old i = new i) :
    staged rank old new k = old := by
  funext i
  unfold staged
  split
  case isTrue hi => exact (h i hi).symm
  case isFalse => rfl

theorem staged_eq_new {k : ℕ} (h : ∀ i, k ≤ rank i → old i = new i) :
    staged rank old new k = new := by
  funext i
  unfold staged
  split
  case isTrue => rfl
  case isFalse hi => exact h i (Nat.le_of_not_lt hi)

/-- Two parts that differ show up as a mixture between their two stages. -/
theorem staged_mixed {i j : ι} (hi : old i ≠ new i) (hj : old j ≠ new j) (hij : rank i < rank j) :
    staged rank old new (rank i + 1) ≠ old ∧ staged rank old new (rank i + 1) ≠ new := by
  refine ⟨?_, ?_⟩
  · intro h
    have hat := congrFun h i
    rw [staged, if_pos (Nat.lt_succ_self _)] at hat
    exact hi hat.symm
  · intro h
    have hat := congrFun h j
    rw [staged, if_neg (by omega)] at hat
    exact hj hat

/-- ALL OR NOTHING, exactly when at most one part changes. -/
theorem atomic_iff (old new : ∀ i, V i) (hrank : Function.Injective rank) :
    (∀ k, staged rank old new k = old ∨ staged rank old new k = new) ↔
      ∀ i j, old i ≠ new i → old j ≠ new j → i = j := by
  constructor
  · intro hall i j hi hj
    by_contra hne
    rcases Nat.lt_or_gt_of_ne (fun h => hne (hrank h)) with hlt | hgt
    · obtain ⟨hold, hnew⟩ := staged_mixed hi hj hlt
      exact (hall _).elim hold hnew
    · obtain ⟨hold, hnew⟩ := staged_mixed hj hi hgt
      exact (hall _).elim hold hnew
  · intro hone k
    by_cases hk : ∃ i, rank i < k ∧ old i ≠ new i
    · -- the one part that changes has been written, so nothing is left to do
      obtain ⟨i, hik, hi⟩ := hk
      refine .inr (staged_eq_new ?_)
      intro j hj
      by_contra hne
      obtain rfl := hone i j hi hne
      omega
    · refine .inl (staged_eq_old ?_)
      intro i hi
      by_contra hne
      exact hk ⟨i, hi, hne⟩

end Distribd.Schemes
