import Mathlib.Data.List.Basic

/-! A file that several writers append to, with the writer of each element. Where every writer has
    written one piece without a break, the file is `stamp` of the pieces, and the piece of a writer
    that comes once lies where the pieces before it end (`stamp_fst_iff`, `stamp_slice`). -/

namespace Distribd.Schemes

variable {ι α : Type*}

/-- The pieces one after the other, each element with the writer of its piece. -/
def stamp (pieces : List (ι × List α)) : List (ι × α) :=
  pieces.flatMap fun piece => piece.2.map (Prod.mk piece.1)

@[simp] theorem stamp_nil : stamp ([] : List (ι × List α)) = [] := rfl

@[simp] theorem stamp_append (pre post : List (ι × List α)) :
    stamp (pre ++ post) = stamp pre ++ stamp post := List.flatMap_append

@[simp] theorem stamp_cons (n : ι) (w : List α) (post : List (ι × List α)) :
    stamp ((n, w) :: post) = w.map (Prod.mk n) ++ stamp post := rfl

theorem fst_mem_of_mem_stamp {pieces : List (ι × List α)} {x : ι × α} (h : x ∈ stamp pieces) :
    x.1 ∈ pieces.map Prod.fst := by
  obtain ⟨piece, hpiece, hx⟩ := List.mem_flatMap.mp h
  obtain ⟨a, -, rfl⟩ := List.mem_map.mp hx
  exact List.mem_map_of_mem hpiece

/-- A writer with one piece has written exactly the positions from the end of the pieces before it
    on, as many as the piece is long. -/
theorem stamp_fst_iff {pre post : List (ι × List α)} {n : ι} {w : List α}
    (hpre : n ∉ pre.map Prod.fst) (hpost : n ∉ post.map Prod.fst) (i : ℕ) :
    ((stamp (pre ++ (n, w) :: post))[i]?).map Prod.fst = some n ↔
      (stamp pre).length ≤ i ∧ i < (stamp pre).length + w.length := by
  have hother : ∀ {pieces : List (ι × List α)} {j : ℕ}, n ∉ pieces.map Prod.fst →
      ((stamp pieces)[j]?).map Prod.fst ≠ some n := by
    intro pieces j hnot h
    obtain ⟨x, hx, rfl⟩ := Option.map_eq_some_iff.mp h
    exact hnot (fst_mem_of_mem_stamp (List.mem_of_getElem? hx))
  rw [stamp_append, stamp_cons]
  rcases Nat.lt_or_ge i (stamp pre).length with hi | hi
  · rw [List.getElem?_append_left hi]
    exact iff_of_false (hother hpre) (by omega)
  · rw [List.getElem?_append_right hi]
    rcases Nat.lt_or_ge (i - (stamp pre).length) w.length with hin | hout
    · rw [List.getElem?_append_left (by simpa using hin), List.getElem?_map,
        List.getElem?_eq_getElem hin]
      exact iff_of_true rfl (by omega)
    · rw [List.getElem?_append_right (by simpa using hout)]
      exact iff_of_false (hother hpost) (by omega)

/-- And there it stands. -/
theorem stamp_slice (pre post : List (ι × List α)) (n : ι) (w : List α) :
    ((stamp (pre ++ (n, w) :: post)).drop (stamp pre).length).take w.length =
      w.map (Prod.mk n) := by
  rw [stamp_append, stamp_cons, List.drop_left]
  exact List.take_left' (by simp)

end Distribd.Schemes
