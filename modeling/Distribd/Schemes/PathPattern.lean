import Mathlib.Data.List.Infix

/-! Texts in parts. Where the last separator is, and what stands between separators, can be told from
    a text (`eq_of_last`, `intercalate_inj`).

    Patterns of paths: text, and parts that are read. To write a pattern is to fill its parts in. A
    text may be read in more than one way; then the first part takes as much as it can, and so on
    with the next ones.

    What is read, when it is written again, is the text (`write_of_read`), and everything that can
    be written can be read (`read_isSome`), though it may come out in other parts; what comes out is
    the longest reading (`read_longest`), so a reading that is the longest one is what comes out
    (`read_write`). -/

namespace Distribd.Schemes

/-! ### Separators -/

section Separators

variable {α : Type*} {c : α}

/-- A separator is not behind the last one. -/
theorem length_le_of_last {a b x y : List α} (h : a ++ c :: x = b ++ c :: y) (hy : c ∉ y) :
    a.length ≤ b.length := by
  rcases List.append_eq_append_iff.mp h with ⟨e, rfl, -⟩ | ⟨e, rfl, he⟩
  · simp
  · cases e with
    | nil => simp
    | cons e es =>
      obtain ⟨rfl, rfl⟩ := List.cons.inj he
      simp at hy

theorem eq_of_last {a b x y : List α} (h : a ++ c :: x = b ++ c :: y) (hx : c ∉ x) (hy : c ∉ y) :
    a = b ∧ x = y := by
  have hle := length_le_of_last h hy
  have hge := length_le_of_last h.symm hx
  obtain ⟨rfl, heq⟩ := List.append_inj h (le_antisymm hle hge)
  exact ⟨rfl, (List.cons.inj heq).2⟩

/-- What has been joined with a separator. -/
theorem intercalate_inj [DecidableEq α] {l l' : List (List α)} (hne : l ≠ []) (hne' : l' ≠ [])
    (hl : ∀ x ∈ l, c ∉ x) (hl' : ∀ x ∈ l', c ∉ x) (h : [c].intercalate l = [c].intercalate l') :
    l = l' := by
  rw [← List.splitOn_intercalate c hl hne, h, List.splitOn_intercalate c hl' hne']

end Separators

/-! ### Patterns -/

/-- What a part may be: a text, and characters of one kind after it; `empty`: or none. -/
structure PartKind where
  start : List Char
  ok : Char → Bool
  empty : Bool

/-- The characters are such a part. -/
def PartKind.admits (k : PartKind) (cs : List Char) : Bool :=
  k.start.isPrefixOf cs && (cs.drop k.start.length).all k.ok &&
    (k.empty || decide (k.start.length < cs.length))

/-- Anything may come after the text. -/
theorem PartKind.admits_any (start cs : List Char) :
    (PartKind.mk start (fun _ => true) true).admits cs = true ↔ start <+: cs := by
  simp [PartKind.admits]

/-- A piece of a pattern. -/
inductive Piece where
  | text (cs : List Char)
  | part (kind : PartKind)

/-- A pattern. -/
abbrev PathPattern := List Piece

namespace PathPattern

/-- The parts are filled in. -/
def write : PathPattern → List (List Char) → List Char
  | [], _ => []
  | .text cs :: p, parts => cs ++ write p parts
  | .part _ :: p, part :: parts => part ++ write p parts
  | .part _ :: p, [] => write p []

/-- The parts are those of the pattern. -/
def Admits : PathPattern → List (List Char) → Prop
  | [], parts => parts = []
  | .text _ :: p, parts => Admits p parts
  | .part k :: p, part :: parts => k.admits part = true ∧ Admits p parts
  | .part _ :: _, [] => False

/-- The parts of a text, the first one as long as can be; `none`: there is no way to read it. -/
def read : PathPattern → List Char → Option (List (List Char))
  | [], input => if input = [] then some [] else none
  | .text cs :: p, input => if cs.isPrefixOf input then read p (input.drop cs.length) else none
  | .part k :: p, input =>
    (List.range (input.length + 1)).reverse.findSome? fun n =>
      if k.admits (input.take n) then (read p (input.drop n)).map (input.take n :: ·) else none

/-- What is read is admitted, and written again it is the text. -/
theorem write_of_read {p : PathPattern} {input : List Char} {parts : List (List Char)}
    (h : p.read input = some parts) : p.Admits parts ∧ p.write parts = input := by
  induction p generalizing input parts with
  | nil =>
    simp only [read] at h
    split at h
    · rename_i hnil
      cases h
      exact ⟨rfl, hnil.symm⟩
    · cases h
  | cons piece p ih =>
    cases piece with
    | text cs =>
      simp only [read] at h
      split at h
      · rename_i hstart
        obtain ⟨rest, rfl⟩ := List.isPrefixOf_iff_prefix.mp hstart
        rw [List.drop_left] at h
        obtain ⟨hadmits, hwrite⟩ := ih h
        exact ⟨hadmits, by rw [write, hwrite]⟩
      · cases h
    | part k =>
      obtain ⟨n, -, h⟩ := List.exists_of_findSome?_eq_some h
      split at h
      · rename_i hadmits
        obtain ⟨rest, hrest, rfl⟩ := Option.map_eq_some_iff.mp h
        obtain ⟨hrest, hwrite⟩ := ih hrest
        exact ⟨⟨hadmits, hrest⟩, by rw [write, hwrite, List.take_append_drop]⟩
      · cases h

/-- What can be written can be read. -/
theorem read_isSome {p : PathPattern} {parts : List (List Char)} (h : p.Admits parts) :
    (p.read (p.write parts)).isSome := by
  induction p generalizing parts with
  | nil => simp [read, write]
  | cons piece p ih =>
    cases piece with
    | text cs =>
      have hstart : cs.isPrefixOf (cs ++ write p parts) = true :=
        List.isPrefixOf_iff_prefix.mpr (List.prefix_append _ _)
      simp only [read, write, hstart, if_true, List.drop_left]
      exact ih h
    | part k =>
      cases parts with
      | nil => exact h.elim
      | cons part parts =>
        obtain ⟨hadmits, hrest⟩ := h
        obtain ⟨rest, hread⟩ := Option.isSome_iff_exists.mp (ih hrest)
        simp only [read, write, List.findSome?_isSome_iff, List.mem_reverse, List.mem_range]
        refine ⟨part.length, by rw [List.length_append]; omega, ?_⟩
        simp [hadmits, hread]

/-- The largest number comes first. -/
theorem findSome?_reverse_range {α : Type*} {f : ℕ → Option α} {N : ℕ} {a : α}
    (h : (List.range N).reverse.findSome? f = some a) :
    ∃ n < N, f n = some a ∧ ∀ m < N, (f m).isSome → m ≤ n := by
  induction N with
  | zero => cases h
  | succ N ih =>
    rw [List.range_succ, List.reverse_append, List.reverse_singleton, List.singleton_append,
      List.findSome?_cons] at h
    split at h
    · rename_i hN
      cases h
      exact ⟨N, N.lt_succ_self, hN, fun m hm _ => Nat.le_of_lt_succ hm⟩
    · rename_i hN
      obtain ⟨n, hlt, hn, hmax⟩ := ih h
      refine ⟨n, hlt.trans N.lt_succ_self, hn, fun m hm hsome => ?_⟩
      rcases Nat.lt_succ_iff_lt_or_eq.mp hm with hlt | rfl
      · exact hmax m hlt hsome
      · rw [hN] at hsome
        cases hsome

/-- The first part is shorter, or as long and the same holds of the second, and so on. -/
def NoLonger : List (List Char) → List (List Char) → Prop
  | [], _ => True
  | _ :: _, [] => False
  | x :: xs, y :: ys => x.length < y.length ∨ x.length = y.length ∧ NoLonger xs ys

theorem noLonger_refl : ∀ xs : List (List Char), NoLonger xs xs
  | [] => trivial
  | _ :: xs => .inr ⟨rfl, noLonger_refl xs⟩

theorem noLonger_antisymm : ∀ {xs ys : List (List Char)}, NoLonger xs ys → NoLonger ys xs →
    xs.map List.length = ys.map List.length
  | [], [], _, _ => rfl
  | [], _ :: _, _, h => h.elim
  | _ :: _, [], h, _ => h.elim
  | x :: xs, y :: ys, h, h' => by
    rcases h with h | ⟨h, hs⟩
    · rcases h' with h' | ⟨h', -⟩ <;> omega
    · rcases h' with h' | ⟨-, hs'⟩
      · omega
      · rw [List.map_cons, List.map_cons, h, noLonger_antisymm hs hs']

/-- No other reading has a longer first part, or the same one and a longer second one, and so on. -/
theorem read_longest {p : PathPattern} {parts parts' : List (List Char)}
    (h : p.read (p.write parts') = some parts) (hadmits : p.Admits parts') :
    NoLonger parts' parts := by
  induction p generalizing parts parts' with
  | nil =>
    obtain rfl : parts' = [] := hadmits
    trivial
  | cons piece p ih =>
    cases piece with
    | text cs =>
      have hstart : cs.isPrefixOf (cs ++ write p parts') = true :=
        List.isPrefixOf_iff_prefix.mpr (List.prefix_append _ _)
      simp only [read, write, hstart, if_true, List.drop_left] at h
      exact ih h hadmits
    | part k =>
      cases parts' with
      | nil => exact hadmits.elim
      | cons part' rest' =>
        obtain ⟨hpart', hrest'⟩ := hadmits
        obtain ⟨n, hlt, hn, hmax⟩ := findSome?_reverse_range h
        split at hn
        · obtain ⟨rest, hrest, rfl⟩ := Option.map_eq_some_iff.mp hn
          have hle : part'.length ≤ n := by
            refine hmax part'.length (by rw [write, List.length_append]; omega) ?_
            obtain ⟨other, hother⟩ := Option.isSome_iff_exists.mp (read_isSome hrest')
            simp [write, hpart', hother]
          have hlength : ((write (.part k :: p) (part' :: rest')).take n).length = n := by
            rw [List.length_take]
            omega
          rcases hle.lt_or_eq with hlt | rfl
          · exact .inl (hlt.trans_eq hlength.symm)
          · rw [write, List.drop_left] at hrest
            exact .inr ⟨hlength.symm, ih hrest hrest'⟩
        · cases hn

/-- Readings with parts of the same lengths are the same. -/
theorem eq_of_lengths {p : PathPattern} {parts parts' : List (List Char)} (h : p.Admits parts)
    (h' : p.Admits parts') (hwrite : p.write parts = p.write parts')
    (hlengths : parts.map List.length = parts'.map List.length) : parts = parts' := by
  induction p generalizing parts parts' with
  | nil =>
    obtain rfl : parts = [] := h
    obtain rfl : parts' = [] := h'
    rfl
  | cons piece p ih =>
    cases piece with
    | text cs => exact ih h h' (List.append_cancel_left hwrite) hlengths
    | part k =>
      cases parts with
      | nil => exact h.elim
      | cons part rest =>
        cases parts' with
        | nil => exact h'.elim
        | cons part' rest' =>
          rw [List.map_cons, List.map_cons, List.cons.injEq] at hlengths
          obtain ⟨rfl, hrest⟩ := List.append_inj hwrite hlengths.1
          rw [ih h.2 h'.2 hrest hlengths.2]

/-- READ BACK: the longest reading is what is read. -/
theorem read_write {p : PathPattern} {parts : List (List Char)} (h : p.Admits parts)
    (hlongest : ∀ parts', p.Admits parts' → p.write parts' = p.write parts →
      NoLonger parts' parts) :
    p.read (p.write parts) = some parts := by
  obtain ⟨parts', hread⟩ := Option.isSome_iff_exists.mp (read_isSome h)
  obtain ⟨hadmits, hwrite⟩ := write_of_read hread
  have hle := hlongest parts' hadmits hwrite
  have hge := read_longest hread h
  rw [hread, eq_of_lengths hadmits h hwrite (noLonger_antisymm hle hge)]

end PathPattern

end Distribd.Schemes
