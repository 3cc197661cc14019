import Mathlib.Data.List.Lex
import Mathlib.Data.List.Sort
import Mathlib.Order.Compare
import Mathlib.Tactic.Linarith

/-! Byte keys of an ordered store. A `bincode` string (varint lengths, big-endian integers) is its
    length followed by its bytes, so no encoding of a string continues into another one
    (`encodeString_append_inj`): keys that start with the same string form one block of the byte
    order (`prefix_of_between`). A scan that starts inside the order and stops at the first row
    which fails a test therefore finds all rows that pass it (`scan_eq`).

    A byte is a number here. The first digit of `bigEndian` is not cut to eight bits: the lengths
    that are encoded fit their width, and so the code needs no bound. -/

namespace Distribd.Schemes

/-! ### Strings -/

/-- A number in `w` digits to the base 256, the most significant first. -/
def bigEndian : ℕ → ℕ → List ℕ
  | 0, _ => []
  | w + 1, n => n / 256 ^ w :: bigEndian w (n % 256 ^ w)

/-- A length: one byte up to 250, else a marker and two, four or eight bytes. -/
def varint (n : ℕ) : List ℕ :=
  if n < 251 then [n]
  else if n < 2 ^ 16 then 251 :: bigEndian 2 n
  else if n < 2 ^ 32 then 252 :: bigEndian 4 n
  else 253 :: bigEndian 8 n

/-- The UTF-8 bytes of a string. -/
def utf8Bytes (s : String) : List ℕ := s.toByteArray.data.toList.map UInt8.toNat

/-- A string: its length in bytes, then its bytes. -/
def encodeString (s : String) : List ℕ := varint (utf8Bytes s).length ++ utf8Bytes s

theorem bigEndian_length : ∀ w n, (bigEndian w n).length = w
  | 0, _ => rfl
  | w + 1, n => by rw [bigEndian, List.length_cons, bigEndian_length w]

theorem bigEndian_inj : ∀ {w m n : ℕ}, bigEndian (w + 1) m = bigEndian (w + 1) n → m = n
  | 0, m, n, h => by simpa [bigEndian] using h
  | w + 1, m, n, h => by
    obtain ⟨hdiv, hmod⟩ := List.cons_eq_cons.mp h
    rw [← Nat.div_add_mod m (256 ^ (w + 1)), ← Nat.div_add_mod n (256 ^ (w + 1)), hdiv,
      bigEndian_inj hmod]

/-- A block of digits can be read off the front. -/
theorem bigEndian_append_inj {w m n : ℕ} {x y : List ℕ}
    (h : bigEndian (w + 1) m ++ x = bigEndian (w + 1) n ++ y) : m = n ∧ x = y := by
  obtain ⟨hdigits, hrest⟩ := List.append_inj h (by rw [bigEndian_length, bigEndian_length])
  exact ⟨bigEndian_inj hdigits, hrest⟩

/-- The byte order of numbers of one width is the order of the numbers. -/
theorem compare_bigEndian : ∀ (w m n : ℕ),
    compare (bigEndian (w + 1) m) (bigEndian (w + 1) n) = compare m n
  | 0, m, n => by simp [bigEndian, List.compare_cons_cons]
  | w + 1, m, n => by
    have hdigit : ∀ i, bigEndian (w + 1 + 1) i =
        i / 256 ^ (w + 1) :: bigEndian (w + 1) (i % 256 ^ (w + 1)) := fun _ => rfl
    rw [hdigit, hdigit, List.compare_cons_cons, compare_bigEndian w]
    have hm := Nat.div_add_mod m (256 ^ (w + 1))
    have hn := Nat.div_add_mod n (256 ^ (w + 1))
    -- the first digit decides, or the rest does
    rcases lt_trichotomy (m / 256 ^ (w + 1)) (n / 256 ^ (w + 1)) with hlt | heq | hgt
    · have hmn : m < n := Nat.lt_of_div_lt_div hlt
      rw [compare_lt_iff_lt.mpr hlt, compare_lt_iff_lt.mpr hmn]
      rfl
    · rw [heq] at hm
      rw [heq, compare_eq_iff_eq.mpr rfl, Ordering.eq_then]
      rcases lt_trichotomy (m % 256 ^ (w + 1)) (n % 256 ^ (w + 1)) with hlt | hmod | hgt
      · rw [compare_lt_iff_lt.mpr hlt, compare_lt_iff_lt.mpr (by omega)]
      · rw [compare_eq_iff_eq.mpr hmod, compare_eq_iff_eq.mpr (by omega)]
      · rw [compare_gt_iff_gt.mpr hgt, compare_gt_iff_gt.mpr (by omega)]
    · have hmn : m > n := Nat.lt_of_div_lt_div hgt
      rw [compare_gt_iff_gt.mpr hgt, compare_gt_iff_gt.mpr hmn]
      rfl

/-- The number is read back digit by digit. -/
theorem foldl_bigEndian : ∀ (w n acc : ℕ),
    (bigEndian (w + 1) n).foldl (fun acc b => acc * 256 + b) acc = acc * 256 ^ (w + 1) + n
  | 0, n, acc => by simp [bigEndian]
  | w + 1, n, acc => by
    have hdigit : bigEndian (w + 1 + 1) n =
        n / 256 ^ (w + 1) :: bigEndian (w + 1) (n % 256 ^ (w + 1)) := rfl
    rw [hdigit, List.foldl_cons, foldl_bigEndian w]
    have hn := Nat.div_add_mod n (256 ^ (w + 1))
    nlinarith [pow_succ 256 (w + 1)]

/-- A length can be read off the front: the first byte says how many follow. -/
theorem varint_append_inj {m n : ℕ} {x y : List ℕ} (h : varint m ++ x = varint n ++ y) :
    m = n ∧ x = y := by
  unfold varint at h
  split_ifs at h <;> simp only [List.cons_append, List.nil_append, List.cons.injEq] at h <;>
    first
    | exact h
    | exact bigEndian_append_inj h.2
    | omega

theorem utf8Bytes_inj {s t : String} (h : utf8Bytes s = utf8Bytes t) : s = t := by
  have hbytes : s.toByteArray.data.toList = t.toByteArray.data.toList :=
    List.map_injective_iff.mpr (fun a b hab => UInt8.toNat_inj.mp hab) h
  exact String.toByteArray_inj.mp (ByteArray.ext (Array.toList_inj.mp hbytes))

/-- A string can be read off the front. -/
theorem encodeString_append_inj {s t : String} {x y : List ℕ}
    (h : encodeString s ++ x = encodeString t ++ y) : s = t ∧ x = y := by
  simp only [encodeString, List.append_assoc] at h
  obtain ⟨hlen, hrest⟩ := varint_append_inj h
  obtain ⟨hbytes, hrest⟩ := List.append_inj hrest hlen
  exact ⟨utf8Bytes_inj hbytes, hrest⟩

/-! ### Reading strings -/

/-- The number in the first `w` digits. -/
def takeDigits (w : ℕ) (bytes : List ℕ) : Option (ℕ × List ℕ) :=
  if w ≤ bytes.length then
    some ((bytes.take w).foldl (fun acc b => acc * 256 + b) 0, bytes.drop w)
  else none

/-- The length at the front. -/
def takeVarint : List ℕ → Option (ℕ × List ℕ)
  | [] => none
  | b :: bytes =>
    if b < 251 then some (b, bytes)
    else if b = 251 then takeDigits 2 bytes
    else if b = 252 then takeDigits 4 bytes
    else if b = 253 then takeDigits 8 bytes
    else none

/-- The string that has these bytes, if they are UTF-8. -/
def ofUtf8Bytes (bytes : List ℕ) : Option String :=
  String.fromUTF8? ⟨(bytes.map UInt8.ofNat).toArray⟩

/-- The string at the front. -/
def takeString (bytes : List ℕ) : Option (String × List ℕ) :=
  (takeVarint bytes).bind fun (n, rest) =>
    if n ≤ rest.length then (ofUtf8Bytes (rest.take n)).map fun s => (s, rest.drop n) else none

theorem takeDigits_append (w n : ℕ) (rest : List ℕ) :
    takeDigits (w + 1) (bigEndian (w + 1) n ++ rest) = some (n, rest) := by
  have hlen := bigEndian_length (w + 1) n
  have hfold := foldl_bigEndian w n 0
  rw [takeDigits, if_pos (by simp [hlen]), List.take_left' hlen, List.drop_left' hlen, hfold]
  simp

theorem takeVarint_append (n : ℕ) (rest : List ℕ) :
    takeVarint (varint n ++ rest) = some (n, rest) := by
  unfold varint
  split_ifs with h₁ h₂ h₃
  · exact if_pos h₁
  · exact takeDigits_append 1 n rest
  · exact takeDigits_append 3 n rest
  · exact takeDigits_append 7 n rest

theorem ofUtf8Bytes_utf8Bytes (s : String) : ofUtf8Bytes (utf8Bytes s) = some s := by
  have hbytes : (utf8Bytes s).map UInt8.ofNat = s.toByteArray.data.toList := by
    simp [utf8Bytes, Function.comp_def]
  have harray : (⟨((utf8Bytes s).map UInt8.ofNat).toArray⟩ : ByteArray) = s.toByteArray := by
    rw [hbytes]
  rw [ofUtf8Bytes, harray, String.fromUTF8?, dif_pos s.isValidUTF8]
  rfl

/-- What has been written is read, and the rest is left. -/
theorem takeString_append (s : String) (rest : List ℕ) :
    takeString (encodeString s ++ rest) = some (s, rest) := by
  rw [takeString, encodeString, List.append_assoc, takeVarint_append, Option.bind_some]
  simp [ofUtf8Bytes_utf8Bytes]

/-! ### The byte order -/

/-- The empty string comes first. -/
theorem encodeString_empty_le (s : String) : encodeString "" ≤ encodeString s := by
  have hempty : encodeString "" = [0] := rfl
  obtain ⟨n, bytes, hcons⟩ : ∃ n bytes, encodeString s = n :: bytes := by
    unfold encodeString varint
    split_ifs <;> exact ⟨_, _, rfl⟩
  rw [hempty, hcons, ← not_lt, List.cons_lt_cons_iff]
  rintro (hlt | ⟨-, hlt⟩)
  · omega
  · exact List.not_lt_nil _ hlt

/-- The order of the keys of a tree is that of the lists. -/
theorem compare_eq_lt_iff : ∀ {a b : List ℕ}, compare a b = .lt ↔ a < b
  | [], [] => by simp
  | [], _ :: _ => by simp
  | _ :: _, [] => by simp
  | x :: a, y :: b => by
    rw [List.compare_cons_cons, List.cons_lt_cons_iff, ← compare_eq_lt_iff]
    rcases lt_trichotomy x y with hlt | rfl | hgt
    · simp [compare_lt_iff_lt.mpr hlt, hlt]
    · simp
    · simp [compare_gt_iff_gt.mpr hgt, hgt.ne', not_lt_of_gt hgt]

theorem isLE_compare_iff {a b : List ℕ} : (compare a b).isLE ↔ a ≤ b := by
  rw [← not_lt, ← compare_eq_lt_iff, ← Std.OrientedCmp.gt_iff_lt, Ordering.ne_gt_iff_isLE]

/-! ### Blocks and scans -/

/-- What lies between two lists with a common beginning has that beginning. -/
theorem prefix_of_between {α : Type*} [LinearOrder α] {p a b x : List α} (h₁ : p ++ a ≤ x)
    (h₂ : x ≤ p ++ b) : p <+: x := by
  induction p generalizing x with
  | nil => exact List.nil_prefix
  | cons c p ih =>
    cases x with
    | nil => exact absurd (List.nil_lt_cons c (p ++ a)) (not_lt.mpr h₁)
    | cons e x =>
      have h₁ := not_lt.mpr h₁
      have h₂ := not_lt.mpr h₂
      rw [List.cons_append, List.cons_lt_cons_iff, not_or, not_lt] at h₁ h₂
      obtain rfl : c = e := le_antisymm h₁.1 h₂.1
      refine (List.prefix_cons_inj c).mpr (ih (not_lt.mp ?_) (not_lt.mp ?_))
      · exact fun hlt => h₁.2 ⟨rfl, hlt⟩
      · exact fun hlt => h₂.2 ⟨rfl, hlt⟩

section Scan

variable {α β : Type*} [LinearOrder β] (key : α → β) (start : β) (stay : α → Bool)

/-- The rows in the order of their keys, from `start` on, up to the first that fails the test. -/
def scan (rows : List α) : List α :=
  ((rows.insertionSort (key · ≤ key ·)).filter (start ≤ key ·)).takeWhile stay

/-- Where no row passes after one that fails, stopping at the first failure loses nothing. -/
theorem takeWhile_eq_filter {rows : List α} (hmono : rows.Pairwise fun x y => stay y → stay x) :
    rows.takeWhile stay = rows.filter stay := by
  induction rows with
  | nil => rfl
  | cons x rows ih =>
    obtain ⟨hx, hmono⟩ := List.pairwise_cons.mp hmono
    cases hstay : stay x with
    | true => rw [List.takeWhile_cons_of_pos hstay, List.filter_cons_of_pos hstay, ih hmono]
    | false =>
      have hnot : ¬ stay x = true := by simp [hstay]
      rw [List.takeWhile_cons_of_neg hnot, List.filter_cons_of_neg hnot]
      refine (List.filter_eq_nil_iff.mpr ?_).symm
      exact fun y hy hpass => hnot (hx y hy hpass)

/-- A scan of a block finds the rows of the block. -/
theorem scan_eq {rows : List α}
    (hblock : ∀ x y, start ≤ key x → key x ≤ key y → stay y → stay x) :
    scan key start stay rows =
      ((rows.insertionSort (key · ≤ key ·)).filter (start ≤ key ·)).filter stay := by
  refine takeWhile_eq_filter stay ?_
  have hsorted := (List.pairwise_insertionSort (key · ≤ key ·) rows).filter (start ≤ key ·)
  refine hsorted.imp_of_mem ?_
  intro x y hx _ hle
  exact hblock x y (by simpa using (List.mem_filter.mp hx).2) hle

theorem mem_scan {rows : List α}
    (hblock : ∀ x y, start ≤ key x → key x ≤ key y → stay y → stay x) {x : α} :
    x ∈ scan key start stay rows ↔ x ∈ rows ∧ start ≤ key x ∧ stay x := by
  rw [scan_eq key start stay hblock]
  simp only [List.mem_filter, List.mem_insertionSort, decide_eq_true_eq, and_assoc]

end Scan

end Distribd.Schemes
