import Mathlib

/-! Bulk insertion into an ordered map. `insertMany` of a list that is the graph of a partial
    function overrides the map by that function (`getElem?_insertMany_graph`); in particular
    inserting all entries of another map overrides by that map. The listing of a map has one entry
    for each key, so what is made of it splits by keys (`filter_flatMap_toList`).

    A store that keeps encoded keys and values `Represents` the map behind it; if the encoding keeps
    the order of the keys, a scan of the store meets the entries in their order
    (`Represents.toList`). -/

namespace Distribd.Schemes

variable {K V : Type*} [DecidableEq K] [Ord K] [Std.TransOrd K] [Std.LawfulEqOrd K]

/-- Inserting the graph of `f` overrides the map by `f`. -/
theorem getElem?_insertMany_graph (t : Std.ExtTreeMap K V) {l : List (K × V)} {f : K → Option V}
    (hl : ∀ k v, (k, v) ∈ l ↔ f k = some v) (k : K) :
    (t.insertMany l)[k]? = (f k).or t[k]? := by
  have hlast : ∀ l' : List (K × V), (∀ p ∈ l', f p.1 = some p.2) →
      (t.insertMany l')[k]? = if k ∈ l'.map Prod.fst then f k else t[k]? := by
    intro l'
    induction l' using List.reverseRecOn with
    | nil => intro _; simp
    | append_singleton l' p ih =>
      intro hf
      have hp : f p.1 = some p.2 := hf p (by simp)
      have hrest := ih fun q hq => hf q (List.mem_append_left _ hq)
      rw [Std.ExtTreeMap.insertMany_append, Std.ExtTreeMap.insertMany_list_singleton,
        Std.ExtTreeMap.getElem?_insert, hrest]
      by_cases hk : p.1 = k
      · subst hk; simp [hp]
      · have hne : k ≠ p.1 := fun h => hk h.symm
        have hmem : k ∈ (l' ++ [p]).map Prod.fst ↔ k ∈ l'.map Prod.fst := by simp [hne]
        simp only [hmem, Std.compare_eq_iff_eq, hk, if_false]
  rw [hlast l fun p hp => (hl p.1 p.2).mp hp]
  cases hk : f k with
  | none =>
    have hnot : k ∉ l.map Prod.fst := by
      intro hmem
      obtain ⟨⟨k', v⟩, hp, rfl⟩ := List.mem_map.mp hmem
      rw [(hl k' v).mp hp] at hk
      cases hk
    rw [if_neg hnot]
    rfl
  | some v =>
    have hin : k ∈ l.map Prod.fst := List.mem_map.mpr ⟨(k, v), (hl k v).mpr hk, rfl⟩
    rw [if_pos hin]
    rfl

/-- Inserting all entries of `u` overrides the map by `u`. -/
theorem getElem?_insertMany_toList (t u : Std.ExtTreeMap K V) (k : K) :
    (t.insertMany u.toList)[k]? = u[k]?.or t[k]? :=
  getElem?_insertMany_graph t (fun _ _ => Std.ExtTreeMap.mem_toList_iff_getElem?_eq_some) k

/-- Inserting the graph of `f` changes nothing exactly when the map already has it. -/
theorem insertMany_graph_eq_self_iff (t : Std.ExtTreeMap K V) {l : List (K × V)} {f : K → Option V}
    (hl : ∀ k v, (k, v) ∈ l ↔ f k = some v) :
    t.insertMany l = t ↔ ∀ k v, f k = some v → t[k]? = some v := by
  constructor
  · intro h k v hv
    have hk := getElem?_insertMany_graph t hl k
    rw [h, hv] at hk
    simpa using hk
  · intro h
    refine Std.ExtTreeMap.ext_getElem? fun {k} => ?_
    rw [getElem?_insertMany_graph t hl k]
    cases hv : f k with
    | none => simp
    | some v => simp [h k v hv]

/-- A search of the listing for a key finds the entry of the key. -/
theorem find?_toList (t : Std.ExtTreeMap K V) (k : K) :
    (t.toList.find? fun p => p.1 = k) = t[k]?.map fun v => (k, v) := by
  cases hf : t.toList.find? fun p => p.1 = k with
  | none =>
    cases hk : t[k]? with
    | none => rfl
    | some v =>
      have hmem := Std.ExtTreeMap.mem_toList_iff_getElem?_eq_some.mpr hk
      have hne := List.find?_eq_none.mp hf _ hmem
      simp at hne
  | some p =>
    obtain ⟨k', v⟩ := p
    obtain rfl : k' = k := by simpa using List.find?_some hf
    have hmem := Std.ExtTreeMap.mem_toList_iff_getElem?_eq_some.mp (List.mem_of_find?_eq_some hf)
    rw [hmem]
    rfl

/-- The part of a long listing that is about one key is what the listing has for its entry. -/
theorem filter_flatMap_toList {β : Type*} (t : Std.ExtTreeMap K V) {f : K × V → List β}
    {key : β → K} (hkey : ∀ p, ∀ x ∈ f p, key x = p.1) (k : K) :
    (t.toList.flatMap f).filter (fun x => key x = k) = t[k]?.elim [] fun v => f (k, v) := by
  have hlist : ∀ l : List (K × V), l.Pairwise (fun a b => a.1 ≠ b.1) →
      (l.flatMap f).filter (fun x => key x = k) = (l.find? fun p => p.1 = k).elim [] f := by
    intro l hl
    induction l with
    | nil => rfl
    | cons p l ih =>
      obtain ⟨hp, hl⟩ := List.pairwise_cons.mp hl
      rw [List.flatMap_cons, List.filter_append, ih hl, List.find?_cons]
      by_cases hpk : p.1 = k
      · have hrest : (l.find? fun q => q.1 = k) = none := by
          simp only [List.find?_eq_none, decide_eq_true_eq]
          intro q hq hqk
          exact hp q hq (hpk.trans hqk.symm)
        have hall : (f p).filter (fun x => key x = k) = f p := by
          refine List.filter_eq_self.mpr fun x hx => ?_
          simp [hkey p x hx, hpk]
        simp [hpk, hrest, hall]
      · have hnone : (f p).filter (fun x => key x = k) = [] := by
          refine List.filter_eq_nil_iff.mpr fun x hx => ?_
          simp [hkey p x hx, hpk]
        simp [hpk, hnone]
  have hdistinct : t.toList.Pairwise (fun a b => a.1 ≠ b.1) :=
    t.distinct_keys_toList.imp fun {a b} hab heq => hab (by simp [heq])
  rw [hlist _ hdistinct, find?_toList]
  cases t[k]? <;> rfl

/-- No key of a map of numbers is above the last one listed. -/
theorem le_getLast?_toList {t : Std.ExtTreeMap ℕ V} {p : ℕ × V} (h : t.toList.getLast? = some p)
    {i : ℕ} {v : V} (hi : t[i]? = some v) : i ≤ p.1 := by
  have hsorted := t.ordered_keys_toList
  obtain ⟨l, hl⟩ := List.getLast?_eq_some_iff.mp h
  have hmem := Std.ExtTreeMap.mem_toList_iff_getElem?_eq_some.mpr hi
  rw [hl] at hsorted hmem
  rcases List.mem_append.mp hmem with hmem | hmem
  · exact (Nat.compare_eq_lt.mp ((List.pairwise_append.mp hsorted).2.2 _ hmem p (by simp))).le
  · exact (congrArg Prod.fst (List.mem_singleton.mp hmem)).le

/-! ### Rows under encoded keys -/

/-- The rows that a scan selects, removed in one batch. -/
def removeRows (t : Std.ExtTreeMap K V) (test : K → Bool) : Std.ExtTreeMap K V :=
  (t.toList.filter fun row => test row.1).foldl (fun t row => t.erase row.1) t

theorem getElem?_removeRows (t : Std.ExtTreeMap K V) (test : K → Bool) (k : K) :
    (removeRows t test)[k]? = if test k then none else t[k]? := by
  have hfold : ∀ (rows : List (K × V)) (u : Std.ExtTreeMap K V),
      (rows.foldl (fun u row => u.erase row.1) u)[k]? =
        if k ∈ rows.map Prod.fst then none else u[k]? := by
    intro rows
    induction rows with
    | nil => intro u; simp
    | cons row rows ih =>
      intro u
      rw [List.foldl_cons, ih, Std.ExtTreeMap.getElem?_erase]
      by_cases hk : row.1 = k
      · simp [hk]
      · have hmem : k ∈ (row :: rows).map Prod.fst ↔ k ∈ rows.map Prod.fst := by
          simp [show k ≠ row.1 from fun h => hk h.symm]
        simp only [hmem, Std.compare_eq_iff_eq, hk, if_false]
  rw [removeRows, hfold]
  by_cases hmem : k ∈ (t.toList.filter fun row => test row.1).map Prod.fst
  · obtain ⟨row, hrow, rfl⟩ := List.mem_map.mp hmem
    rw [if_pos hmem, if_pos (List.mem_filter.mp hrow).2]
  · rw [if_neg hmem]
    split
    case isTrue htest =>
      cases hk : t[k]? with
      | none => rfl
      | some v =>
        refine absurd (List.mem_map.mpr ⟨(k, v), List.mem_filter.mpr ⟨?_, htest⟩, rfl⟩) hmem
        exact Std.ExtTreeMap.mem_toList_iff_getElem?_eq_some.mpr hk
    case isFalse => rfl

/-- The rows of `t` are the entries of `m`, with their keys and values encoded. -/
structure Represents {I W : Type*} [Ord I] [Std.TransOrd I] (enc : I → K) (val : V → W)
    (t : Std.ExtTreeMap K W) (m : Std.ExtTreeMap I V) : Prop where
  get : ∀ i, t[enc i]? = m[i]?.map val
  key : ∀ k, t[k]? ≠ none → ∃ i, k = enc i

section Represents

variable {I W : Type*} [DecidableEq I] [Ord I] [Std.TransOrd I] [Std.LawfulEqOrd I]
  {enc : I → K} {val : V → W} {t : Std.ExtTreeMap K W} {m : Std.ExtTreeMap I V}

omit [DecidableEq K] [Std.LawfulEqOrd K] [DecidableEq I] [Std.LawfulEqOrd I] in
theorem represents_empty : Represents enc val (∅ : Std.ExtTreeMap K W) (∅ : Std.ExtTreeMap I V) where
  get i := by simp
  key k hk := absurd (by simp) hk

omit [DecidableEq K] [Std.TransOrd K] [Std.LawfulEqOrd K] [DecidableEq I] [Std.TransOrd I] in
/-- An encoding that keeps the order keeps different keys apart. -/
theorem injective_of_compare [Std.ReflOrd K]
    (henc : ∀ i j, compare (enc i) (enc j) = compare i j) : Function.Injective enc := by
  intro i j hij
  refine Std.LawfulEqOrd.eq_of_compare ?_
  rw [← henc, hij]
  exact Std.ReflCmp.compare_self

omit [DecidableEq K] [DecidableEq I] in
theorem Represents.insert (h : Represents enc val t m) (hinj : Function.Injective enc) (i : I)
    (v : V) : Represents enc val (t.insert (enc i) (val v)) (m.insert i v) where
  get j := by
    have hkey : compare (enc i) (enc j) = .eq ↔ compare i j = .eq := by
      rw [Std.compare_eq_iff_eq, Std.compare_eq_iff_eq, hinj.eq_iff]
    rw [Std.ExtTreeMap.getElem?_insert, Std.ExtTreeMap.getElem?_insert, h.get]
    simp only [hkey]
    split <;> rfl
  key k hk := by
    rw [Std.ExtTreeMap.getElem?_insert] at hk
    split at hk
    case isTrue heq => exact ⟨i, (Std.LawfulEqOrd.eq_of_compare heq).symm⟩
    case isFalse => exact h.key k hk

omit [DecidableEq K] [DecidableEq I] in
theorem Represents.insertMany (h : Represents enc val t m) (hinj : Function.Injective enc)
    (l : List (I × V)) :
    Represents enc val (t.insertMany (l.map fun p => (enc p.1, val p.2))) (m.insertMany l) := by
  induction l generalizing t m with
  | nil => simpa using h
  | cons p l ih =>
    rw [List.map_cons, Std.ExtTreeMap.insertMany_cons, Std.ExtTreeMap.insertMany_cons]
    exact ih (h.insert hinj p.1 p.2)

omit [DecidableEq K] [DecidableEq I] [Std.LawfulEqOrd I] in
/-- The rows are those of the entries. -/
theorem Represents.mem_toList (h : Represents enc val t m) {k : K} {w : W} :
    (k, w) ∈ t.toList ↔ ∃ i v, m[i]? = some v ∧ enc i = k ∧ val v = w := by
  rw [Std.ExtTreeMap.mem_toList_iff_getElem?_eq_some]
  constructor
  · intro hk
    obtain ⟨i, rfl⟩ := h.key k (by simp [hk])
    rw [h.get, Option.map_eq_some_iff] at hk
    obtain ⟨v, hv, hw⟩ := hk
    exact ⟨i, v, hv, rfl, hw⟩
  · rintro ⟨i, v, hv, rfl, rfl⟩
    rw [h.get, hv]
    rfl

omit [DecidableEq I] in
/-- Removing rows removes entries. -/
theorem Represents.removeRows (h : Represents enc val t m) {test : K → Bool} {test' : I → Bool}
    (htest : ∀ i, test (enc i) = test' i) :
    Represents enc val (removeRows t test) (m.filter fun i _ => !test' i) where
  get i := by
    rw [getElem?_removeRows, Std.ExtTreeMap.getElem?_filter', htest, h.get]
    cases m[i]? <;> cases test' i <;> simp [Option.filter]
  key k hk := by
    rw [getElem?_removeRows] at hk
    split at hk
    · exact absurd rfl hk
    · exact h.key k hk

omit [DecidableEq K] [DecidableEq I] in
/-- Under an encoding that keeps the order the rows are listed in the order of the entries. -/
theorem Represents.toList (h : Represents enc val t m)
    (henc : ∀ i j, compare (enc i) (enc j) = compare i j) :
    t.toList = m.toList.map fun p => (enc p.1, val p.2) := by
  have hsorted : (m.toList.map fun p => (enc p.1, val p.2)).Pairwise
      (fun a b => compare a.1 b.1 = .lt) := by
    refine List.pairwise_map.mpr (m.ordered_keys_toList.imp fun {a b} hab => ?_)
    rw [henc]
    exact hab
  have hirrefl : ∀ a b : K × W, compare a.1 b.1 = .lt → a ≠ b := by
    rintro a b hlt rfl
    simp at hlt
  refine List.Perm.eq_of_pairwise ?_ t.ordered_keys_toList hsorted ?_
  · intro a b _ _ hab hba
    rw [Std.OrientedCmp.gt_of_lt hba] at hab
    cases hab
  · refine (List.perm_ext_iff_of_nodup ?_ ?_).mpr ?_
    · exact t.ordered_keys_toList.imp fun {a b} => hirrefl a b
    · exact hsorted.imp fun {a b} => hirrefl a b
    · rintro ⟨k, w⟩
      simp only [h.mem_toList, List.mem_map, Prod.exists,
        Std.ExtTreeMap.mem_toList_iff_getElem?_eq_some, Prod.mk.injEq]

end Represents

end Distribd.Schemes
