import Distribd.Schemes.TreeMap

/-! Formats. A format writes the values of one type as values of another and reads them back; reading
    may fail, and not every value need come back as it was (`Keeps` says that it does). Formats can
    be chained and lifted to options, pairs, lists and maps, and what is kept is kept by what they
    are put together from. `Sound` is the other direction: whatever is read would be kept.

    A store has rows under written keys. It `Stores` a map if the rows are the entries of the map,
    all of which are kept; then a lookup finds what is in the map (`Stores.lookup`), insertions,
    removals and batches do to the map what they do to the rows, and reading all rows gives the
    map back (`Stores.read`). -/

namespace Distribd.Schemes

/-- A way to write a value down. -/
structure Format (α β : Type*) where
  write : α → β
  read : β → Option α

namespace Format

variable {α β γ δ : Type*}

/-- The value comes back. -/
def Keeps (f : Format α β) (a : α) : Prop := f.read (f.write a) = some a

/-- Every value comes back. -/
def Lossless (f : Format α β) : Prop := ∀ a, f.Keeps a

/-- Whatever is read would come back. -/
def Sound (f : Format α β) : Prop := ∀ {b a}, f.read b = some a → f.Keeps a

/-! ### Formats from formats -/

/-- Nothing to write. -/
def same : Format α α := ⟨id, some⟩

/-- One format after the other. -/
def comp (f : Format α β) (g : Format β γ) : Format α γ where
  write a := g.write (f.write a)
  read c := (g.read c).bind f.read

/-- Nothing, or something. -/
def option (f : Format α β) : Format (Option α) (Option β) where
  write o := o.map f.write
  read
    | none => some none
    | some b => (f.read b).map some

/-- Two things. -/
def pair (f : Format α β) (g : Format γ δ) : Format (α × γ) (β × δ) where
  write p := (f.write p.1, g.write p.2)
  read p := (f.read p.1).bind fun a => (g.read p.2).map fun c => (a, c)

/-- One thing after the other. -/
def list (f : Format α β) : Format (List α) (List β) where
  write l := l.map f.write
  read l := l.mapM f.read

theorem keeps_same (a : α) : same.Keeps a := rfl

theorem sound_same : (same : Format α α).Sound := fun _ => rfl

variable {f : Format α β} {g : Format γ δ}

theorem Lossless.sound (h : f.Lossless) : f.Sound := fun {_ a} _ => h a

/-- What is kept has its own text. -/
theorem Keeps.injective {a a' : α} (h : f.Keeps a) (h' : f.Keeps a')
    (heq : f.write a = f.write a') : a = a' := by
  rw [Keeps, heq] at h
  exact Option.some.inj (h.symm.trans h')

theorem Lossless.injective (h : f.Lossless) : Function.Injective f.write :=
  fun a a' => (h a).injective (h a')

/-- Behind a lossless format nothing changes. -/
theorem keeps_comp_iff {g : Format β γ} (hg : g.Lossless) {a : α} :
    (f.comp g).Keeps a ↔ f.Keeps a := by
  have hread : (f.comp g).read ((f.comp g).write a) = f.read (f.write a) := by
    change (g.read (g.write (f.write a))).bind f.read = _
    rw [hg (f.write a)]
    rfl
  rw [Keeps, hread, Keeps]

theorem keeps_option_iff {o : Option α} : f.option.Keeps o ↔ ∀ a ∈ o, f.Keeps a := by
  cases o with
  | none => simp [Keeps, option]
  | some a => simp [Keeps, option]

theorem keeps_pair_iff {p : α × γ} : (f.pair g).Keeps p ↔ f.Keeps p.1 ∧ g.Keeps p.2 := by
  obtain ⟨a, c⟩ := p
  simp only [Keeps, pair, Option.bind_eq_some_iff, Option.map_eq_some_iff, Prod.mk.injEq]
  constructor
  · rintro ⟨_, ha, _, hc, rfl, rfl⟩
    exact ⟨ha, hc⟩
  · rintro ⟨ha, hc⟩
    exact ⟨a, ha, c, hc, rfl, rfl⟩

/-- Reading goes through the list. -/
theorem read_list_cons {b : β} {bs : List β} :
    f.list.read (b :: bs) = (f.read b).bind fun a => (f.list.read bs).map (a :: ·) := by
  simp only [list, List.mapM_cons]
  cases f.read b with
  | none => rfl
  | some a => cases bs.mapM f.read <;> rfl

theorem keeps_list_iff {l : List α} : f.list.Keeps l ↔ ∀ a ∈ l, f.Keeps a := by
  induction l with
  | nil => simp [Keeps, list]
  | cons a l ih =>
    have hwrite : f.list.write (a :: l) = f.write a :: f.list.write l := rfl
    rw [Keeps, hwrite, read_list_cons, List.forall_mem_cons, ← ih]
    simp only [Option.bind_eq_some_iff, Option.map_eq_some_iff, List.cons.injEq]
    constructor
    · rintro ⟨_, ha, _, hl, rfl, rfl⟩
      exact ⟨ha, hl⟩
    · rintro ⟨ha, hl⟩
      exact ⟨a, ha, l, hl, rfl, rfl⟩

theorem sound_pair (hf : f.Sound) (hg : g.Sound) : (f.pair g).Sound := by
  rintro ⟨b, d⟩ ⟨a, c⟩ h
  obtain ⟨a', ha, h⟩ := Option.bind_eq_some_iff.mp h
  obtain ⟨c', hc, heq⟩ := Option.map_eq_some_iff.mp h
  obtain ⟨rfl, rfl⟩ := Prod.mk.inj heq
  exact keeps_pair_iff.mpr ⟨hf ha, hg hc⟩

theorem sound_list (hf : f.Sound) : f.list.Sound := by
  intro bs
  induction bs with
  | nil =>
    intro l h
    obtain rfl : [] = l := Option.some.inj h
    rfl
  | cons b bs ih =>
    intro l h
    rw [read_list_cons] at h
    obtain ⟨a, ha, h⟩ := Option.bind_eq_some_iff.mp h
    obtain ⟨l', hl, rfl⟩ := Option.map_eq_some_iff.mp h
    exact keeps_list_iff.mpr
      (List.forall_mem_cons.mpr ⟨hf ha, keeps_list_iff.mp (ih hl)⟩)

theorem sound_option (hf : f.Sound) : f.option.Sound := by
  intro b o h
  rw [keeps_option_iff]
  intro a ha
  obtain rfl : o = some a := ha
  cases b with
  | none => cases h
  | some b =>
    obtain ⟨a', ha', heq⟩ := Option.map_eq_some_iff.mp h
    exact Option.some.inj heq ▸ hf ha'

/-! ### Maps -/

section

variable {I V K W : Type*} [Ord I] [Std.TransOrd I] [Std.LawfulEqOrd I]

/-- A map as the list of its entries; of entries with one key the last counts. -/
def entries : Format (Std.ExtTreeMap I V) (List (I × V)) where
  write m := m.toList
  read l := some ((∅ : Std.ExtTreeMap I V).insertMany l)

/-- A map with keys and values in formats of their own. -/
def map (key : Format I K) (val : Format V W) : Format (Std.ExtTreeMap I V) (List (K × W)) :=
  entries.comp (key.pair val).list

theorem insertMany_toList (m : Std.ExtTreeMap I V) :
    (∅ : Std.ExtTreeMap I V).insertMany m.toList = m := by
  classical
  refine Std.ExtTreeMap.ext_getElem? fun {i} => ?_
  rw [getElem?_insertMany_toList]
  simp

/-- The entries of a batch are among those that were inserted. -/
theorem mem_of_getElem?_insertMany {l : List (I × V)} {i : I} {v : V}
    (h : ((∅ : Std.ExtTreeMap I V).insertMany l)[i]? = some v) : (i, v) ∈ l := by
  induction l using List.reverseRecOn with
  | nil => simp at h
  | append_singleton l p ih =>
    rw [Std.ExtTreeMap.insertMany_append, Std.ExtTreeMap.insertMany_list_singleton,
      Std.ExtTreeMap.getElem?_insert] at h
    split at h
    case isTrue heq =>
      obtain rfl := Std.LawfulEqOrd.eq_of_compare heq
      obtain rfl := Option.some.inj h
      exact List.mem_append_right _ (List.mem_singleton_self _)
    case isFalse => exact List.mem_append_left _ (ih h)

variable {key : Format I K} {val : Format V W} {m : Std.ExtTreeMap I V}

/-- A map is kept if its entries are. -/
theorem keeps_map (h : ∀ i v, m[i]? = some v → key.Keeps i ∧ val.Keeps v) :
    (map key val).Keeps m := by
  have hlist : (key.pair val).list.Keeps m.toList := by
    rw [keeps_list_iff]
    rintro ⟨i, v⟩ hmem
    rw [keeps_pair_iff]
    exact h i v (Std.ExtTreeMap.mem_toList_iff_getElem?_eq_some.mp hmem)
  change ((key.pair val).list.read ((key.pair val).list.write m.toList)).bind _ = _
  rw [hlist]
  exact congrArg some (insertMany_toList m)

/-- The entries of a map that has been read. -/
theorem keeps_of_read_map (hkey : key.Sound) (hval : val.Sound) {l : List (K × W)}
    (h : (map key val).read l = some m) {i : I} {v : V} (hi : m[i]? = some v) :
    key.Keeps i ∧ val.Keeps v := by
  obtain ⟨es, hes, heq⟩ := Option.bind_eq_some_iff.mp h
  obtain rfl := Option.some.inj heq
  have hkept := keeps_list_iff.mp (sound_list (sound_pair hkey hval) hes)
  exact keeps_pair_iff.mp (hkept _ (mem_of_getElem?_insertMany hi))

theorem sound_map (hkey : key.Sound) (hval : val.Sound) :
    (map key val : Format (Std.ExtTreeMap I V) _).Sound :=
  fun h => keeps_map fun _ _ => keeps_of_read_map hkey hval h

theorem keeps_map_iff (hkey : key.Sound) (hval : val.Sound) :
    (map key val).Keeps m ↔ ∀ i v, m[i]? = some v → key.Keeps i ∧ val.Keeps v :=
  ⟨fun h _ _ => keeps_of_read_map hkey hval h, keeps_map⟩

end

end Format

/-! ### Rows -/

section

variable {I V K W : Type*} [Ord I] [Std.TransOrd I] [Std.LawfulEqOrd I]
  [Ord K] [Std.TransOrd K] [Std.LawfulEqOrd K]

/-- What a store has under a key; `none`: the row cannot be read. -/
def lookup (key : Format I K) (val : Format V W) (t : Std.ExtTreeMap K W) (i : I) :
    Option (Option V) := val.option.read t[key.write i]?

/-- The rows are the entries of the map, all of which are kept. -/
structure Stores (key : Format I K) (val : Format V W) (t : Std.ExtTreeMap K W)
    (m : Std.ExtTreeMap I V) : Prop where
  keeps : ∀ i v, m[i]? = some v → key.Keeps i ∧ val.Keeps v
  get : ∀ i, key.Keeps i → t[key.write i]? = m[i]?.map val.write
  key : ∀ k, t[k]? ≠ none → ∃ i, key.Keeps i ∧ key.write i = k

omit [Std.LawfulEqOrd K] in
/-- A batch overrides what was there. -/
theorem getElem?_insertMany_or (t : Std.ExtTreeMap K W) (l : List (K × W)) (k : K) :
    (t.insertMany l)[k]? = ((∅ : Std.ExtTreeMap K W).insertMany l)[k]?.or t[k]? := by
  induction l using List.reverseRecOn with
  | nil => simp
  | append_singleton l p ih =>
    rw [Std.ExtTreeMap.insertMany_append, Std.ExtTreeMap.insertMany_list_singleton,
      Std.ExtTreeMap.insertMany_append, Std.ExtTreeMap.insertMany_list_singleton,
      Std.ExtTreeMap.getElem?_insert, Std.ExtTreeMap.getElem?_insert, ih]
    split <;> rfl

variable {key : Format I K} {val : Format V W} {t : Std.ExtTreeMap K W} {m : Std.ExtTreeMap I V}

omit [Std.TransOrd I] [Std.TransOrd K] in
/-- Kept keys are compared by what is written. -/
theorem Format.Keeps.compare_iff {i j : I} (hi : key.Keeps i) (hj : key.Keeps j) :
    compare (key.write i) (key.write j) = .eq ↔ compare i j = .eq := by
  rw [Std.compare_eq_iff_eq, Std.compare_eq_iff_eq]
  exact ⟨hi.injective hj, fun heq => heq ▸ rfl⟩

omit [Std.LawfulEqOrd I] [Std.LawfulEqOrd K] in
theorem stores_empty : Stores key val (∅ : Std.ExtTreeMap K W) (∅ : Std.ExtTreeMap I V) where
  keeps i v h := by simp at h
  get i _ := by simp
  key k h := absurd (by simp) h

namespace Stores

omit [Std.LawfulEqOrd I] [Std.LawfulEqOrd K] in
theorem lookup (h : Stores key val t m) {i : I} (hi : key.Keeps i) :
    lookup key val t i = some m[i]? := by
  rw [Schemes.lookup, h.get i hi]
  cases hm : m[i]? with
  | none => rfl
  | some v =>
    have hv : val.read (val.write v) = some v := (h.keeps i v hm).2
    simp [Format.option, hv]

theorem insert (h : Stores key val t m) {i : I} (hi : key.Keeps i) {v : V} (hv : val.Keeps v) :
    Stores key val (t.insert (key.write i) (val.write v)) (m.insert i v) where
  keeps j w hj := by
    rw [Std.ExtTreeMap.getElem?_insert] at hj
    split at hj
    case isTrue heq =>
      obtain rfl := Std.LawfulEqOrd.eq_of_compare heq
      obtain rfl := Option.some.inj hj
      exact ⟨hi, hv⟩
    case isFalse => exact h.keeps j w hj
  get j hj := by
    rw [Std.ExtTreeMap.getElem?_insert, Std.ExtTreeMap.getElem?_insert, h.get j hj]
    simp only [hi.compare_iff hj]
    split <;> rfl
  key k hk := by
    rw [Std.ExtTreeMap.getElem?_insert] at hk
    split at hk
    case isTrue heq => exact ⟨i, hi, Std.LawfulEqOrd.eq_of_compare heq⟩
    case isFalse => exact h.key k hk

theorem erase (h : Stores key val t m) {i : I} (hi : key.Keeps i) :
    Stores key val (t.erase (key.write i)) (m.erase i) where
  keeps j w hj := by
    rw [Std.ExtTreeMap.getElem?_erase] at hj
    split at hj
    · cases hj
    · exact h.keeps j w hj
  get j hj := by
    rw [Std.ExtTreeMap.getElem?_erase, Std.ExtTreeMap.getElem?_erase, h.get j hj]
    simp only [hi.compare_iff hj]
    split <;> rfl
  key k hk := by
    rw [Std.ExtTreeMap.getElem?_erase] at hk
    split at hk
    · exact absurd rfl hk
    · exact h.key k hk

theorem insertMany (h : Stores key val t m) {l : List (I × V)}
    (hl : ∀ p ∈ l, key.Keeps p.1 ∧ val.Keeps p.2) :
    Stores key val (t.insertMany ((key.pair val).list.write l)) (m.insertMany l) := by
  induction l generalizing t m with
  | nil => simpa [Format.list] using h
  | cons p l ih =>
    obtain ⟨hp, hl⟩ := List.forall_mem_cons.mp hl
    have hwrite : (key.pair val).list.write (p :: l) =
        (key.write p.1, val.write p.2) :: (key.pair val).list.write l := rfl
    rw [hwrite, Std.ExtTreeMap.insertMany_cons, Std.ExtTreeMap.insertMany_cons]
    exact ih (h.insert hp.1 hp.2) hl

omit [Std.LawfulEqOrd I] in
/-- The rows are written entries, in some order. -/
theorem toList (h : Stores key val t m) :
    ∃ l : List (I × V), t.toList = (key.pair val).list.write l ∧
      ∀ i v, (i, v) ∈ l ↔ m[i]? = some v := by
  have hrow : ∀ row ∈ t.toList, ∃ p : I × V, m[p.1]? = some p.2 ∧ (key.pair val).write p = row := by
    rintro ⟨k, w⟩ hmem
    rw [Std.ExtTreeMap.mem_toList_iff_getElem?_eq_some] at hmem
    obtain ⟨i, hi, rfl⟩ := h.key k (by simp [hmem])
    rw [h.get i hi] at hmem
    obtain ⟨v, hv, rfl⟩ := Option.map_eq_some_iff.mp hmem
    exact ⟨(i, v), hv, rfl⟩
  have hlist : ∀ rows : List (K × W), (∀ row ∈ rows, ∃ p : I × V, m[p.1]? = some p.2 ∧
      (key.pair val).write p = row) →
      ∃ l : List (I × V), rows = (key.pair val).list.write l ∧ ∀ p ∈ l, m[p.1]? = some p.2 := by
    intro rows
    induction rows with
    | nil => exact fun _ => ⟨[], rfl, by simp⟩
    | cons row rows ih =>
      intro hrows
      obtain ⟨⟨p, hp, heq⟩, hrest⟩ := List.forall_mem_cons.mp hrows
      obtain ⟨l, rfl, hl⟩ := ih hrest
      exact ⟨p :: l, by rw [← heq]; rfl, List.forall_mem_cons.mpr ⟨hp, hl⟩⟩
  obtain ⟨l, hl, hmem⟩ := hlist _ hrow
  refine ⟨l, hl, fun i v => ⟨fun h => hmem _ h, fun hi => ?_⟩⟩
  -- the row of the entry is one of the list, and no other entry has it
  obtain ⟨hik, hvk⟩ := h.keeps i v hi
  have hin : (key.write i, val.write v) ∈ t.toList := by
    rw [Std.ExtTreeMap.mem_toList_iff_getElem?_eq_some, h.get i hik, hi]
    rfl
  rw [hl] at hin
  obtain ⟨⟨j, w⟩, hj, heq⟩ := List.mem_map.mp hin
  obtain ⟨hkey, hval⟩ := Prod.mk.inj heq
  obtain ⟨hjk, hwk⟩ := h.keeps j w (hmem _ hj)
  rwa [← hjk.injective hik hkey, ← hwk.injective hvk hval]

omit [Std.LawfulEqOrd I] in
/-- All rows, read. -/
theorem read (h : Stores key val t m) :
    ∃ l : List (I × V), (key.pair val).list.read t.toList = some l ∧
      ∀ i v, (i, v) ∈ l ↔ m[i]? = some v := by
  obtain ⟨l, hl, hmem⟩ := h.toList
  refine ⟨l, ?_, hmem⟩
  rw [hl]
  refine Format.keeps_list_iff.mpr ?_
  rintro ⟨i, v⟩ hp
  exact Format.keeps_pair_iff.mpr (h.keeps i v ((hmem i v).mp hp))

/-- Reading all rows gives the map. -/
theorem read_map (h : Stores key val t m) : (Format.map key val).read t.toList = some m := by
  classical
  obtain ⟨l, hl, hmem⟩ := h.read
  have heq : (∅ : Std.ExtTreeMap I V).insertMany l = m := by
    refine Std.ExtTreeMap.ext_getElem? fun {i} => ?_
    rw [getElem?_insertMany_graph (f := fun i => m[i]?) _ hmem]
    simp
  change ((key.pair val).list.read t.toList).bind _ = _
  rw [hl]
  exact congrArg some heq

end Stores

/-- What a store has under a key after a batch of kept entries, whatever it had before. -/
theorem lookup_insertMany (t : Std.ExtTreeMap K W) {l : List (I × V)}
    (hl : ∀ p ∈ l, key.Keeps p.1 ∧ val.Keeps p.2) {i : I} {v : V}
    (hi : ((∅ : Std.ExtTreeMap I V).insertMany l)[i]? = some v) :
    lookup key val (t.insertMany ((key.pair val).list.write l)) i = some (some v) := by
  have hstores : Stores key val _ _ := stores_empty.insertMany hl
  obtain ⟨hik, hvk⟩ := hstores.keeps i v hi
  have hread : val.read (val.write v) = some v := hvk
  rw [lookup, getElem?_insertMany_or, hstores.get i hik, hi]
  simp [Format.option, hread]

end

end Distribd.Schemes
