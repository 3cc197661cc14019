import Mathlib.Data.List.Basic

/-! Strings and paths as Rust has them on Unix. `&s[a..b]` counts bytes and panics when it ends
    outside of the string or inside a character (`slice`); characters of one byte are counted as they
    are (`slice_ascii`). `PathBuf::push` writes a separator, or starts anew when what is pushed is
    absolute, so a string of a client may add components or throw the path away; a plain name adds
    itself and nothing else (`components_push`). -/

namespace Distribd.Schemes

/-! ### Slices -/

/-- The string cut after `n` bytes; `none`: no character ends there. -/
def splitAtByte : ℕ → List Char → Option (List Char × List Char)
  | 0, cs => some ([], cs)
  | _ + 1, [] => none
  | n + 1, c :: cs =>
    if c.utf8Size ≤ n + 1 then
      (splitAtByte (n + 1 - c.utf8Size) cs).map fun (a, b) => (c :: a, b)
    else none

/-- `&s[start..stop]`; `none`: it panics. -/
def slice (s : List Char) (start stop : ℕ) : Option (List Char) :=
  (splitAtByte stop s).bind fun (a, _) => (splitAtByte start a).map Prod.snd

/-- `&s[start..]`. -/
def sliceFrom (s : List Char) (start : ℕ) : Option (List Char) :=
  (splitAtByte start s).map Prod.snd

theorem splitAtByte_ascii {s : List Char} (h : ∀ c ∈ s, c.utf8Size = 1) {n : ℕ}
    (hn : n ≤ s.length) : splitAtByte n s = some (s.take n, s.drop n) := by
  induction s generalizing n with
  | nil =>
    obtain rfl : n = 0 := by simpa using hn
    rfl
  | cons c cs ih =>
    cases n with
    | zero => rfl
    | succ n =>
      have hc : c.utf8Size = 1 := h c (List.mem_cons_self ..)
      have hrest := ih (fun x hx => h x (List.mem_cons_of_mem _ hx)) (Nat.le_of_succ_le_succ hn)
      simp [splitAtByte, hc, hrest]

theorem slice_ascii {s : List Char} (h : ∀ c ∈ s, c.utf8Size = 1) {start stop : ℕ}
    (hle : start ≤ stop) (hn : stop ≤ s.length) :
    slice s start stop = some ((s.take stop).drop start) := by
  have htake : ∀ c ∈ s.take stop, c.utf8Size = 1 := fun c hc => h c (List.mem_of_mem_take hc)
  have hlen : start ≤ (s.take stop).length := by
    rw [List.length_take]
    omega
  simp only [slice, splitAtByte_ascii h hn, Option.bind_some, splitAtByte_ascii htake hlen,
    Option.map_some]

theorem sliceFrom_ascii {s : List Char} (h : ∀ c ∈ s, c.utf8Size = 1) {start : ℕ}
    (hn : start ≤ s.length) : sliceFrom s start = some (s.drop start) := by
  rw [sliceFrom, splitAtByte_ascii h hn]
  rfl

/-! ### Paths -/

/-- `PathBuf`: the text of a path. -/
abbrev PathBuf := List Char

namespace PathBuf

/-- `PathBuf::push`. -/
def push (path name : PathBuf) : PathBuf :=
  if name.head? = some '/' then name
  else if path = [] ∨ path.getLast? = some '/' then path ++ name
  else path ++ '/' :: name

/-- The names between the separators, as components: a leading separator is the root, and empty
    names and, but for the first one, `.` do not count. -/
def ofNames : List PathBuf → List PathBuf
  | [] => []
  | first :: rest =>
    (if first = [] then (if rest = [] then [] else [['/']]) else [first]) ++
      rest.filter fun name => name ≠ [] ∧ name ≠ ['.']

/-- `Path::components`. -/
def components (path : PathBuf) : List PathBuf := ofNames (path.splitOn '/')

/-- A name of its own: not empty, not the directory itself, and in one piece. -/
def Plain (name : PathBuf) : Prop := name ≠ [] ∧ name ≠ ['.'] ∧ '/' ∉ name

theorem ofNames_snoc {names : List PathBuf} {name : PathBuf} (h : Plain name)
    (hnames : names ≠ []) (hne : names ≠ [[]]) :
    ofNames (names ++ [name]) = ofNames names ++ [name] := by
  obtain ⟨first, rest, rfl⟩ := List.exists_cons_of_ne_nil hnames
  rcases rest with _ | ⟨second, rest⟩
  · have hfirst : first ≠ [] := fun hf => hne (by rw [hf])
    simp [ofNames, hfirst, h.1, h.2.1]
  · have hkeep : ([name].filter fun name => decide (name ≠ [] ∧ name ≠ ['.'])) = [name] := by
      simp [h.1, h.2.1]
    rw [ofNames, List.cons_append, ofNames, List.filter_append, hkeep, ← List.append_assoc]
    rfl

theorem ofNames_snoc_nil {names : List PathBuf} {name : PathBuf} (h : Plain name)
    (hnames : names ≠ []) : ofNames (names ++ [name]) = ofNames (names ++ [[]]) ++ [name] := by
  obtain ⟨first, rest, rfl⟩ := List.exists_cons_of_ne_nil hnames
  simp [ofNames, List.filter_append, h.1, h.2.1]

/-- A plain name is one more component, whatever the path is. -/
theorem components_push {path name : PathBuf} (h : Plain name) :
    (path.push name).components = path.components ++ [name] := by
  have hhead : name.head? ≠ some '/' := fun hn => h.2.2 (List.mem_of_head? hn)
  have hname : name.splitOn '/' = [name] := List.splitOn_eq_singleton h.2.2
  rw [push, if_neg hhead]
  rcases List.eq_nil_or_concat path with rfl | ⟨q, c, rfl⟩
  · simp [components, hname, ofNames, h.1]
  · rw [List.concat_eq_append]
    by_cases hc : c = '/'
    · have hlast : (q ++ [c]).getLast? = some '/' := by simp [hc]
      have hold : (q ++ [c]).splitOn '/' = q.splitOn '/' ++ [[]] := by
        rw [hc, List.splitOn_append_cons_self]
        rfl
      have hnew : (q ++ [c] ++ name).splitOn '/' = q.splitOn '/' ++ [name] := by
        rw [hc, List.append_assoc, List.singleton_append, List.splitOn_append_cons_self, hname]
      rw [if_pos (.inr hlast), components, hnew, components, hold,
        ofNames_snoc_nil h (List.splitOn_ne_nil _ _)]
    · have hlast : ¬ (q ++ [c] = [] ∨ (q ++ [c]).getLast? = some '/') := by simp [hc]
      have hne : (q ++ [c]).splitOn '/' ≠ [[]] := by
        intro hnil
        have hjoin : ['/'].intercalate ((q ++ [c]).splitOn '/') = q ++ [c] :=
          List.intercalate_splitOn '/'
        rw [hnil] at hjoin
        simp at hjoin
      rw [if_neg hlast, components, List.splitOn_append_cons_self, hname,
        ofNames_snoc h (List.splitOn_ne_nil _ _) hne, components]

end PathBuf

end Distribd.Schemes
