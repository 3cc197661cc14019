import Mathlib.Data.List.Basic
import Mathlib.Data.List.TakeWhile

/-! References to resources, as the text of a header has them. What follows a `#` or a `?` is not of
    the path; the path is resolved, which takes its `.` and `..` away; and an escape stands for a
    character. So a text that somebody has put together from names says what he meant only if none of
    the names has such characters. Escapes are those of ASCII. -/

namespace Distribd.Schemes

/-! ### Escapes -/

/-- The value of a hexadecimal digit. -/
def hexDigit? (c : Char) : Option ℕ :=
  if '0' ≤ c ∧ c ≤ '9' then some (c.toNat - '0'.toNat)
  else if 'a' ≤ c ∧ c ≤ 'f' then some (c.toNat - 'a'.toNat + 10)
  else if 'A' ≤ c ∧ c ≤ 'F' then some (c.toNat - 'A'.toNat + 10)
  else none

/-- The text with its escapes decoded, but for those of characters that are kept as they are; what is
    no escape stays. -/
def percentDecode (keep : Char → Bool) : List Char → List Char
  | [] => []
  | '%' :: a :: b :: cs =>
    match hexDigit? a, hexDigit? b with
    | some x, some y =>
      let c := Char.ofNat (16 * x + y)
      if keep c then '%' :: a :: b :: percentDecode keep cs else c :: percentDecode keep cs
    | _, _ => '%' :: percentDecode keep (a :: b :: cs)
  | c :: cs => c :: percentDecode keep cs

/-- The value of a field of a query: a `+` is a blank. -/
def formDecode (cs : List Char) : List Char :=
  percentDecode (fun _ => false) (cs.map fun c => if c = '+' then ' ' else c)

theorem percentDecode_eq_self {keep : Char → Bool} {cs : List Char} (h : '%' ∉ cs) :
    percentDecode keep cs = cs := by
  induction cs with
  | nil => rfl
  | cons c cs ih =>
    rw [List.mem_cons, not_or] at h
    rw [percentDecode, ih h.2]
    rintro a b rest rfl
    exact absurd rfl h.1

theorem formDecode_eq_self {cs : List Char} (h : '%' ∉ cs) (hplus : '+' ∉ cs) :
    formDecode cs = cs := by
  have hmap : cs.map (fun c => if c = '+' then ' ' else c) = cs := by
    refine (List.map_congr_left fun c hc => ?_).trans (List.map_id cs)
    have hne : c ≠ '+' := fun heq => hplus (heq ▸ hc)
    exact if_neg hne
  rw [formDecode, hmap, percentDecode_eq_self h]

/-! ### Path and query -/

/-- The path of a reference. -/
def urlPath (url : List Char) : List Char := (url.takeWhile (· ≠ '#')).takeWhile (· ≠ '?')

/-- Its query. -/
def urlQuery (url : List Char) : List Char :=
  ((url.takeWhile (· ≠ '#')).dropWhile (· ≠ '?')).tail

section

variable {path query : List Char}

theorem takeWhile_eq_self {c : Char} {cs : List Char} (h : c ∉ cs) :
    cs.takeWhile (· ≠ c) = cs := by
  rw [List.takeWhile_eq_self_iff]
  rintro x hx
  exact decide_eq_true fun heq => h (heq ▸ hx)

theorem urlPath_eq_self (hhash : '#' ∉ path) (hquery : '?' ∉ path) : urlPath path = path := by
  rw [urlPath, takeWhile_eq_self hhash, takeWhile_eq_self hquery]

theorem urlPath_append (hhash : '#' ∉ path) (hpath : '?' ∉ path) (hquery : '#' ∉ query) :
    urlPath (path ++ '?' :: query) = path := by
  have hall : '#' ∉ path ++ '?' :: query := by simp [hhash, hquery]
  rw [urlPath, takeWhile_eq_self hall, List.takeWhile_append_of_pos]
  · simp
  · exact fun c hc => decide_eq_true fun heq => hpath (heq ▸ hc)

theorem urlQuery_append (hhash : '#' ∉ path) (hpath : '?' ∉ path) (hquery : '#' ∉ query) :
    urlQuery (path ++ '?' :: query) = query := by
  have hall : '#' ∉ path ++ '?' :: query := by simp [hhash, hquery]
  rw [urlQuery, takeWhile_eq_self hall, List.dropWhile_append_of_pos]
  · simp
  · exact fun c hc => decide_eq_true fun heq => hpath (heq ▸ hc)

end

/-! ### Dots -/

/-- One segment less, but for the first. -/
def popSegment : List (List Char) → List (List Char)
  | _ :: segment :: out => segment :: out
  | out => out

/-- The segments of a path without its dots: `.` goes, and `..` takes the one before away; behind
    them the path ends in a slash. `out` is what stands before, backwards. -/
def removeDots (out : List (List Char)) : List (List Char) → List (List Char)
  | [] => out.reverse
  | segment :: rest =>
    if segment = ['.'] then removeDots (if rest = [] then [] :: out else out) rest
    else if segment = ['.', '.'] then
      removeDots (if rest = [] then [] :: popSegment out else popSegment out) rest
    else removeDots (segment :: out) rest

/-- The path that a reference is resolved to. -/
def resolve (path : List Char) : List Char :=
  ['/'].intercalate (removeDots [] (path.splitOn '/'))

/-- No segment is one of dots. -/
def NoDots (path : List Char) : Prop := ∀ s ∈ path.splitOn '/', s ≠ ['.'] ∧ s ≠ ['.', '.']

instance (path : List Char) : Decidable (NoDots path) :=
  inferInstanceAs (Decidable (∀ s ∈ path.splitOn '/', _))

theorem noDots_append {a b : List Char} : NoDots (a ++ '/' :: b) ↔ NoDots a ∧ NoDots b := by
  rw [NoDots, List.splitOn_append_cons_self, List.forall_mem_append]
  rfl

theorem removeDots_eq_self {segments : List (List Char)}
    (h : ∀ s ∈ segments, s ≠ ['.'] ∧ s ≠ ['.', '.']) (out : List (List Char)) :
    removeDots out segments = out.reverse ++ segments := by
  induction segments generalizing out with
  | nil => simp [removeDots]
  | cons s rest ih =>
    obtain ⟨hs, hrest⟩ := List.forall_mem_cons.mp h
    rw [removeDots, if_neg hs.1, if_neg hs.2, ih hrest]
    simp

theorem resolve_eq_self {path : List Char} (h : NoDots path) : resolve path = path := by
  rw [resolve, removeDots_eq_self h, List.reverse_nil, List.nil_append, List.intercalate_splitOn]

/-! ### Literal text -/

/-- A character that stands for itself wherever it is. -/
def isUnreserved (c : Char) : Bool := c.isAlphanum || c = '-' || c = '.' || c = '_' || c = '~'

/-- A character that stands for itself in a segment of a path. -/
def isPathChar (c : Char) : Bool :=
  isUnreserved c || c = '!' || c = '$' || ('&' ≤ c && c ≤ ',') || c = ':' || c = ';' || c = '=' ||
    c = '@'

/-- A path that a reference carries as it is. -/
structure IsLiteral (path : List Char) : Prop where
  chars : ∀ c ∈ path, isPathChar c ∨ c = '/'
  dots : NoDots path

theorem isLiteral_append {a b : List Char} :
    IsLiteral (a ++ '/' :: b) ↔ IsLiteral a ∧ IsLiteral b := by
  constructor
  · rintro ⟨hchars, hdots⟩
    obtain ⟨ha, hb⟩ := List.forall_mem_append.mp hchars
    obtain ⟨hdots, hdots'⟩ := noDots_append.mp hdots
    exact ⟨⟨ha, hdots⟩, ⟨fun c hc => hb c (List.mem_cons_of_mem _ hc), hdots'⟩⟩
  · rintro ⟨ha, hb⟩
    refine ⟨List.forall_mem_append.mpr ⟨ha.chars, ?_⟩, noDots_append.mpr ⟨ha.dots, hb.dots⟩⟩
    exact List.forall_mem_cons.mpr ⟨.inr rfl, hb.chars⟩

/-- A segment, if it is none of dots. -/
theorem isLiteral_segment {s : List Char} (h : ∀ c ∈ s, isPathChar c) (hdot : s ≠ ['.'])
    (hdots : s ≠ ['.', '.']) : IsLiteral s := by
  have hslash : '/' ∉ s := fun hmem => absurd (h _ hmem) (by decide)
  refine ⟨fun c hc => .inl (h c hc), ?_⟩
  rw [NoDots, List.splitOn_eq_singleton hslash]
  exact fun x hx => by rw [List.mem_singleton.mp hx]; exact ⟨hdot, hdots⟩

/-- The path that is asked for by somebody who follows a reference, with the escapes decoded that are
    not kept. -/
def requested (keep : Char → Bool) (url : List Char) : List Char :=
  percentDecode keep (resolve (urlPath url))

theorem requested_eq_self {keep : Char → Bool} {path : List Char} (h : IsLiteral path) :
    requested keep path = path := by
  have hnot : ∀ c, ¬ (isPathChar c ∨ c = '/') → c ∉ path := fun c hc hmem => hc (h.chars c hmem)
  rw [requested, urlPath_eq_self (hnot '#' (by decide)) (hnot '?' (by decide)),
    resolve_eq_self h.dots, percentDecode_eq_self (hnot '%' (by decide))]

end Distribd.Schemes
