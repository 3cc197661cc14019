import Distribd.Types
import Distribd.Schemes.UnixPath

/-! Digests as text, and the paths of objects (`types/digest.rs`, `utils.rs`). Parsing asks for the
    prefix `sha256:` and for nothing else: the hash may be empty, may have any characters, and ends
    at the next colon. The path functions cut the hash at bytes 2, 4 and 6 and push the pieces, so
    they rely on being given the digest of something: 64 lower-case hexadecimal digits
    (`WellFormed`). For such digests they return, add the five expected components to the root
    (`getObjectPath_components`) and keep different objects apart (`getObjectPath_injective`). -/

namespace Distribd.Registry
open Schemes

/-! ### Text -/

/-- The two pieces of `value.split(':')` that make a digest. The `unwrap`s of the source take a
    first and a second piece, which a value with the prefix has. -/
def digestOfPieces : List (List Char) → Option Digest
  | algo :: hash :: _ => some ⟨String.ofList algo, String.ofList hash⟩
  | _ => none

/-- `Digest::from_str`; `none`: an error. -/
def Digest.fromStr (s : String) : Option Digest :=
  if "sha256:".toList.isPrefixOf s.toList then digestOfPieces (s.toList.splitOn ':') else none

/-- `Digest::try_from`, the same code, which serde uses. -/
def Digest.tryFrom (value : String) : Option Digest :=
  if "sha256:".toList.isPrefixOf value.toList then digestOfPieces (value.toList.splitOn ':')
  else none

/-! ### Paths -/

/-- The directory of a kind. -/
def directory : Kind → PathBuf
  | .blob => "blobs".toList
  | .manifest => "manifests".toList

/-- The path functions, which differ in the directory; `none`: a slice panics. The directories are
    created on the way. -/
def getObjectPath (root : String) (k : Kind) (digest : Digest) : Option PathBuf :=
  let digestString := digest.hash.toList
  (slice digestString 0 2).bind fun xx =>
    (slice digestString 2 4).bind fun yy =>
      (slice digestString 4 6).bind fun zz =>
        (sliceFrom digestString 6).map fun rest =>
          (((((PathBuf.push root.toList (directory k)).push xx).push yy).push zz).push rest)

/-- `get_blob_path`. -/
def getBlobPath (root : String) (digest : Digest) : Option PathBuf :=
  getObjectPath root .blob digest

/-- `get_manifest_path`. -/
def getManifestPath (root : String) (digest : Digest) : Option PathBuf :=
  getObjectPath root .manifest digest

/-! ### Well-formed digests -/

/-- The characters of `HEXLOWER`. -/
def hexLower : List Char :=
  ['0', '1', '2', '3', '4', '5', '6', '7', '8', '9', 'a', 'b', 'c', 'd', 'e', 'f']

/-- What `HEXLOWER.encode` makes of 32 bytes. -/
def IsHash (hash : String) : Prop := hash.toList.length = 64 ∧ ∀ c ∈ hash.toList, c ∈ hexLower

/-- `sha256` with 64 lower-case hexadecimal digits. -/
def WellFormed (d : Digest) : Prop := d.algo = "sha256" ∧ IsHash d.hash

instance (hash : String) : Decidable (IsHash hash) := inferInstanceAs (Decidable (_ ∧ _))
instance (d : Digest) : Decidable (WellFormed d) := inferInstanceAs (Decidable (_ ∧ _))

theorem hexLower_ascii : ∀ c ∈ hexLower, c.utf8Size = 1 := by
  intro c hc
  rw [Char.utf8Size_eq_one_iff]
  simp only [hexLower, List.mem_cons, List.not_mem_nil, or_false] at hc
  rcases hc with rfl | rfl | rfl | rfl | rfl | rfl | rfl | rfl | rfl | rfl | rfl | rfl | rfl | rfl |
    rfl | rfl <;> decide

/-- A piece of a hash is a plain name. -/
theorem plain_of_hexLower {name : PathBuf} (hne : name ≠ []) (h : ∀ c ∈ name, c ∈ hexLower) :
    PathBuf.Plain name := by
  refine ⟨hne, ?_, ?_⟩
  · rintro rfl
    exact absurd (h '.' (List.mem_singleton_self _)) (by decide)
  · intro hslash
    exact absurd (h '/' hslash) (by decide)

theorem plain_directory (k : Kind) : PathBuf.Plain (directory k) := by
  cases k <;> exact ⟨by decide, by decide, by decide⟩

/-- Cut after two, four and six characters. -/
theorem exists_pieces {s : List Char} (h : 6 ≤ s.length) :
    ∃ xx yy zz rest, s = xx ++ yy ++ zz ++ rest ∧
    xx.length = 2 ∧ yy.length = 2 ∧ zz.length = 2 := by
  refine ⟨s.take 2, (s.drop 2).take 2, (s.drop 4).take 2, s.drop 6, ?_, ?_⟩
  · have hzz : (s.drop 4).take 2 ++ s.drop 6 = s.drop 4 := by
      simpa using List.take_append_drop 2 (s.drop 4)
    have hyy : (s.drop 2).take 2 ++ s.drop 4 = s.drop 2 := by
      simpa using List.take_append_drop 2 (s.drop 2)
    rw [List.append_assoc, hzz, List.append_assoc, hyy, List.take_append_drop]
  · simp only [List.length_take, List.length_drop]
    omega

/-- The slices of a string of one-byte characters that is cut so. -/
theorem slices_of_pieces {xx yy zz rest : List Char}
    (hascii : ∀ c ∈ xx ++ yy ++ zz ++ rest, c.utf8Size = 1) (hxx : xx.length = 2)
    (hyy : yy.length = 2) (hzz : zz.length = 2) :
    slice (xx ++ yy ++ zz ++ rest) 0 2 = some xx ∧ slice (xx ++ yy ++ zz ++ rest) 2 4 = some yy ∧
      slice (xx ++ yy ++ zz ++ rest) 4 6 = some zz ∧
      sliceFrom (xx ++ yy ++ zz ++ rest) 6 = some rest := by
  have hlen : 6 ≤ (xx ++ yy ++ zz ++ rest).length := by
    simp only [List.length_append]
    omega
  rw [slice_ascii hascii (by omega) (by omega), slice_ascii hascii (by omega) (by omega),
    slice_ascii hascii (by omega) (by omega), sliceFrom_ascii hascii (by omega)]
  simp [List.take_append, List.drop_append, hxx, hyy, hzz, List.take_of_length_le,
    List.drop_of_length_le]

/-- The path of a well-formed digest: two, two and two digits, and the other 58. -/
theorem getObjectPath_components {root : String} {k : Kind} {d : Digest} (h : WellFormed d) :
    ∃ path xx yy zz rest, getObjectPath root k d = some path ∧
      path.components = PathBuf.components root.toList ++ [directory k, xx, yy, zz, rest] ∧
      d.hash.toList = xx ++ yy ++ zz ++ rest ∧
      xx.length = 2 ∧ yy.length = 2 ∧ zz.length = 2 ∧ rest.length = 58 := by
  obtain ⟨-, hlen, hhex⟩ := h
  obtain ⟨xx, yy, zz, rest, hs, hxx, hyy, hzz⟩ := exists_pieces (s := d.hash.toList) (by omega)
  rw [hs] at hlen hhex
  have hascii : ∀ c ∈ xx ++ yy ++ zz ++ rest, c.utf8Size = 1 :=
    fun c hc => hexLower_ascii c (hhex c hc)
  obtain ⟨hx, hy, hz, hr⟩ := slices_of_pieces hascii hxx hyy hzz
  have hrest : rest.length = 58 := by
    simp only [List.length_append] at hlen
    omega
  -- every piece of the hash is a plain name
  have hpiece : ∀ piece : PathBuf, piece.length ≠ 0 → piece ⊆ xx ++ yy ++ zz ++ rest →
      PathBuf.Plain piece := by
    intro piece hne hsub
    exact plain_of_hexLower (fun hnil => hne (by rw [hnil]; rfl)) fun c hc => hhex c (hsub hc)
  have hpx := hpiece xx (by omega) fun c hc => by simp [hc]
  have hpy := hpiece yy (by omega) fun c hc => by simp [hc]
  have hpz := hpiece zz (by omega) fun c hc => by simp [hc]
  have hpr := hpiece rest (by omega) fun c hc => by simp [hc]
  refine ⟨((((PathBuf.push root.toList (directory k)).push xx).push yy).push zz).push rest,
    xx, yy, zz, rest, ?_, ?_, hs, hxx, hyy, hzz, hrest⟩
  · simp only [getObjectPath, hs, hx, hy, hz, hr, Option.bind_some, Option.map_some]
  · rw [PathBuf.components_push hpr, PathBuf.components_push hpz, PathBuf.components_push hpy,
      PathBuf.components_push hpx, PathBuf.components_push (plain_directory k)]
    simp

/-- Two objects with one path are one object. -/
theorem getObjectPath_injective {root : String} {k k' : Kind} {d d' : Digest} (h : WellFormed d)
    (h' : WellFormed d') (heq : getObjectPath root k d = getObjectPath root k' d') :
    k = k' ∧ d = d' := by
  obtain ⟨path, xx, yy, zz, rest, hpath, hcomp, hs, -⟩ :
      ∃ path xx yy zz rest, getObjectPath root k d = some path ∧ _ := getObjectPath_components h
  obtain ⟨path', xx', yy', zz', rest', hpath', hcomp', hs', -⟩ :
      ∃ path xx yy zz rest, getObjectPath root k' d' = some path ∧ _ := getObjectPath_components h'
  obtain rfl : path = path' := Option.some.inj (hpath.symm.trans (heq.trans hpath'))
  have hnames := List.append_cancel_left (hcomp.symm.trans hcomp')
  simp only [List.cons.injEq, and_true] at hnames
  obtain ⟨hk, rfl, rfl, rfl, rfl⟩ := hnames
  have hhash : d.hash = d'.hash := String.toList_injective (hs.trans hs'.symm)
  have hd : d = d' := by
    obtain ⟨algo, hash⟩ := d
    obtain ⟨algo', hash'⟩ := d'
    obtain rfl : algo = algo' := h.1.trans h'.1.symm
    obtain rfl : hash = hash' := hhash
    rfl
  refine ⟨?_, hd⟩
  cases k <;> cases k' <;> first | rfl | exact absurd hk (by decide)

/-! ### A digest for worked inputs -/

theorem isHash_ofList {l : List Char} (h : l.length = 64 ∧ ∀ c ∈ l, c ∈ hexLower) :
    IsHash (String.ofList l) := by
  unfold IsHash
  rw [String.toList_ofList]
  exact h

set_option maxRecDepth 2000 in
theorem isHash_helloDigest : IsHash helloDigest.hash := by
  have h : helloDigest.hash = String.ofList
      ['0', '9', 'c', 'a', '7', 'e', '4', 'e', 'a', 'a', '6', 'e', '8', 'a', 'e', '9', 'c', '7',
       'd', '2', '6', '1', '1', '6', '7', '1', '2', '9', '1', '8', '4', '8', '8', '3', '6', '4',
       '4', 'd', '0', '7', 'd', 'f', 'b', 'a', '7', 'c', 'b', 'f', 'b', 'c', '4', 'c', '8', 'a',
       '2', 'e', '0', '8', '3', '6', '0', 'd', '5', 'b'] := rfl
  rw [h]
  refine isHash_ofList ⟨rfl, ?_⟩
  simp [hexLower]

theorem wellFormed_helloDigest : WellFormed helloDigest := ⟨rfl, isHash_helloDigest⟩

end Distribd.Registry
