import Distribd.Schemes.ByteKeys
import Distribd.Store.Apply

/-! Reading the tags. The keys of the `tags` tree are `bincode` encodings of a `TagKey`, the
    repository first, and sled iterates in byte order. `get_tags` starts at the key of the empty tag
    and stops at the first row of another repository; since the tags of a repository form one block
    of the byte order, it lists exactly them (`mem_getTags`). -/

namespace Distribd.Store
open Schemes

/-- `options().with_big_endian().serialize(&TagKey { .. })`; a `RepositoryName` is its string. -/
def encodeTagKey (key : TagKey) : List ℕ :=
  encodeString key.repository.name ++ encodeString key.tag

/-- `get_tags`. -/
def getTags (s : Trees) (repository : RepositoryName) : List String :=
  (scan (fun row => encodeTagKey row.1) (encodeTagKey ⟨repository, ""⟩)
    (fun row => row.1.repository = repository) s.tags.toList).map fun row => row.1.tag

/-- `get_tag`. -/
def getTag (s : Trees) (repository : RepositoryName) (tag : String) : Option Digest :=
  s.tags[(⟨repository, tag⟩ : TagKey)]?

/-- `get_by_tag` up to the file: the digest and the content type of the response; `none` is
    `ManifestNotFound`. -/
def getByTag (s : Trees) (repository : RepositoryName) (tag : String) : Option (Digest × String) :=
  match getTag s repository tag with
  | none => none
  | some digest =>
    match s.manifests[digest]? with
    | none => none
    | some manifest =>
      if repository ∈ manifest.repositories then
        match manifest.contentType, manifest.size with
        | some contentType, some _ => some (digest, contentType)
        | _, _ => none
      else none

theorem start_le_encodeTagKey {key : TagKey} {r : RepositoryName} (h : key.repository = r) :
    encodeTagKey ⟨r, ""⟩ ≤ encodeTagKey key := by
  subst h
  rw [← not_lt]
  exact List.append_left_le (not_lt.mpr (encodeString_empty_le key.tag))

/-- Between the first possible key of a repository and a key of it there are only keys of it. -/
theorem repository_of_between {key key' : TagKey} {r : RepositoryName}
    (hstart : encodeTagKey ⟨r, ""⟩ ≤ encodeTagKey key) (hle : encodeTagKey key ≤ encodeTagKey key')
    (hkey' : key'.repository = r) : key.repository = r := by
  subst hkey'
  obtain ⟨rest, hrest⟩ := prefix_of_between hstart hle
  have hname := (encodeString_append_inj hrest).1
  exact congrArg RepositoryName.mk hname.symm

/-- `get_tags` lists the tags of the repository. -/
theorem mem_getTags {s : Trees} {r : RepositoryName} {t : String} :
    t ∈ getTags s r ↔ ∃ d, getTag s r t = some d := by
  have hblock : ∀ x y : TagKey × Digest, encodeTagKey ⟨r, ""⟩ ≤ encodeTagKey x.1 →
      encodeTagKey x.1 ≤ encodeTagKey y.1 → decide (y.1.repository = r) = true →
        decide (x.1.repository = r) = true := by
    intro x y hstart hle hy
    rw [decide_eq_true_eq] at hy ⊢
    exact repository_of_between hstart hle hy
  simp only [getTags, List.mem_map, mem_scan _ _ _ hblock, decide_eq_true_eq,
    Std.ExtTreeMap.mem_toList_iff_getElem?_eq_some, Prod.exists]
  constructor
  · rintro ⟨⟨r', t'⟩, d, ⟨hd, -, rfl⟩, rfl⟩
    exact ⟨d, hd⟩
  · rintro ⟨d, hd⟩
    exact ⟨⟨r, t⟩, d, ⟨hd, start_le_encodeTagKey rfl, rfl⟩, rfl⟩

/-- None twice. -/
theorem nodup_getTags (s : Trees) (r : RepositoryName) : (getTags s r).Nodup := by
  have hrows : s.tags.toList.Nodup := by
    refine s.tags.ordered_keys_toList.imp ?_
    rintro a b hlt rfl
    simp at hlt
  have hscan : ∀ rows : List (TagKey × Digest), rows.Nodup →
      (∀ row ∈ rows, row.1.repository = r ∧ s.tags[row.1]? = some row.2) →
        (rows.map fun row => row.1.tag).Nodup := by
    intro rows hnodup hall
    refine hnodup.map_on ?_
    rintro ⟨⟨r₁, t₁⟩, d₁⟩ h₁ ⟨⟨r₂, t₂⟩, d₂⟩ h₂ htag
    obtain ⟨hr₁, hd₁⟩ := hall _ h₁
    obtain ⟨hr₂, hd₂⟩ := hall _ h₂
    obtain rfl : t₁ = t₂ := htag
    obtain rfl : r₁ = r := hr₁
    obtain rfl : r₂ = r₁ := hr₂
    obtain rfl : d₁ = d₂ := Option.some.inj (hd₁.symm.trans hd₂)
    rfl
  have hsub : (scan (fun row => encodeTagKey row.1) (encodeTagKey ⟨r, ""⟩)
      (fun row => decide (row.1.repository = r)) s.tags.toList).Sublist
        (s.tags.toList.insertionSort (encodeTagKey ·.1 ≤ encodeTagKey ·.1)) :=
    (List.takeWhile_sublist _).trans List.filter_sublist
  refine hscan _ (((List.perm_insertionSort _ _).nodup_iff.mpr hrows).sublist hsub) ?_
  intro row hrow
  refine ⟨by simpa using List.mem_takeWhile_imp hrow, ?_⟩
  have hmem := (List.perm_insertionSort _ _).mem_iff.mp (hsub.subset hrow)
  exact Std.ExtTreeMap.mem_toList_iff_getElem?_eq_some.mp hmem

end Distribd.Store
