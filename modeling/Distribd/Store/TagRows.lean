import Distribd.Schemes.TreeMap
import Distribd.Store.Tags

/-! The `tags` tree as sled has it (`store/mod.rs`): rows under the bytes of their keys, in byte
    order. `tx_put_tag` writes a row, `get_tag` looks one up, and `get_tags` decodes the rows from
    the key of the empty tag on until it comes to one of another repository. The rows represent the
    tree of `TagKey`s that the rest of this development works with (`represents_tagRows`), and for
    every history of tags the answers are the ones that one expects of a finite map
    (`get_tags_exact`).

    A value is what its bytes decode to. -/

namespace Distribd.Store
open Schemes

/-! ### The rows -/

/-- The sled tree `tags`. -/
abbrev TagRows := Std.ExtTreeMap (List ℕ) Digest

/-- `deserialize::<TagKey>`, which refuses trailing bytes. -/
def decodeTagKey (bytes : List ℕ) : Option TagKey :=
  (takeString bytes).bind fun (name, bytes) =>
    (takeString bytes).bind fun (tag, bytes) =>
      if bytes = [] then some ⟨⟨name⟩, tag⟩ else none

/-- `tx_put_tag`. -/
def txPutTag (rows : TagRows) (repository : RepositoryName) (tag : String) (digest : Digest) :
    TagRows :=
  rows.insert (encodeTagKey ⟨repository, tag⟩) digest

/-- What an action does to the rows. -/
def putRow (rows : TagRows) : RegistryAction → TagRows
  | .hashTagged _ digest repository tag _ => txPutTag rows repository tag digest
  | _ => rows

/-- The rows after a history. -/
def tagRows (actions : List RegistryAction) : TagRows := actions.foldl putRow ∅

/-- The loop of `get_tags`; `none`: an `unwrap` panics. -/
def readTags (repository : RepositoryName) : List (List ℕ × Digest) → Option (List String)
  | [] => some []
  | (key, _) :: rows =>
    match decodeTagKey key with
    | some key =>
      if key.repository ≠ repository then some []
      else (readTags repository rows).map (key.tag :: ·)
    | none => none

/-- `get_tags` on the rows. -/
def getTagsOfRows (rows : TagRows) (repository : RepositoryName) : Option (List String) :=
  let key := encodeTagKey ⟨repository, ""⟩
  readTags repository (rows.toList.filter fun row => (compare key row.1).isLE)

/-- `get_tag` on the rows. -/
def getTagOfRows (rows : TagRows) (repository : RepositoryName) (tag : String) : Option Digest :=
  rows[encodeTagKey ⟨repository, tag⟩]?

/-! ### Keys -/

theorem decodeTagKey_encodeTagKey (key : TagKey) : decodeTagKey (encodeTagKey key) = some key := by
  have htag := takeString_append key.tag []
  rw [List.append_nil] at htag
  rw [decodeTagKey, encodeTagKey, takeString_append, Option.bind_some]
  simp only [htag, Option.bind_some, if_true]

theorem encodeTagKey_injective : Function.Injective encodeTagKey := by
  intro key key' h
  have hdecode := decodeTagKey_encodeTagKey key
  rw [h, decodeTagKey_encodeTagKey] at hdecode
  exact (Option.some.inj hdecode).symm

/-! ### The rows and the tree -/

/-- The tags after a history, as the rest of the state machine has them. -/
def putTag (t : TagTree) : RegistryAction → TagTree
  | .hashTagged _ digest repository tag _ => t.insert ⟨repository, tag⟩ digest
  | _ => t

theorem represents_foldl {rows : TagRows} {t : TagTree} (h : Represents encodeTagKey id rows t)
    (actions : List RegistryAction) :
    Represents encodeTagKey id (actions.foldl putRow rows) (actions.foldl putTag t) := by
  induction actions generalizing rows t with
  | nil => exact h
  | cons a actions ih =>
    refine ih ?_
    cases a with
    | hashTagged ts digest repository tag user =>
      exact h.insert encodeTagKey_injective ⟨repository, tag⟩ digest
    | _ => exact h

theorem applyActions_tags {s s' : Trees} {actions : List RegistryAction}
    (h : applyActions s actions = some s') : s'.tags = actions.foldl putTag s.tags := by
  induction actions generalizing s with
  | nil =>
    obtain rfl := Option.some.inj h
    rfl
  | cons a actions ih =>
    obtain ⟨m, hm, hrest⟩ := journal.run_cons_some h
    rw [ih hrest, List.foldl_cons]
    rcases applyAction_tags hm with ⟨ts, d, r, tag, u, rfl, heq⟩ | ⟨hother, heq⟩
    · rw [heq]
      rfl
    · rw [heq]
      cases a with
      | hashTagged ts d r t u => exact absurd rfl (hother ts d r t u)
      | _ => rfl

/-- SIMULATION: the rows represent the tags that every other part of the model works with. -/
theorem represents_tagRows {s : Trees} {actions : List RegistryAction}
    (h : applyActions .empty actions = some s) :
    Represents encodeTagKey id (tagRows actions) s.tags := by
  rw [applyActions_tags h]
  exact represents_foldl represents_empty actions

/-! ### Reading the rows -/

/-- Rows that decode are listed up to the first of another repository. -/
theorem readTags_eq (repository : RepositoryName) {rows : List (List ℕ × Digest)}
    (h : ∀ row ∈ rows, (decodeTagKey row.1).isSome) :
    readTags repository rows = some (((rows.filterMap fun row => decodeTagKey row.1).takeWhile
      fun key => key.repository = repository).map TagKey.tag) := by
  induction rows with
  | nil => rfl
  | cons row rows ih =>
    obtain ⟨key, hkey⟩ := Option.isSome_iff_exists.mp (h row (List.mem_cons_self ..))
    have hrest := ih fun row hrow => h row (List.mem_cons_of_mem _ hrow)
    have hkeys : ((row :: rows).filterMap fun row => decodeTagKey row.1) =
        key :: rows.filterMap fun row => decodeTagKey row.1 := List.filterMap_cons_some hkey
    rw [hkeys]
    simp only [readTags, hkey, ne_eq, ite_not]
    by_cases hrepo : key.repository = repository
    · rw [if_pos hrepo, hrest, List.takeWhile_cons_of_pos (by simpa using hrepo)]
      rfl
    · rw [if_neg hrepo, List.takeWhile_cons_of_neg (by simpa using hrepo)]
      rfl

section

variable {rows : TagRows} {t : TagTree}

/-- The keys from the first possible one of the repository on. -/
def keysFrom (rows : TagRows) (repository : RepositoryName) : List TagKey :=
  (rows.toList.filter fun row => (compare (encodeTagKey ⟨repository, ""⟩) row.1).isLE).filterMap
    fun row => decodeTagKey row.1

theorem mem_keysFrom (h : Represents encodeTagKey id rows t) {r : RepositoryName} {key : TagKey} :
    key ∈ keysFrom rows r ↔ t[key]?.isSome ∧ encodeTagKey ⟨r, ""⟩ ≤ encodeTagKey key := by
  simp only [keysFrom, List.mem_filterMap, List.mem_filter, Prod.exists, h.mem_toList,
    isLE_compare_iff, Option.isSome_iff_exists]
  constructor
  · rintro ⟨_, _, ⟨⟨i, v, hv, rfl, rfl⟩, hle⟩, hdecode⟩
    rw [decodeTagKey_encodeTagKey] at hdecode
    obtain rfl := Option.some.inj hdecode
    exact ⟨⟨v, hv⟩, hle⟩
  · rintro ⟨⟨v, hv⟩, hle⟩
    exact ⟨_, _, ⟨⟨key, v, hv, rfl, rfl⟩, hle⟩, decodeTagKey_encodeTagKey key⟩

/-- The keys come in byte order. -/
theorem pairwise_keysFrom (h : Represents encodeTagKey id rows t) (r : RepositoryName) :
    (keysFrom rows r).Pairwise fun key key' => encodeTagKey key < encodeTagKey key' := by
  rw [keysFrom, List.pairwise_filterMap]
  refine (rows.ordered_keys_toList.filter _).imp_of_mem ?_
  rintro ⟨k, d⟩ ⟨k', d'⟩ hmem hmem' hlt key hkey key' hkey'
  obtain ⟨i, v, -, rfl, -⟩ := h.mem_toList.mp (List.mem_of_mem_filter hmem)
  obtain ⟨i', v', -, rfl, -⟩ := h.mem_toList.mp (List.mem_of_mem_filter hmem')
  rw [decodeTagKey_encodeTagKey] at hkey hkey'
  obtain rfl := Option.some.inj hkey
  obtain rfl := Option.some.inj hkey'
  exact compare_eq_lt_iff.mp hlt

/-- The keys of the repository are a block, so that the scan finds them all. -/
theorem getTagsOfRows_eq (h : Represents encodeTagKey id rows t) (r : RepositoryName) :
    getTagsOfRows rows r =
      some (((keysFrom rows r).filter fun key => key.repository = r).map TagKey.tag) := by
  have hdecode : ∀ row ∈ rows.toList.filter
      fun row => (compare (encodeTagKey ⟨r, ""⟩) row.1).isLE, (decodeTagKey row.1).isSome := by
    rintro ⟨k, d⟩ hrow
    obtain ⟨i, v, -, rfl, -⟩ := h.mem_toList.mp (List.mem_of_mem_filter hrow)
    rw [decodeTagKey_encodeTagKey]
    rfl
  have hblock : (keysFrom rows r).Pairwise fun key key' =>
      decide (key'.repository = r) = true → decide (key.repository = r) = true := by
    refine (pairwise_keysFrom h r).imp_of_mem ?_
    intro key key' hkey _ hlt hrepo
    rw [decide_eq_true_eq] at hrepo ⊢
    exact repository_of_between ((mem_keysFrom h).mp hkey).2 hlt.le hrepo
  rw [getTagsOfRows, readTags_eq r hdecode]
  exact congrArg (fun keys => some (keys.map TagKey.tag)) (takeWhile_eq_filter _ hblock)

/-- `get_tags` lists the tags of the repository, each once. -/
theorem getTagsOfRows_spec (h : Represents encodeTagKey id rows t) (r : RepositoryName) :
    ∃ tags, getTagsOfRows rows r = some tags ∧ tags.Nodup ∧
      ∀ tag, tag ∈ tags ↔ t[(⟨r, tag⟩ : TagKey)]?.isSome := by
  refine ⟨_, getTagsOfRows_eq h r, ?_, ?_⟩
  · have hnodup : (keysFrom rows r).Nodup :=
      (pairwise_keysFrom h r).imp fun hlt heq => absurd (heq ▸ hlt) (lt_irrefl _)
    refine (hnodup.filter _).map_on ?_
    rintro ⟨r₁, t₁⟩ hkey₁ ⟨r₂, t₂⟩ hkey₂ htag
    have hr₁ : r₁ = r := by simpa using (List.mem_filter.mp hkey₁).2
    have hr₂ : r₂ = r := by simpa using (List.mem_filter.mp hkey₂).2
    have ht : t₁ = t₂ := htag
    rw [hr₁, hr₂, ht]
  · intro tag
    simp only [List.mem_map, List.mem_filter, mem_keysFrom h, decide_eq_true_eq]
    constructor
    · rintro ⟨⟨r', tag'⟩, ⟨⟨hsome, -⟩, hrepo⟩, htag⟩
      obtain rfl : r' = r := hrepo
      obtain rfl : tag' = tag := htag
      exact hsome
    · intro hsome
      exact ⟨⟨r, tag⟩, ⟨⟨hsome, start_le_encodeTagKey rfl⟩, rfl⟩, rfl⟩

end

/-! ### Histories -/

/-- The digest that an action tags so. -/
def taggedAs (repository : RepositoryName) (tag : String) : RegistryAction → Option Digest
  | .hashTagged _ d r t _ => if r = repository ∧ t = tag then some d else none
  | _ => none

/-- The digest of the last `HashTagged` of this repository and tag. -/
def lastTagged (actions : List RegistryAction) (repository : RepositoryName) (tag : String) :
    Option Digest :=
  (actions.filterMap (taggedAs repository tag)).getLast?

theorem putTag_get (t : TagTree) (a : RegistryAction) (r : RepositoryName) (tag : String) :
    (putTag t a)[(⟨r, tag⟩ : TagKey)]? = (taggedAs r tag a).or t[(⟨r, tag⟩ : TagKey)]? := by
  cases a with
  | hashTagged ts d r' tag' u =>
    rw [putTag, Std.ExtTreeMap.getElem?_insert]
    simp only [taggedAs, Std.compare_eq_iff_eq, TagKey.mk.injEq]
    split <;> rfl
  | _ => rfl

/-- The tree has the last one. -/
theorem foldl_putTag_get (actions : List RegistryAction) (r : RepositoryName) (tag : String) :
    (actions.foldl putTag ∅)[(⟨r, tag⟩ : TagKey)]? = lastTagged actions r tag := by
  induction actions using List.reverseRecOn with
  | nil => rfl
  | append_singleton actions a ih =>
    rw [List.foldl_append, List.foldl_cons, List.foldl_nil, putTag_get, ih, lastTagged, lastTagged,
      List.filterMap_append, List.getLast?_append]
    cases h : taggedAs r tag a with
    | none => simp [h]
    | some d => simp [h]

/-- EXACTLY THE TAGS: after every history `get_tags` lists, without a panic, each tag of the
    repository once and no other, and `get_tag` gives the digest of the last `HashTagged`. -/
theorem get_tags_exact (actions : List RegistryAction) (r : RepositoryName) :
    (∃ tags, getTagsOfRows (tagRows actions) r = some tags ∧ tags.Nodup ∧
      ∀ tag, tag ∈ tags ↔ (lastTagged actions r tag).isSome) ∧
    ∀ tag, getTagOfRows (tagRows actions) r tag = lastTagged actions r tag := by
  have h : Represents encodeTagKey id (tagRows actions) (actions.foldl putTag ∅) :=
    represents_foldl represents_empty actions
  refine ⟨?_, ?_⟩
  · obtain ⟨tags, htags, hnodup, hmem⟩ := getTagsOfRows_spec h r
    refine ⟨tags, htags, hnodup, ?_⟩
    intro tag
    rw [hmem, foldl_putTag_get]
  · intro tag
    rw [getTagOfRows, h.get, foldl_putTag_get, Option.map_id_fun, id]

/-- The answers on the rows are those on the tree. -/
theorem getTagsOfRows_getTags {s : Trees} {actions : List RegistryAction}
    (h : applyActions .empty actions = some s) (r : RepositoryName) :
    ∃ tags, getTagsOfRows (tagRows actions) r = some tags ∧ tags.Nodup ∧
      ∀ tag, tag ∈ tags ↔ tag ∈ getTags s r := by
  obtain ⟨tags, htags, hnodup, hmem⟩ := getTagsOfRows_spec (represents_tagRows h) r
  refine ⟨tags, htags, hnodup, ?_⟩
  intro tag
  rw [hmem, mem_getTags, getTag, Option.isSome_iff_exists]

end Distribd.Store
