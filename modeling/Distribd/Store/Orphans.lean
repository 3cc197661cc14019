import Distribd.Schemes.Worklist
import Distribd.Store.Action

/-! What the collector calls orphaned (`get_orphaned_blobs`, `get_orphaned_manifests` of
    `store/mod.rs`). A manifest is orphaned when no tag has it as its value. A blob is orphaned when
    the worklist that starts with the dependencies of all stored manifests, and follows the
    dependencies of stored blobs, never visits it. Dependency lists are data from clients: they may
    be cyclic, name their own record, share entries or name digests without a record; the search
    ends on all of them. `getOrphanedBlobs_get` and `getOrphanedManifests_get` say what the two
    functions return, for every order of the hash sets. -/

namespace Distribd.Store
open Schemes

/-- The dependencies recorded for a digest; none if there is no record or no list. -/
def dependenciesOf (o : Option Object) : List Digest := (o.bind Object.dependencies).getD []

/-- All digests that the records of a tree name as dependencies. -/
def allDependencies (t : ObjectTree) : Finset Digest :=
  (t.toList.flatMap fun (_, o) => dependenciesOf (some o)).toFinset

/-- `get_orphaned_blobs`. Every digest the loop can visit is a dependency of some record, so their
    number bounds its turns. -/
def getOrphanedBlobs (order : ℕ → Iteration Digest) (s : Trees) : ObjectTree :=
  let visiting := allDependencies s.manifests
  let turns := (visiting ∪ allDependencies s.blobs).card
  let visited := (search (fun d => dependenciesOf s.blobs[d]?) order turns ⟨visiting, ∅⟩).visited
  s.blobs.filter fun d _ => d ∉ visited

/-- `get_orphaned_manifests`. -/
def getOrphanedManifests (s : Trees) : ObjectTree :=
  let tags := (s.tags.toList.map Prod.snd).toFinset
  s.manifests.filter fun d _ => d ∉ tags

/-! ### What they return -/

/-- `d` is a dependency of a stored manifest, or of a stored blob that is reachable in this way. -/
def Reachable (s : Trees) (d : Digest) : Prop :=
  Reaches (fun d => dependenciesOf s.blobs[d]?) (allDependencies s.manifests) d

/-- Some tag has the manifest `d` as its value. -/
def Tagged (s : Trees) (d : Digest) : Prop := ∃ key : TagKey, s.tags[key]? = some d

theorem mem_allDependencies {t : ObjectTree} {d : Digest} :
    d ∈ allDependencies t ↔ ∃ e : Digest, d ∈ dependenciesOf t[e]? := by
  simp only [allDependencies, List.mem_toFinset, List.mem_flatMap, Prod.exists,
    Std.ExtTreeMap.mem_toList_iff_getElem?_eq_some]
  constructor
  · rintro ⟨e, o, ho, hd⟩
    exact ⟨e, by rwa [ho]⟩
  · rintro ⟨e, hd⟩
    cases ho : t[e]? with
    | none => simp [ho, dependenciesOf] at hd
    | some o => exact ⟨e, o, ho, by rwa [ho] at hd⟩

/-- ORPHANED BLOBS are exactly the unreachable ones. -/
theorem getOrphanedBlobs_get (order : ℕ → Iteration Digest) (s : Trees) (d : Digest) (o : Object) :
    (getOrphanedBlobs order s)[d]? = some o ↔ s.blobs[d]? = some o ∧ ¬ Reachable s d := by
  have hvisited := mem_search_visited (fun d => dependenciesOf s.blobs[d]?) order
    (allDependencies s.manifests) (allDependencies s.manifests ∪ allDependencies s.blobs)
    Finset.subset_union_left
    (fun x _ y hy => Finset.mem_union_right _ (mem_allDependencies.mpr ⟨x, hy⟩)) (x := d)
  rw [getOrphanedBlobs, Std.ExtTreeMap.getElem?_filter', Option.filter_eq_some_iff,
    decide_eq_true_iff, hvisited, Reachable]

/-- The digests that the loop of `get_orphaned_blobs` can come across. -/
def edgeTargets (s : Trees) : Finset Digest := allDependencies s.manifests ∪ allDependencies s.blobs

/-- With a turn for each digest it can come across, the loop has nothing left to visit. -/
theorem orphanSearch_done (order : ℕ → Iteration Digest) (s : Trees) {turns : ℕ}
    (h : (edgeTargets s).card ≤ turns) :
    (search (fun d => dependenciesOf s.blobs[d]?) order turns
      ⟨allDependencies s.manifests, ∅⟩).visiting = ∅ := by
  refine search_done order (edgeTargets s) ?_ turns (by simp) Finset.subset_union_left ?_
  · intro x _ y hy
    exact Finset.mem_union_right _ (mem_allDependencies.mpr ⟨x, hy⟩)
  · simpa using h

/-- THE LOOP ENDS AND IS EXACT: whatever the trees hold and in whatever order the hash set hands out
    its elements, the loop runs out of digests to visit, and what is returned are the blob records,
    unchanged, whose digest no path leads to that starts with a dependency of a stored manifest and
    goes on along dependencies of stored blobs. -/
theorem orphanedBlobs_exact (order : ℕ → Iteration Digest) (s : Trees) :
    (∀ turns, (edgeTargets s).card ≤ turns →
      (search (fun d => dependenciesOf s.blobs[d]?) order turns
        ⟨allDependencies s.manifests, ∅⟩).visiting = ∅) ∧
    ∀ d o, (getOrphanedBlobs order s)[d]? = some o ↔
      s.blobs[d]? = some o ∧ ¬ ∃ m r : Digest, r ∈ dependenciesOf s.manifests[m]? ∧
        Relation.ReflTransGen (fun a b => b ∈ dependenciesOf s.blobs[a]?) r d := by
  refine ⟨fun turns h => orphanSearch_done order s h, ?_⟩
  intro d o
  have hreach : Reachable s d ↔ ∃ m r : Digest, r ∈ dependenciesOf s.manifests[m]? ∧
      Relation.ReflTransGen (fun a b => b ∈ dependenciesOf s.blobs[a]?) r d := by
    constructor
    · rintro ⟨r, hr, hpath⟩
      obtain ⟨m, hm⟩ := mem_allDependencies.mp hr
      exact ⟨m, r, hm, hpath⟩
    · rintro ⟨m, r, hm, hpath⟩
      exact ⟨r, mem_allDependencies.mpr ⟨m, hm⟩, hpath⟩
  rw [getOrphanedBlobs_get, hreach]

/-- ORPHANED MANIFESTS are exactly the untagged ones. -/
theorem getOrphanedManifests_get (s : Trees) (d : Digest) (o : Object) :
    (getOrphanedManifests s)[d]? = some o ↔ s.manifests[d]? = some o ∧ ¬ Tagged s d := by
  have htags : d ∈ (s.tags.toList.map Prod.snd).toFinset ↔ Tagged s d := by
    simp [Tagged, Std.ExtTreeMap.mem_toList_iff_getElem?_eq_some]
  rw [getOrphanedManifests, Std.ExtTreeMap.getElem?_filter', Option.filter_eq_some_iff,
    decide_eq_true_iff, htags]

/-! ### Where edges come from -/

theorem mem_dependenciesOf_act {o : Option Object} {oa : ObjectAction} {x : Digest}
    (hx : x ∈ dependenciesOf (act o oa)) :
    x ∈ dependenciesOf o ∨ ∃ ts e ds ct, oa = .info ts e ds ct ∧ x ∈ ds := by
  cases oa with
  | info ts e ds ct =>
    cases o with
    | none => simp [act, dependenciesOf] at hx
    | some o => exact .inr ⟨ts, e, ds, ct, rfl, by simpa [act, dependenciesOf] using hx⟩
  | unstored ts e l =>
    refine .inl ?_
    cases o with
    | none => simp [act, dependenciesOf] at hx
    | some o => by_cases hl : o.locations.erase l = ∅ <;> simp_all [act, dependenciesOf]
  | stored | mounted | unmounted | stat =>
    refine .inl ?_
    cases o <;> simp_all [act, dependenciesOf, fresh]

end Distribd.Store
