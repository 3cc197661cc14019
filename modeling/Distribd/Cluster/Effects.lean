import Distribd.Store.Holders
import Distribd.Cluster.Submit

/-! What the transactions of the handlers do to the trees once they are committed. One event of the
    cluster moves the replay of the log by one transaction, by one membership, or not at all
    (`clusterStep_replay`). Of all requests only a manifest PUT mounts a manifest, describes an
    object or moves a tag (`transaction_onlyPushed`); what it leaves behind is `put_manifests` and
    `put_tags`, and `unpushed_manifests` is what the others leave of the manifests. -/

namespace Distribd.Cluster
open Schemes Store

/-! ### One event -/

/-- Everything one event does to what the replicas hold. -/
theorem clusterStep_replay {s s' : State} {e : Event} {db' : Db} (h : clusterStep s e = some s')
    (h' : replay s'.log = some db') :
    ∃ db, replay s.log = some db ∧
      ((∃ i leader sub, e = .commit i leader ∧ s.underWay[i]? = some sub ∧
          s'.underWay = s.underWay.eraseIdx i ∧
          applyActions db.toTrees sub.actions = some db'.toTrees ∧
          db'.getLastMembership = db.getLastMembership) ∨
        (∃ leader mem, e = .membership leader mem ∧ db'.toTrees = db.toTrees ∧
          db'.getLastMembership.membership = mem) ∨
        ((∀ i leader, e ≠ .commit i leader) ∧ (∀ leader mem, e ≠ .membership leader mem) ∧
          db'.toTrees = db.toTrees ∧ db'.getLastMembership = db.getLastMembership)) := by
  cases e with
  | submit request now readAt =>
    simp only [clusterStep] at h
    split at h
    case isTrue =>
      obtain ⟨dbR, -, h⟩ := Option.bind_eq_some_iff.mp h
      obtain ⟨actions, -, rfl⟩ := Option.map_eq_some_iff.mp h
      exact ⟨db', h', .inr (.inr ⟨by simp, by simp, rfl, rfl⟩)⟩
    case isFalse => cases h
  | commit i leader =>
    obtain ⟨sub, hsub, rfl⟩ := Option.map_eq_some_iff.mp h
    obtain ⟨db, hdb, hlast⟩ := replica.run_snoc_some h'
    replace hlast : applyEntry db
        (nextEntry s.log leader (.normal (.transaction sub.actions))) = some db' := hlast
    obtain ⟨hacts, -, hmem⟩ := applyEntry_cases hlast
    refine ⟨db, hdb, .inl ⟨i, leader, sub, rfl, hsub, rfl, hacts, ?_⟩⟩
    rw [Db.getLastMembership, hmem]
    rfl
  | lose i =>
    simp only [clusterStep] at h
    split at h
    · obtain rfl := Option.some.inj h
      exact ⟨db', h', .inr (.inr ⟨by simp, by simp, rfl, rfl⟩)⟩
    · cases h
  | blank leader =>
    obtain rfl := Option.some.inj h
    obtain ⟨db, hdb, hlast⟩ := replica.run_snoc_some h'
    obtain rfl := Option.some.inj hlast
    exact ⟨db, hdb, .inr (.inr ⟨by simp, by simp, rfl, rfl⟩)⟩
  | membership leader mem =>
    obtain rfl := Option.some.inj h
    obtain ⟨db, hdb, hlast⟩ := replica.run_snoc_some h'
    obtain rfl := Option.some.inj hlast
    exact ⟨db, hdb, .inr (.inl ⟨leader, mem, rfl, rfl, rfl⟩)⟩

/-! ### What only a manifest PUT sends -/

/-- The actions that no request but a manifest PUT sends. -/
def onlyPushed : RegistryAction → Bool
  | .manifestMounted .. | .manifestStat .. | .manifestInfo .. | .blobInfo .. | .hashTagged .. =>
    true
  | _ => false

/-- The request is a manifest PUT. -/
def Request.isPut : Request → Bool
  | .put .. => true
  | _ => false

theorem transaction_onlyPushed {now : Clock} {db : Db} {req : Request}
    {actions : List RegistryAction} (h : req.transaction now db = some actions)
    (hreq : req.isPut = false) : ∀ a ∈ actions, onlyPushed a = false := by
  rcases transaction_cases h with ⟨id, r, d, n, u, -, rfl⟩ | ⟨r, src, d, u, -, rfl⟩ |
    ⟨id, r, t, d, n, x, u, rfl, -⟩ | ⟨k, d, r, u, -, rfl⟩ | ⟨k, id, d, -, -, rfl⟩ | ⟨w, -, rfl⟩ |
    ⟨w, id, -, rfl⟩
  · intro a ha
    simp only [uploadActions, List.mem_cons, List.not_mem_nil, or_false] at ha
    rcases ha with rfl | rfl | rfl <;> rfl
  · intro a ha
    cases List.mem_singleton.mp ha
    rfl
  · cases hreq
  · intro a ha
    cases List.mem_singleton.mp ha
    cases k <;> rfl
  · intro a ha
    cases List.mem_singleton.mp ha
    cases k <;> rfl
  · intro a ha
    obtain ⟨k, d, o, r, -, -, -, -, rfl⟩ := mem_phase1 ha
    cases k <;> rfl
  · intro a ha
    obtain ⟨k, d, -, rfl⟩ := mem_phase2 ha
    cases k <;> rfl

/-- The action creates no record and leaves what a record says about the content alone. -/
def keepsContent : ObjectAction → Bool
  | .stored .. | .unstored .. | .unmounted .. => true
  | _ => false

/-- Without a `HashTagged` the tags stay as they are. -/
theorem applyActions_tags_of_untagging {s s' : Trees} {actions : List RegistryAction}
    (h : applyActions s actions = some s')
    (hno : ∀ a ∈ actions, ∀ ts d r t u, a ≠ .hashTagged ts d r t u) : s'.tags = s.tags := by
  induction actions generalizing s with
  | nil =>
    obtain rfl := Option.some.inj h
    rfl
  | cons a as ih =>
    obtain ⟨m, hm, hrest⟩ := journal.run_cons_some h
    rcases applyAction_tags hm with ⟨ts, d, r, t, u, rfl, -⟩ | ⟨-, heq⟩
    · exact absurd rfl (hno _ (List.mem_cons_self ..) ts d r t u)
    · rw [ih hrest fun b hb => hno b (List.mem_cons_of_mem _ hb), heq]

/-- The two records say the same about the content of the object. -/
def SameContent (o' o : Object) : Prop :=
  o'.dependencies = o.dependencies ∧ o'.contentType = o.contentType ∧ o'.size = o.size

/-- What a request other than a manifest PUT leaves of the manifests: records may go, those that
    stay say the same about the content, and the tags are as before. -/
theorem unpushed_manifests {s s' : Trees} {actions : List RegistryAction}
    (h : applyActions s actions = some s') (hno : ∀ a ∈ actions, onlyPushed a = false) :
    s'.tags = s.tags ∧ ∀ (d : Digest) (o' : Object), s'.manifests[d]? = some o' →
      ∃ o, s.manifests[d]? = some o ∧ SameContent o' o := by
  refine ⟨applyActions_tags_of_untagging h ?_, ?_⟩
  · rintro a ha ts d r t u rfl
    cases hno _ ha
  · intro d
    have hops : ∀ op ∈ halves .manifest actions, keepsContent op := by
      intro op hop
      obtain ⟨a, ha, hk⟩ := List.mem_filterMap.mp hop
      have hunpushed := hno a ha
      cases a <;> cases hk <;> first | rfl | cases hunpushed
    refine record_inv h .manifest d
      (P := fun o' => ∀ x', o' = some x' → ∃ x, s.manifests[d]? = some x ∧ SameContent x' x)
      hops (fun x' hx' => ⟨x', hx', rfl, rfl, rfl⟩) ?_
    intro o op hold hkeeps _ _ x' hx'
    cases op with
    | mounted ts e r => cases hkeeps
    | info ts e ds ct => cases hkeeps
    | stat ts e n => cases hkeeps
    | unstored ts e l =>
      obtain ⟨x, hx, hx'⟩ := Option.bind_eq_some_iff.mp hx'
      split at hx'
      · cases hx'
      · obtain rfl := Option.some.inj hx'
        exact hold x hx
    | stored ts e l =>
      obtain ⟨x, hx, rfl⟩ := Option.map_eq_some_iff.mp hx'
      exact hold x hx
    | unmounted ts e r =>
      obtain ⟨x, hx, rfl⟩ := Option.map_eq_some_iff.mp hx'
      exact hold x hx

/-! ### What a manifest PUT leaves -/

/-- The extractor describes one manifest, the pushed one; everything else it finds is a blob. -/
theorem halves_extracted (now : Clock) (d : Digest) (x : Extracted) :
    halves .manifest (x.actions now d) = [.info (now 0) d x.dependencies x.contentType] := by
  simp only [halves, Extracted.actions, List.filterMap_cons, RegistryAction.half]
  refine congrArg _ (List.filterMap_eq_nil_iff.mpr ?_)
  intro a ha
  obtain ⟨i, hi, rfl⟩ := List.mem_mapIdx.mp ha
  rfl

/-- What a manifest PUT does to the manifests: it mounts, stores, stats and describes the pushed
    one. -/
theorem halves_putActions (now : Clock) (id : RegistryNodeId) (r : RepositoryName) (t : String)
    (d : Digest) (n : ℕ) (x : Extracted) (u : String) :
    halves .manifest (putActions now id r t d n x u) =
      [.mounted (now (x.blobs.length + 1)) d r, .stored (now (x.blobs.length + 2)) d id,
       .stat (now (x.blobs.length + 3)) d n, .info (now 0) d x.dependencies x.contentType] := by
  have hinfo := halves_extracted now d x
  simp only [halves] at hinfo
  simp only [halves, putActions, List.filterMap_append, hinfo]
  rfl

/-- A PUT moves the record of the pushed manifest only: it is there, mounted in the repository,
    stored on the node, and has the size, the content type and the dependencies that were found. -/
theorem put_manifests {s s' : Trees} {now : Clock} {id : RegistryNodeId} {r : RepositoryName}
    {t : String} {d : Digest} {n : ℕ} {x : Extracted} {u : String}
    (h : applyActions s (putActions now id r t d n x u) = some s') :
    (∀ e : Digest, e ≠ d → s'.manifests[e]? = s.manifests[e]?) ∧
      ∃ o, s'.manifests[d]? = some o ∧ o.dependencies = some x.dependencies ∧
        o.contentType = some x.contentType ∧ o.size = some n ∧ r ∈ o.repositories ∧
        id ∈ o.locations := by
  refine ⟨?_, ?_⟩
  · intro e he
    have hne : d ≠ e := fun hde => he hde.symm
    have hget := applyActions_get h .manifest e
    simp only [halves_putActions, about, ObjectAction.digest, List.filter_cons, hne, decide_false,
      List.filter_nil] at hget
    exact hget
  · have hget := applyActions_get h .manifest d
    simp only [halves_putActions, about, ObjectAction.digest, List.filter_cons, decide_true, if_true,
      List.filter_nil, List.foldl_cons, List.foldl_nil, act, Option.map_some] at hget
    exact ⟨_, hget, rfl, rfl, rfl, Finset.mem_insert_self .., Finset.mem_insert_self ..⟩

/-- A PUT points its tag at the pushed manifest. -/
theorem put_tags {s s' : Trees} {now : Clock} {id : RegistryNodeId} {r : RepositoryName}
    {t : String} {d : Digest} {n : ℕ} {x : Extracted} {u : String}
    (h : applyActions s (putActions now id r t d n x u) = some s') :
    s'.tags = s.tags.insert ⟨r, t⟩ d := by
  obtain ⟨m, hm, hlast⟩ := journal.run_snoc_some (show journal.run s (putActions now id r t d n x u)
    = some s' from h)
  have hsame : m.tags = s.tags := by
    refine applyActions_tags_of_untagging hm ?_
    rintro a ha ts e r' t' u' rfl
    simp [Extracted.actions, List.mem_mapIdx] at ha
  obtain rfl := Option.some.inj hlast
  rw [hsame]

end Distribd.Cluster
