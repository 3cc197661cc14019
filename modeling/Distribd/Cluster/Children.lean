import Distribd.Cluster.Effects

/-! Manifests that a manifest list names. An index or a manifest list has manifests as its
    dependencies, so what a tag needs includes manifests that need no tag of their own. The collector
    does not look at these edges: `get_orphaned_manifests` returns every manifest that is not itself
    the target of a tag. So the children of a tagged list are spared only as long as each of them has
    a tag too, and the only request that can end this is a manifest PUT: by naming a stored manifest
    without a tag, or by moving the last tag of one that a tagged manifest names
    (`children_kept_iff`). -/

namespace Distribd.Cluster
open Schemes Store

/-! ### What a tag needs -/

/-- No manifest that a tag leads to, along dependencies of stored manifests, is called orphaned. -/
def ChildrenKept (s : Trees) : Prop :=
  ∀ m d, Tagged s m → Relation.ReflTransGen (fun a b => b ∈ dependenciesOf s.manifests[a]?) m d →
    (getOrphanedManifests s)[d]? = none

/-- Every stored manifest that a tagged manifest names is tagged. -/
def TagsClosed (s : Trees) : Prop :=
  ∀ m b : Digest, Tagged s m → b ∈ dependenciesOf s.manifests[m]? → s.manifests[b]? ≠ none →
    Tagged s b

theorem orphanedManifest_eq_none {s : Trees} {d : Digest} :
    (getOrphanedManifests s)[d]? = none ↔ (s.manifests[d]? ≠ none → Tagged s d) := by
  constructor
  · intro h hd
    obtain ⟨o, ho⟩ := Option.ne_none_iff_exists'.mp hd
    by_contra hn
    rw [(getOrphanedManifests_get s d o).mpr ⟨ho, hn⟩] at h
    cases h
  · intro h
    refine Option.eq_none_iff_forall_ne_some.mpr ?_
    intro o ho
    obtain ⟨hd, hn⟩ := (getOrphanedManifests_get s d o).mp ho
    exact hn (h (by simp [hd]))

theorem childrenKept_iff {s : Trees} : ChildrenKept s ↔ TagsClosed s := by
  constructor
  · intro h m b hm hb
    exact orphanedManifest_eq_none.mp (h m b hm (.single hb))
  · intro h m d hm hpath
    rw [orphanedManifest_eq_none]
    induction hpath with
    | refl => exact fun _ => hm
    | @tail a b _ hb ih =>
      -- a manifest with an edge is stored, so it is tagged by the induction
      refine h a b (ih ?_) hb
      intro hnone
      simp [hnone, dependenciesOf] at hb

/-! ### What keeps it -/

/-- A tag other than `key` has the manifest as its value. -/
def TaggedBesides (s : Trees) (key : TagKey) (d : Digest) : Prop :=
  ∃ key', key' ≠ key ∧ s.tags[key']? = some d

/-- A PUT of `d` with these dependencies under `key` leaves no stored manifest untagged that a
    tagged one names: not among its own dependencies, and not among those of the others. -/
def LeavesChildren (s : Trees) (key : TagKey) (d : Digest) (dependencies : List Digest) : Prop :=
  ∀ b, s.manifests[b]? ≠ none → b ≠ d →
    (b ∈ dependencies ∨ ∃ m, TaggedBesides s key m ∧ m ≠ d ∧ b ∈ dependenciesOf s.manifests[m]?) →
      TaggedBesides s key b

/-- Each manifest PUT, when it commits, leaves the children of tagged manifests under tags. -/
def Request.LeavesChildren (s : Trees) : Request → Prop
  | .put _ r t d _ x _ => Cluster.LeavesChildren s ⟨r, t⟩ d x.dependencies
  | _ => True

/-- The condition at an event. -/
def KeepsChildren (s : State) : Event → Prop
  | .commit i _ => ∀ sub ∈ s.underWay[i]?, ∀ db ∈ replay s.log,
      sub.request.LeavesChildren db.toTrees
  | _ => True

instance (s : Trees) (key : TagKey) (d : Digest) : Decidable (TaggedBesides s key d) :=
  decidable_of_iff (∃ p ∈ s.tags.toList, p.1 ≠ key ∧ p.2 = d) (by
    simp only [TaggedBesides, Prod.exists, Std.ExtTreeMap.mem_toList_iff_getElem?_eq_some]
    constructor
    · rintro ⟨key', e, he, hne, rfl⟩
      exact ⟨key', hne, he⟩
    · rintro ⟨key', hne, he⟩
      exact ⟨key', d, he, hne, rfl⟩)

instance (s : Trees) (key : TagKey) (d : Digest) (dependencies : List Digest) :
    Decidable (LeavesChildren s key d dependencies) :=
  decidable_of_iff (∀ b ∈ s.manifests.keys, b ≠ d →
    (b ∈ dependencies ∨ ∃ m ∈ s.manifests.keys, TaggedBesides s key m ∧ m ≠ d ∧
      b ∈ dependenciesOf s.manifests[m]?) → TaggedBesides s key b) (by
    have hkeys : ∀ b : Digest, b ∈ s.manifests.keys ↔ s.manifests[b]? ≠ none := by
      intro b
      rw [Std.ExtTreeMap.mem_keys, Std.ExtTreeMap.mem_iff_isSome_getElem?,
        Option.isSome_iff_ne_none]
    simp only [LeavesChildren, hkeys]
    refine forall_congr' fun b => imp_congr_right fun _ => imp_congr_right fun _ =>
      imp_congr_left (or_congr_right ?_)
    constructor
    · rintro ⟨m, -, hm⟩
      exact ⟨m, hm⟩
    · rintro ⟨m, htag, hne, hb⟩
      refine ⟨m, ?_, htag, hne, hb⟩
      intro hnone
      simp [hnone, dependenciesOf] at hb)

instance (s : Trees) : ∀ r : Request, Decidable (r.LeavesChildren s)
  | .put _ r t d _ x _ =>
    inferInstanceAs (Decidable (LeavesChildren s ⟨r, t⟩ d x.dependencies))
  | .upload .. | .mount .. | .delete .. | .deleteTag .. | .mirror .. | .phase1 _ | .phase2 _ _ =>
    isTrue trivial

instance (s : State) : ∀ e, Decidable (KeepsChildren s e)
  | .commit i _ => inferInstanceAs (Decidable (∀ sub ∈ s.underWay[i]?, ∀ db ∈ replay s.log,
      sub.request.LeavesChildren db.toTrees))
  | .submit .. | .lose _ | .blank _ | .membership .. => isTrue trivial

/-- After a PUT the tags are closed exactly when the PUT leaves the children under tags. -/
theorem tagsClosed_put_iff {s s' : Trees} {now : Clock} {id : RegistryNodeId} {r : RepositoryName}
    {t : String} {d : Digest} {n : ℕ} {x : Extracted} {u : String}
    (h : applyActions s (putActions now id r t d n x u) = some s') :
    TagsClosed s' ↔ LeavesChildren s ⟨r, t⟩ d x.dependencies := by
  obtain ⟨hother, o, ho, hdeps, -⟩ := put_manifests h
  have htagged : ∀ m, Tagged s' m ↔ m = d ∨ TaggedBesides s ⟨r, t⟩ m := by
    intro m
    simp only [Tagged, put_tags h, Std.ExtTreeMap.getElem?_insert, Std.compare_eq_iff_eq]
    constructor
    · rintro ⟨key, hkey⟩
      split at hkey
      case isTrue => exact .inl (Option.some.inj hkey).symm
      case isFalse hne => exact .inr ⟨key, fun h => hne h.symm, hkey⟩
    · rintro (rfl | ⟨key, hne, hkey⟩)
      · exact ⟨⟨r, t⟩, if_pos rfl⟩
      · exact ⟨key, by rw [if_neg fun h => hne h.symm]; exact hkey⟩
  have hedges : ∀ m : Digest, dependenciesOf s'.manifests[m]? =
      if m = d then x.dependencies else dependenciesOf s.manifests[m]? := by
    intro m
    split
    case isTrue hm => rw [hm, ho, dependenciesOf, Option.bind_some, hdeps]; rfl
    case isFalse hm => rw [hother m hm]
  constructor
  · intro hclosed b hb hne hnamed
    have hb' : s'.manifests[b]? ≠ none := by rwa [hother b hne]
    refine ((htagged b).mp ?_).resolve_left hne
    rcases hnamed with hown | ⟨m, htag, hm, hdep⟩
    · refine hclosed d b ((htagged d).mpr (.inl rfl)) ?_ hb'
      rwa [hedges, if_pos rfl]
    · refine hclosed m b ((htagged m).mpr (.inr htag)) ?_ hb'
      rwa [hedges, if_neg hm]
  · intro hleaves m b hm hdep hb
    rw [htagged]
    by_cases hne : b = d
    · exact .inl hne
    · refine .inr (hleaves b (by rwa [← hother b hne]) hne ?_)
      rw [hedges] at hdep
      by_cases hmd : m = d
      · rw [if_pos hmd] at hdep
        exact .inl hdep
      · rw [if_neg hmd] at hdep
        exact .inr ⟨m, ((htagged m).mp hm).resolve_left hmd, hmd, hdep⟩

/-- The transactions of all other requests keep the tags closed. -/
theorem tagsClosed_unpushed {s s' : Trees} {actions : List RegistryAction}
    (h : applyActions s actions = some s') (hno : ∀ a ∈ actions, onlyPushed a = false)
    (hs : TagsClosed s) : TagsClosed s' := by
  obtain ⟨htags, hrecords⟩ := unpushed_manifests h hno
  intro m b hm hb hstored
  obtain ⟨o', ho'⟩ := Option.ne_none_iff_exists'.mp hstored
  obtain ⟨o, ho, -⟩ := hrecords b o' ho'
  have hm' : Tagged s m := by
    rwa [Tagged, htags] at hm
  have hb' : b ∈ dependenciesOf s.manifests[m]? := by
    cases hm'' : s'.manifests[m]? with
    | none => simp [hm'', dependenciesOf] at hb
    | some x' =>
      obtain ⟨x, hx, hdeps, -⟩ := hrecords m x' hm''
      rw [hm''] at hb
      simpa [hx, dependenciesOf, hdeps] using hb
  rw [Tagged, htags]
  exact hs m b hm' hb' (by simp [ho])

/-! ### Runs -/

/-- The tags are closed in what the replicas hold. -/
def HoldsClosed (s : State) : Prop := ∀ db, replay s.log = some db → TagsClosed db.toTrees

theorem holdsClosed_step (s : State) (e : Event) (s' : State) (hd : AllDecided s)
    (hc : HoldsClosed s) (h : clusterStep s e = some s') : KeepsChildren s e ↔ HoldsClosed s' := by
  have hidle : (∀ i leader, e ≠ .commit i leader) → (KeepsChildren s e ↔ HoldsClosed s') := by
    intro he
    refine ⟨fun _ db' hdb' => ?_, fun _ => ?_⟩
    · obtain ⟨db, hdb, ⟨i, leader, _, rfl, -⟩ | ⟨_, _, -, htrees, -⟩ | ⟨-, -, htrees, -⟩⟩ :=
        clusterStep_replay h hdb'
      · exact absurd rfl (he i leader)
      · rw [htrees]
        exact hc db hdb
      · rw [htrees]
        exact hc db hdb
    · cases e <;> first | trivial | exact absurd rfl (he _ _)
  cases e with
  | submit request now readAt => exact hidle (by simp)
  | lose i => exact hidle (by simp)
  | blank leader => exact hidle (by simp)
  | membership leader mem => exact hidle (by simp)
  | commit i leader =>
    obtain ⟨sub, hsub, hs'⟩ := Option.map_eq_some_iff.mp h
    obtain ⟨-, now, dbR, -, hact⟩ := hd sub (List.mem_of_getElem? hsub)
    have hcommit : ∀ db', replay s'.log = some db' → ∃ db, replay s.log = some db ∧
        applyActions db.toTrees sub.actions = some db'.toTrees := by
      intro db' hdb'
      obtain ⟨db, hdb, ⟨i', _, sub', heq, hsub', -, hacts, -⟩ | ⟨_, _, heq, -⟩ | ⟨hno, -⟩⟩ :=
        clusterStep_replay h hdb'
      · cases heq
        obtain rfl : sub = sub' := Option.some.inj (hsub.symm.trans hsub')
        exact ⟨db, hdb, hacts⟩
      · cases heq
      · exact absurd rfl (hno i leader)
    cases hreq : sub.request with
    | put id r t d n x u =>
      rw [hreq] at hact
      have hactions : sub.actions = putActions now id r t d n x u := (Option.some.inj hact).symm
      constructor
      · intro hk db' hdb'
        obtain ⟨db, hdb, hacts⟩ := hcommit db' hdb'
        rw [hactions] at hacts
        have hleaves := hk sub hsub db hdb
        rw [hreq] at hleaves
        exact (tagsClosed_put_iff hacts).mpr hleaves
      · intro hclosed sub' hsub' db hdb
        obtain rfl : sub = sub' := Option.some.inj (hsub.symm.trans hsub')
        have hsome := (replay_commit_isSome hdb leader sub.actions).mpr (by
          rw [hactions]
          exact putActions_isSome now id r t d n x u db.toTrees)
        obtain ⟨db', hdb'⟩ := Option.isSome_iff_exists.mp hsome
        rw [← hs'] at hcommit hclosed
        obtain ⟨db₀, hdb₀, hacts⟩ := hcommit db' hdb'
        obtain rfl : db = db₀ := Option.some.inj (hdb.symm.trans hdb₀)
        rw [hactions] at hacts
        rw [hreq]
        exact (tagsClosed_put_iff hacts).mp (hclosed db' hdb')
    | upload | mount | delete | deleteTag | mirror | phase1 | phase2 =>
      refine ⟨fun _ db' hdb' => ?_, fun _ sub' hsub' db _ => ?_⟩
      · obtain ⟨db, hdb, hacts⟩ := hcommit db' hdb'
        exact tagsClosed_unpushed hacts (transaction_onlyPushed hact (by rw [hreq]; rfl)) (hc db hdb)
      · obtain rfl : sub = sub' := Option.some.inj (hsub.symm.trans hsub')
        rw [hreq]
        trivial

theorem holdsClosed_init : HoldsClosed cluster.init := by
  rintro db hdb m b ⟨key, hkey⟩
  obtain rfl := Option.some.inj hdb
  simp [Db.new, Trees.empty] at hkey

/-- CHILDREN ARE KEPT, exactly: over a whole run of the cluster, in every state that the replicas
    reach no manifest that a tag leads to, along the dependencies of stored manifests to any depth,
    is called orphaned, if and only if every manifest PUT of the run, when it commits, leaves all
    stored manifests that it or another tagged manifest names under a tag. -/
theorem children_kept_iff (es : List Event) (s : State)
    (h : cluster.run cluster.init es = some s) :
    (∀ xs ys t db, es = xs ++ ys → cluster.run cluster.init xs = some t →
      replay t.log = some db → ∀ m d, Tagged db.toTrees m →
        Relation.ReflTransGen (fun a b => b ∈ dependenciesOf db.manifests[a]?) m d →
          (getOrphanedManifests db.toTrees)[d]? = none) ↔
    cluster.Meets KeepsChildren cluster.init es := by
  rw [← cluster.meets_iff_run_inv (A := fun _ _ => True)
    (fun t e t' hd _ ht => allDecided_step t e t' hd ht)
    (fun t e t' hd hc _ ht => holdsClosed_step t e t' hd hc ht) allDecided_init holdsClosed_init
    (cluster.meets_true es _) h]
  constructor
  · intro hall xs ys t hes ht db hdb
    exact childrenKept_iff.mp (hall xs ys t db hes ht hdb)
  · intro hall xs ys t db hes ht hdb
    exact childrenKept_iff.mpr (hall xs ys t hes ht db hdb)

/-! ### A platform image and the index that names it -/

/-- The SHA-256 digest of an OCI index without manifests. -/
def platformDigest : Digest :=
  ⟨"sha256", "dff9de10919148711140d349bf03f1a99eb06f94b03e51715ccebfa7cdc518e2"⟩

/-- The SHA-256 digest of an OCI index with this one as its only manifest. -/
def indexDigest : Digest :=
  ⟨"sha256", "07b0c6d63ebd30ddc55ea1bfa2ea8e3d644bf8edc9dcb2195cbf41c197ceb5a9"⟩

/-- The SHA-256 digest of an OCI index without manifests and with an annotation. -/
def annotatedDigest : Digest :=
  ⟨"sha256", "af039f9c84bae2aed3cc81c9b114f1fc35b1158fea5f9ac4c0890504d83e7959"⟩

/-- `application/vnd.oci.image.index.v1+json`. -/
def indexType : String := "application/vnd.oci.image.index.v1+json"

/-- The platform image is uploaded as a blob, which the extractor asks for, and pushed as
    `library/a:amd64`; then the index that names it is pushed as `library/a:latest`. -/
def indexRun : List Event :=
  [.membership ⟨1, 2⟩ twoNodes,
   .submit (.upload 2 ⟨"library/a"⟩ platformDigest 88 "alice") (ticking 10) 1, .commit 0 ⟨1, 2⟩,
   .submit (.put 2 ⟨"library/a"⟩ "amd64" platformDigest 88 ⟨indexType, [], []⟩ "alice")
     (ticking 20) 2, .commit 0 ⟨1, 2⟩,
   .submit (.put 2 ⟨"library/a"⟩ "latest" indexDigest 285
     ⟨indexType, [platformDigest], [(platformDigest, [], indexType)]⟩ "alice") (ticking 30) 3,
   .commit 0 ⟨1, 2⟩]

/-- The tag `amd64` goes on to another manifest. -/
def retagRun : List Event :=
  indexRun ++
    [.submit (.put 2 ⟨"library/a"⟩ "amd64" annotatedDigest 118 ⟨indexType, [], []⟩ "alice")
      (ticking 40) 4, .commit 0 ⟨1, 2⟩]

/-- While both have tags, the platform image is not called orphaned. -/
theorem children_kept_iff_indexRun :
    ∃ s db, cluster.run cluster.init indexRun = some s ∧ replay s.log = some db ∧
      platformDigest ∈ dependenciesOf db.manifests[indexDigest]? ∧
      (getOrphanedManifests db.toTrees)[platformDigest]? = none := by
  have hfacts : ((cluster.run cluster.init indexRun).bind fun s => (replay s.log).map fun db =>
      decide (db.tags[(⟨⟨"library/a"⟩, "latest"⟩ : TagKey)]? = some indexDigest ∧
        platformDigest ∈ dependenciesOf db.manifests[indexDigest]?)) = some true := by decide
  simp only [Option.bind_eq_some_iff, Option.map_eq_some_iff, decide_eq_true_eq] at hfacts
  obtain ⟨s, h, db, hdb, htag, hdep⟩ := hfacts
  refine ⟨s, db, h, hdb, hdep, ?_⟩
  exact (children_kept_iff indexRun s h).mpr (by decide +kernel) indexRun [] s db
    (List.append_nil _).symm h hdb indexDigest platformDigest ⟨_, htag⟩ (.single hdep)

/-- After the retag the index still has its tag and names the platform image, which is stored and
    called orphaned. -/
theorem retagRun_orphans :
    ∃ s db, cluster.run cluster.init retagRun = some s ∧ replay s.log = some db ∧
      db.tags[(⟨⟨"library/a"⟩, "latest"⟩ : TagKey)]? = some indexDigest ∧
      platformDigest ∈ dependenciesOf db.manifests[indexDigest]? ∧
      (getOrphanedManifests db.toTrees)[platformDigest]?.isSome := by
  have hfacts : ((cluster.run cluster.init retagRun).bind fun s => (replay s.log).map fun db =>
      decide (db.tags[(⟨⟨"library/a"⟩, "latest"⟩ : TagKey)]? = some indexDigest ∧
        platformDigest ∈ dependenciesOf db.manifests[indexDigest]? ∧
        (getOrphanedManifests db.toTrees)[platformDigest]?.isSome)) = some true := by
    decide +kernel
  simp only [Option.bind_eq_some_iff, Option.map_eq_some_iff, decide_eq_true_eq] at hfacts
  obtain ⟨s, h, db, hdb, htag, hdep, horphan⟩ := hfacts
  exact ⟨s, db, h, hdb, htag, hdep, horphan⟩

end Distribd.Cluster
