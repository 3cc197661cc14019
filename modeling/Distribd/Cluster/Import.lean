import Distribd.Store.Journal
import Distribd.Store.Snapshot
import Distribd.Cluster.TagIntegrity

/-! Export and import (`network/management.rs`). `export` hands out the records and the tags as one
    document; `import` turns such a document into one transaction: for every record its mounts, its
    locations, its description and its size, then every tag. Only a mount creates a record, so a
    record that no repository mounts any more, which is what a DELETE leaves until the collector
    comes by, does not come back: without a location it is missing, and with one its `*Stored`
    action finds no record and panics. `import_export_iff` says that nothing else can go wrong. -/

namespace Distribd.Cluster
open Schemes Store

/-! ### The two endpoints -/

/-- `ImportBody`. -/
structure ImportBody where
  blobs : ObjectTree
  manifests : ObjectTree
  tags : Std.ExtTreeMap RepositoryName (Std.ExtTreeMap String Digest)
  deriving DecidableEq

/-- `export`. -/
def exportBody (db : Db) : ImportBody :=
  let stateMachine := serializable db
  ⟨stateMachine.blobs, stateMachine.manifests, stateMachine.tags⟩

/-- The records of a kind. -/
def ImportBody.tree (body : ImportBody) : Kind → ObjectTree
  | .blob => body.blobs
  | .manifest => body.manifests

/-- `BlobMounted` or `ManifestMounted`. -/
def mountedAction (now : DateTime) (digest : Digest) (repository : RepositoryName)
    (user : String) : Kind → RegistryAction
  | .blob => .blobMounted now digest repository user
  | .manifest => .manifestMounted now digest repository user

/-- `BlobInfo` or `ManifestInfo`. -/
def infoAction (now : DateTime) (digest : Digest) (dependencies : List Digest)
    (contentType : String) : Kind → RegistryAction
  | .blob => .blobInfo now digest dependencies contentType
  | .manifest => .manifestInfo now digest dependencies contentType

/-- `BlobStat` or `ManifestStat`. -/
def statAction (now : DateTime) (digest : Digest) (size : ℕ) : Kind → RegistryAction
  | .blob => .blobStat now digest size
  | .manifest => .manifestStat now digest size

/-- What one call of `import` meets: the orders of the hash sets and a reading of the clock for each
    action. -/
structure Importing where
  repositories : Kind → Digest → Iteration RepositoryName
  locations : Kind → Digest → Iteration RegistryNodeId
  mountNow : Kind → Digest → RepositoryName → DateTime
  storeNow : Kind → Digest → RegistryNodeId → DateTime
  infoNow : Kind → Digest → DateTime
  statNow : Kind → Digest → DateTime
  tagNow : TagKey → DateTime

/-- One turn of the loop over the records of a kind. -/
def Importing.object (w : Importing) (k : Kind) (entry : Digest × Object) : List RegistryAction :=
  let (digest, o) := entry
  ((w.repositories k digest).list o.repositories).map (fun repository =>
    mountedAction (w.mountNow k digest repository) digest repository "$import" k) ++
  ((w.locations k digest).list o.locations).map (fun location =>
    storedAction (w.storeNow k digest location) digest location "$import" k) ++
  (match o.dependencies, o.contentType with
    | some dependencies, some contentType =>
      [infoAction (w.infoNow k digest) digest dependencies contentType k]
    | _, _ => []) ++
  (match o.size with
    | some size => [statAction (w.statNow k digest) digest size k]
    | none => [])

/-- The transaction of `import`. -/
def importActions (w : Importing) (body : ImportBody) : List RegistryAction :=
  body.blobs.toList.flatMap (w.object .blob) ++
  body.manifests.toList.flatMap (w.object .manifest) ++
  (ungroupTags body.tags).map fun (key, digest) =>
    .hashTagged (w.tagNow key) digest key.repository key.tag "$import"

/-! ### The actions about one record -/

/-- What `import` asks of the tree for one record. -/
def Importing.ops (w : Importing) (k : Kind) (entry : Digest × Object) : List ObjectAction :=
  let (digest, o) := entry
  ((w.repositories k digest).list o.repositories).map (fun repository =>
    .mounted (w.mountNow k digest repository) digest repository) ++
  ((w.locations k digest).list o.locations).map (fun location =>
    .stored (w.storeNow k digest location) digest location) ++
  (match o.dependencies, o.contentType with
    | some dependencies, some contentType =>
      [.info (w.infoNow k digest) digest dependencies contentType]
    | _, _ => []) ++
  (match o.size with
    | some size => [.stat (w.statNow k digest) digest size]
    | none => [])

theorem ops_digest (w : Importing) (k : Kind) (entry : Digest × Object) :
    ∀ op ∈ w.ops k entry, op.digest = entry.1 := by
  obtain ⟨d, o⟩ := entry
  intro op hop
  simp only [Importing.ops, List.mem_append, List.mem_map] at hop
  rcases hop with ((⟨r, -, rfl⟩ | ⟨l, -, rfl⟩) | hop) | hop
  · rfl
  · rfl
  · split at hop
    · rw [List.mem_singleton.mp hop]
      rfl
    · cases hop
  · split at hop
    · rw [List.mem_singleton.mp hop]
      rfl
    · cases hop

theorem halves_map {α : Type*} (k k' : Kind) (act : α → RegistryAction) (op : α → ObjectAction)
    (h : ∀ x, (act x).half k' = if k = k' then some (op x) else none) (l : List α) :
    halves k' (l.map act) = if k = k' then l.map op else [] := by
  induction l with
  | nil => simp [halves]
  | cons x l ih =>
    simp only [halves, List.map_cons, List.filterMap_cons, h x] at ih ⊢
    split <;> simp_all

theorem halves_append (k : Kind) (as bs : List RegistryAction) :
    halves k (as ++ bs) = halves k as ++ halves k bs := List.filterMap_append ..

theorem halves_object (w : Importing) (k k' : Kind) (entry : Digest × Object) :
    halves k' (w.object k entry) = if k = k' then w.ops k entry else [] := by
  obtain ⟨d, o⟩ := entry
  have hinfo : halves k' (match o.dependencies, o.contentType with
      | some dependencies, some contentType =>
        [infoAction (w.infoNow k d) d dependencies contentType k]
      | _, _ => []) = if k = k' then (match o.dependencies, o.contentType with
      | some dependencies, some contentType => [.info (w.infoNow k d) d dependencies contentType]
      | _, _ => []) else [] := by
    split <;> cases k <;> cases k' <;> rfl
  have hstat : halves k' (match o.size with
      | some size => [statAction (w.statNow k d) d size k]
      | none => []) = if k = k' then (match o.size with
      | some size => [.stat (w.statNow k d) d size]
      | none => []) else [] := by
    split <;> cases k <;> cases k' <;> rfl
  have hmount := halves_map k k'
    (fun r => mountedAction (w.mountNow k d r) d r "$import" k)
    (fun r => .mounted (w.mountNow k d r) d r) (by intro r; cases k <;> cases k' <;> rfl)
    ((w.repositories k d).list o.repositories)
  have hstore := halves_map k k'
    (fun l => storedAction (w.storeNow k d l) d l "$import" k)
    (fun l => .stored (w.storeNow k d l) d l) (by intro l; cases k <;> cases k' <;> rfl)
    ((w.locations k d).list o.locations)
  simp only [Importing.object, Importing.ops, halves_append, hmount, hstore, hinfo, hstat]
  split <;> rfl

theorem halves_flatMap_object (w : Importing) (k k' : Kind) (l : List (Digest × Object)) :
    halves k' (l.flatMap (w.object k)) = if k = k' then l.flatMap (w.ops k) else [] := by
  induction l with
  | nil => simp [halves]
  | cons p l ih =>
    rw [List.flatMap_cons, halves_append, ih, halves_object, List.flatMap_cons]
    split <;> rfl

/-- The transaction, seen from one record. -/
theorem about_importActions (w : Importing) (body : ImportBody) (k : Kind) (d : Digest) :
    about d (halves k (importActions w body)) =
      ((body.tree k)[d]?).elim [] fun o => w.ops k (d, o) := by
  have htags : halves k ((ungroupTags body.tags).map fun (key, digest) =>
      .hashTagged (w.tagNow key) digest key.repository key.tag "$import") = [] := by
    refine List.filterMap_eq_nil_iff.mpr fun a ha => ?_
    obtain ⟨p, -, rfl⟩ := List.mem_map.mp ha
    cases k <;> rfl
  have hown : halves k (importActions w body) = (body.tree k).toList.flatMap (w.ops k) := by
    rw [importActions, halves_append, halves_append, htags, halves_flatMap_object,
      halves_flatMap_object]
    cases k <;> simp [ImportBody.tree]
  rw [hown]
  exact filter_flatMap_toList _ (ops_digest w k) d

/-! ### The record that comes back -/

/-- A record without its timestamps. -/
def untimed (o : Object) : Object := { o with created := 0, updated := 0 }

theorem foldl_mounted (x : Object) (d : Digest) (ts : RepositoryName → DateTime)
    (rs : List RepositoryName) : ∃ u, (rs.map fun r => .mounted (ts r) d r).foldl act (some x) =
      some { x with updated := u, repositories := x.repositories ∪ rs.toFinset } := by
  induction rs generalizing x with
  | nil => exact ⟨x.updated, by simp⟩
  | cons r rs ih =>
    obtain ⟨u, hu⟩ := ih { x with updated := ts r, repositories := insert r x.repositories }
    refine ⟨u, hu.trans ?_⟩
    simp only [List.toFinset_cons, Finset.insert_union, Finset.union_insert]

theorem foldl_stored (x : Object) (d : Digest) (ts : RegistryNodeId → DateTime)
    (ls : List RegistryNodeId) : ∃ u, (ls.map fun l => .stored (ts l) d l).foldl act (some x) =
      some { x with updated := u, locations := x.locations ∪ ls.toFinset } := by
  induction ls generalizing x with
  | nil => exact ⟨x.updated, by simp⟩
  | cons l ls ih =>
    obtain ⟨u, hu⟩ := ih { x with updated := ts l, locations := insert l x.locations }
    refine ⟨u, hu.trans ?_⟩
    simp only [List.toFinset_cons, Finset.insert_union, Finset.union_insert]

/-- The mounts of a record that has some create it anew. -/
theorem foldl_mounted_fresh (d : Digest) (ts : RepositoryName → DateTime)
    {rs : List RepositoryName} (h : rs ≠ []) :
    ∃ c u, (rs.map fun r => .mounted (ts r) d r).foldl act none =
      some { fresh c with updated := u, repositories := rs.toFinset } := by
  obtain ⟨r, rs, rfl⟩ := List.exists_cons_of_ne_nil h
  obtain ⟨u, hu⟩ := foldl_mounted
    { fresh (ts r) with updated := ts r, repositories := {r} } d ts rs
  refine ⟨ts r, u, hu.trans ?_⟩
  simp only [List.toFinset_cons, Finset.singleton_union]

/-- No action about a record that is there can panic. -/
theorem runs_some (ops : List ObjectAction) (hno : ∀ op ∈ ops, ∀ ts d l, op ≠ .unstored ts d l)
    (x : Object) : Runs (some x) ops := by
  induction ops generalizing x with
  | nil => trivial
  | cons op ops ih =>
    refine ⟨fun _ _ _ _ => by simp, ?_⟩
    have hrest := ih fun q hq => hno q (List.mem_cons_of_mem _ hq)
    cases op with
    | unstored ts d l => exact absurd rfl (hno _ (List.mem_cons_self ..) ts d l)
    | _ => exact hrest _

theorem runs_mounted (o : Option Object) (d : Digest) (ts : RepositoryName → DateTime)
    (rs : List RepositoryName) : Runs o (rs.map fun r => .mounted (ts r) d r) := by
  induction rs generalizing o with
  | nil => trivial
  | cons r rs ih => exact ⟨nofun, ih _⟩

/-- What every journal makes of a record: it has dependencies, and none but the empty ones before
    it is described. -/
def Regular (o : Object) : Prop :=
  (∃ ds, o.dependencies = some ds) ∧ (o.contentType = none → o.dependencies = some [])

theorem regular_of_meaning {d : Digest} {ops : List ObjectAction} {o : Object}
    (h : Meaning d ops (some o)) : Regular o := by
  obtain ⟨pre, post, -, -, hdeps, hct⟩ := h.fields o rfl
  refine ⟨⟨_, hdeps⟩, ?_⟩
  intro hnone
  rw [hct, Option.map_eq_none_iff] at hnone
  rw [hdeps, hnone]
  rfl

variable (w : Importing) (k : Kind) (d : Digest) {o : Object}

/-- A record that some repository mounts comes back. -/
theorem ops_mounted (hreg : Regular o) (hrepos : o.repositories ≠ ∅) :
    Runs none (w.ops k (d, o)) ∧
      ((w.ops k (d, o)).foldl act none).map untimed = some (untimed o) := by
  have hne : (w.repositories k d).list o.repositories ≠ [] := by
    intro hnil
    have hset := (w.repositories k d).toFinset o.repositories
    rw [hnil] at hset
    exact hrepos hset.symm
  obtain ⟨c, u, hmount⟩ := foldl_mounted_fresh d (w.mountNow k d) hne
  have hmounted := congrArg (List.foldl act · ((w.locations k d).list o.locations |>.map fun l =>
    .stored (w.storeNow k d l) d l)) hmount
  obtain ⟨u', hstore⟩ := foldl_stored _ d (w.storeNow k d) ((w.locations k d).list o.locations)
  rw [hstore] at hmounted
  constructor
  · simp only [Importing.ops, List.append_assoc]
    refine runs_append.mpr ⟨runs_mounted .., ?_⟩
    rw [hmount]
    refine runs_some _ ?_ _
    intro op hop ts e l
    simp only [List.mem_append, List.mem_map] at hop
    rcases hop with ⟨l, -, rfl⟩ | hop | hop
    · simp
    · split at hop <;> simp_all
    · split at hop <;> simp_all
  · obtain ⟨⟨ds, hds⟩, hnone⟩ := hreg
    simp only [Importing.ops, List.foldl_append, hmounted, (w.repositories k d).toFinset,
      (w.locations k d).toFinset]
    obtain ⟨size, contentType, dependencies, repositories, locations, created, updated⟩ := o
    cases contentType with
    | none =>
      obtain rfl : dependencies = some [] := hnone rfl
      cases size <;> simp [act, untimed, fresh]
    | some ct =>
      obtain rfl : dependencies = some ds := hds
      cases size <;> simp [act, untimed, fresh]

/-- A record that no repository mounts does not come back. -/
theorem ops_unmounted (hrepos : o.repositories = ∅) (hruns : Runs none (w.ops k (d, o))) :
    (w.ops k (d, o)).foldl act none = none := by
  have hnil : (w.repositories k d).list o.repositories = [] := by
    refine List.eq_nil_iff_forall_not_mem.mpr fun r hr => ?_
    rw [Iteration.mem_list, hrepos] at hr
    cases hr
  have hstored : (w.locations k d).list o.locations = [] := by
    cases hl : (w.locations k d).list o.locations with
    | nil => rfl
    | cons l ls =>
      simp only [Importing.ops, hnil, hl, List.map_nil, List.nil_append, List.map_cons,
        List.cons_append, Runs] at hruns
      exact absurd rfl (hruns.1 _ _ _ rfl)
  simp only [Importing.ops, hnil, hstored, List.map_nil, List.nil_append, List.foldl_append]
  cases o.dependencies <;> cases o.contentType <;> cases o.size <;> rfl

/-! ### Whole documents -/

theorem object_ne_hashTagged (entry : Digest × Object) : ∀ a ∈ w.object k entry,
    ∀ ts d r t u, a ≠ .hashTagged ts d r t u := by
  obtain ⟨e, o⟩ := entry
  rintro a ha ts d r t u rfl
  simp only [Importing.object, List.mem_append, List.mem_map] at ha
  rcases ha with ((⟨r, -, ha⟩ | ⟨l, -, ha⟩) | ha) | ha
  · cases k <;> cases ha
  · cases k <;> cases ha
  · split at ha
    · cases k <;> cases List.mem_singleton.mp ha
    · cases ha
  · split at ha
    · cases k <;> cases List.mem_singleton.mp ha
    · cases ha

/-- The tags come back. -/
theorem importActions_tags {db : Db} {s : Trees}
    (h : applyActions .empty (importActions w (exportBody db)) = some s) : s.tags = db.tags := by
  have hfold : ∀ (l : List (TagKey × Digest)) (t t' : Trees),
      applyActions t (l.map fun (key, digest) =>
        .hashTagged (w.tagNow key) digest key.repository key.tag "$import") = some t' →
      t'.tags = t.tags.insertMany l := by
    intro l
    induction l with
    | nil =>
      intro t t' ht
      obtain rfl := Option.some.inj ht
      simp
    | cons p l ih =>
      intro t t' ht
      obtain ⟨m, hm, hrest⟩ := journal.run_cons_some ht
      obtain rfl := Option.some.inj hm
      rw [ih _ _ hrest, Std.ExtTreeMap.insertMany_cons]
  obtain ⟨m, hm, hlast⟩ := journal.run_append_some h
  have hsame : m.tags = ∅ := by
    refine applyActions_tags_of_untagging hm ?_
    intro a ha
    rcases List.mem_append.mp ha with ha | ha
    all_goals
      obtain ⟨p, -, hp⟩ := List.mem_flatMap.mp ha
      exact object_ne_hashTagged w _ p a hp
  rw [hfold _ _ _ hlast, hsame]
  refine Std.ExtTreeMap.ext_getElem? fun {key} => ?_
  rw [exportBody, getElem?_install_tags]
  simp

theorem exportBody_tree (db : Db) (k : Kind) : (exportBody db).tree k = db.tree k := by
  cases k <;> rfl

/-- The records come back, apart from their timestamps, if each of them is mounted somewhere. -/
theorem importActions_mounted {log : List Entry} {db : Db} (h : replay log = some db)
    (hrepos : ∀ (k : Kind) (d : Digest) (o : Object), (db.tree k)[d]? = some o →
      o.repositories ≠ ∅) :
    ∃ s, applyActions .empty (importActions w (exportBody db)) = some s ∧
      ∀ (k : Kind) (d : Digest), (s.tree k)[d]?.map untimed = (db.tree k)[d]?.map untimed := by
  have hempty : ∀ (k : Kind) (d : Digest), (Trees.empty.tree k)[d]? = none := by
    intro k d
    cases k <;> simp [Trees.tree, Trees.empty]
  have hregular : ∀ (k : Kind) (d : Digest) (o : Object), (db.tree k)[d]? = some o → Regular o := by
    intro k d o ho
    have hmeaning := (replay_meaning log db h).1 k d
    rw [ho] at hmeaning
    exact regular_of_meaning hmeaning
  have hruns : (applyActions .empty (importActions w (exportBody db))).isSome := by
    refine applyActions_isSome_iff.mpr fun k d => ?_
    rw [about_importActions, hempty, exportBody_tree]
    cases ho : (db.tree k)[d]? with
    | none => trivial
    | some o => exact (ops_mounted w k d (hregular k d o ho) (hrepos k d o ho)).1
  obtain ⟨s, hs⟩ := Option.isSome_iff_exists.mp hruns
  refine ⟨s, hs, fun k d => ?_⟩
  rw [applyActions_get hs, about_importActions, hempty, exportBody_tree]
  cases ho : (db.tree k)[d]? with
  | none => rfl
  | some o => exact (ops_mounted w k d (hregular k d o ho) (hrepos k d o ho)).2

/-- A record that comes back was mounted somewhere. -/
theorem mounted_of_importActions {db : Db} {s : Trees}
    (hs : applyActions .empty (importActions w (exportBody db)) = some s)
    (hsame : ∀ (k : Kind) (d : Digest), (s.tree k)[d]?.map untimed = (db.tree k)[d]?.map untimed)
    (ho : (db.tree k)[d]? = some o) : o.repositories ≠ ∅ := by
  intro hrepos
  have habout : about d (halves k (importActions w (exportBody db))) = w.ops k (d, o) := by
    rw [about_importActions, exportBody_tree, ho]
    rfl
  have hempty : (Trees.empty.tree k)[d]? = none := by cases k <;> simp [Trees.tree, Trees.empty]
  have hruns := applyActions_isSome_iff.mp (Option.isSome_iff_exists.mpr ⟨s, hs⟩) k d
  rw [habout, hempty] at hruns
  have hback := hsame k d
  rw [applyActions_get hs, habout, hempty, ops_unmounted w k d hrepos hruns, ho] at hback
  cases hback

/-- EXPORT AND IMPORT, exactly: for every state that a log reaches, the transaction that `import`
    makes of its export applies to a new database without a panic and gives the same records, apart
    from their timestamps, and the same tags, if and only if every record is mounted in some
    repository. -/
theorem import_export_iff (log : List Entry) (db : Db) (h : replay log = some db)
    (w : Importing) (id : LogId) :
    (∃ db', replay [⟨id, .normal (.transaction (importActions w (exportBody db)))⟩] = some db' ∧
      (∀ (k : Kind) (d : Digest), (db'.tree k)[d]?.map untimed = (db.tree k)[d]?.map untimed) ∧
      db'.tags = db.tags) ↔
    ∀ (k : Kind) (d : Digest) (o : Object), (db.tree k)[d]? = some o → o.repositories ≠ ∅ := by
  constructor
  · rintro ⟨db', hdb', hsame, -⟩ k d o ho
    have hacts := (applyEntry_cases ((replica.run_single _ _).symm.trans hdb')).1
    exact mounted_of_importActions w k d hacts hsame ho
  · intro hrepos
    obtain ⟨s, hs, hsame⟩ := importActions_mounted w h hrepos
    refine ⟨{ toTrees := s, lastAppliedLog := some id, lastMembership := none }, ?_, hsame,
      importActions_tags w hs⟩
    have hentry : applyEntry .new
        ⟨id, .normal (.transaction (importActions w (exportBody db)))⟩ = some
          { toTrees := s, lastAppliedLog := some id, lastMembership := none } := by
      simp only [applyEntry, show Db.new.toTrees = Trees.empty from rfl, hs, Option.map_some]
      rfl
    exact (replica.run_single _ _).trans hentry

/-! ### A push, and a DELETE before the export -/

/-- An import that meets the hash sets in ascending order, at time 100. -/
def plainImport : Importing where
  repositories _ _ := .ascending
  locations _ _ := .ascending
  mountNow _ _ _ := 100
  storeNow _ _ _ := 100
  infoNow _ _ := 100
  statNow _ _ := 100
  tagNow _ := 100

/-- DELETE of the uploaded blob. -/
def deleteBlobRun : List Event :=
  uploadRun ++ [.submit (.delete .blob ⟨"library/a"⟩ helloDigest "alice") (ticking 30) 2,
    .commit 0 ⟨1, 2⟩]

/-- After the push of `library/a:latest` the import brings the tag back. -/
theorem import_export_iff_pushRun :
    ∃ s db db', cluster.run cluster.init pushRun = some s ∧ replay s.log = some db ∧
      replay [⟨⟨⟨1, 1⟩, 0⟩, .normal (.transaction (importActions plainImport (exportBody db)))⟩] =
        some db' ∧
      db'.tags[(⟨⟨"library/a"⟩, "latest"⟩ : TagKey)]? = some emptyDigest := by
  have hfacts : ((cluster.run cluster.init pushRun).bind fun s => (replay s.log).map fun db =>
      decide ((∀ p ∈ db.blobs.toList, p.2.repositories ≠ ∅) ∧
        (∀ p ∈ db.manifests.toList, p.2.repositories ≠ ∅) ∧
        db.tags[(⟨⟨"library/a"⟩, "latest"⟩ : TagKey)]? = some emptyDigest)) = some true := by
    decide +kernel
  simp only [Option.bind_eq_some_iff, Option.map_eq_some_iff, decide_eq_true_eq] at hfacts
  obtain ⟨s, hs, db, hdb, hblobs, hmanifests, htag⟩ := hfacts
  obtain ⟨db', hdb', -, htags⟩ := (import_export_iff s.log db hdb plainImport ⟨⟨1, 1⟩, 0⟩).mpr (by
    intro k d o ho
    cases k with
    | blob => exact hblobs (d, o) (Std.ExtTreeMap.mem_toList_iff_getElem?_eq_some.mpr ho)
    | manifest => exact hmanifests (d, o) (Std.ExtTreeMap.mem_toList_iff_getElem?_eq_some.mpr ho))
  exact ⟨s, db, db', hs, hdb, hdb', by rw [htags, htag]⟩

/-- After the DELETE of the blob the record is still stored on node 2, and the import of the export
    panics. -/
theorem deleteBlobRun_import_panics :
    ∃ s db o, cluster.run cluster.init deleteBlobRun = some s ∧ replay s.log = some db ∧
      db.blobs[helloDigest]? = some o ∧ o.repositories = ∅ ∧ o.locations = {2} ∧
      replay [⟨⟨⟨1, 1⟩, 0⟩, .normal (.transaction (importActions plainImport (exportBody db)))⟩] =
        none := by
  have hfacts : ((cluster.run cluster.init deleteBlobRun).bind fun s => (replay s.log).bind fun db =>
      (db.blobs[helloDigest]?).map fun o => decide (o.repositories = ∅ ∧ o.locations = {2} ∧
        replay [⟨⟨⟨1, 1⟩, 0⟩, .normal (.transaction (importActions plainImport (exportBody db)))⟩] =
          none)) = some true := by
    decide +kernel
  simp only [Option.bind_eq_some_iff, Option.map_eq_some_iff, decide_eq_true_eq] at hfacts
  obtain ⟨s, hs, db, hdb, o, ho, hfacts⟩ := hfacts
  exact ⟨s, db, o, hs, hdb, ho, hfacts⟩

end Distribd.Cluster
