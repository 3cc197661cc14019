import Distribd.Store.Sled

/-! Snapshots, from the rows of one node to the rows of another (`store/mod.rs`). `build_snapshot`
    reads all rows and writes one JSON document, in which digests and repository names are strings
    again and tags are grouped by repository; `install_snapshot` reads the document and writes rows.
    Each way a digest is turned into a string and back, and two keys that become one string would be
    one row. Whatever has happened to the node before, its rows have digests only that have been
    read from strings (`holds_run`), and those are kept (`keeps_stateMachineWire`): nothing is lost
    (`snapshot_codec_lossless`).

    A node's database changes when a batch is applied, a snapshot is built and a snapshot is
    installed; an installation may be cut off after any of its writes. -/

namespace Distribd.Store
open Schemes Distribd.Registry

/-! ### The document -/

/-- `BTreeMap<Digest, Blob>` and `BTreeMap<Digest, Manifest>`. -/
def objectsText : Format ObjectTree (List (String × WireObject)) :=
  .map digestText objectWire

/-- `BTreeMap<RepositoryName, BTreeMap<String, Digest>>`. -/
def tagsText : Format (Std.ExtTreeMap RepositoryName (Std.ExtTreeMap String Digest))
    (List (String × List (String × String))) :=
  .map repositoryText (.map .same digestText)

/-- `Serialize` and `Deserialize` of `SerializableRegistryStateMachine`. -/
def stateMachineWire : Format SerializableRegistryStateMachine WireStateMachine where
  write sm :=
    { lastAppliedLog := sm.lastAppliedLog
      lastMembership := sm.lastMembership
      manifests := objectsText.write sm.manifests
      blobs := objectsText.write sm.blobs
      tags := tagsText.write sm.tags }
  read w :=
    (objectsText.read w.manifests).bind fun manifests =>
      (objectsText.read w.blobs).bind fun blobs =>
        (tagsText.read w.tags).map fun tags =>
          { lastAppliedLog := w.lastAppliedLog
            lastMembership := w.lastMembership
            manifests
            blobs
            tags }

theorem sound_objectsText : objectsText.Sound :=
  Format.sound_map sound_digestText sound_objectWire

theorem sound_tagsText : tagsText.Sound :=
  Format.sound_map lossless_repositoryText.sound
    (Format.sound_map Format.sound_same sound_digestText)

/-- A document is kept if its maps are. -/
theorem keeps_stateMachineWire {sm : SerializableRegistryStateMachine}
    (hobjects : ∀ k, objectsText.Keeps (sm.tree k)) (htags : tagsText.Keeps sm.tags) :
    stateMachineWire.Keeps sm := by
  have hmans : objectsText.Keeps sm.manifests := hobjects .manifest
  have hblobs : objectsText.Keeps sm.blobs := hobjects .blob
  have hread : stateMachineWire.read (stateMachineWire.write sm) =
      (objectsText.read (objectsText.write sm.manifests)).bind fun manifests =>
        (objectsText.read (objectsText.write sm.blobs)).bind fun blobs =>
          (tagsText.read (tagsText.write sm.tags)).map fun tags =>
            ⟨sm.lastAppliedLog, sm.lastMembership, manifests, blobs, tags⟩ := rfl
  rw [Format.Keeps, hread, hmans, Option.bind_some, hblobs, Option.bind_some, htags]
  rfl

/-- The maps of a document that has been read. -/
theorem keeps_of_read {w : WireStateMachine} {sm : SerializableRegistryStateMachine}
    (h : stateMachineWire.read w = some sm) :
    (∀ k, objectsText.Keeps (sm.tree k)) ∧ tagsText.Keeps sm.tags := by
  obtain ⟨manifests, hmans, h⟩ := Option.bind_eq_some_iff.mp h
  obtain ⟨blobs, hblobs, h⟩ := Option.bind_eq_some_iff.mp h
  obtain ⟨tags, htags, rfl⟩ := Option.map_eq_some_iff.mp h
  refine ⟨fun k => ?_, sound_tagsText htags⟩
  cases k with
  | blob => exact sound_objectsText hblobs
  | manifest => exact sound_objectsText hmans

/-- The records of a map that is kept. -/
theorem keeps_objectsText_iff {t : ObjectTree} :
    objectsText.Keeps t ↔
      ∀ (d : Digest) (o : Object), t[d]? = some o → Parsed d ∧ objectWire.Keeps o :=
  Format.keeps_map_iff sound_digestText sound_objectWire

/-- The tags of a map that is kept. -/
theorem keeps_tagsText_iff
    {m : Std.ExtTreeMap RepositoryName (Std.ExtTreeMap String Digest)} :
    tagsText.Keeps m ↔
      ∀ (key : TagKey) (d : Digest), (m[key.repository]?).bind (·[key.tag]?) = some d →
        Parsed d := by
  rw [tagsText, Format.keeps_map_iff lossless_repositoryText.sound
    (Format.sound_map Format.sound_same sound_digestText)]
  constructor
  · rintro h ⟨r, tag⟩ d hd
    obtain ⟨repo, hrepo, hd⟩ := Option.bind_eq_some_iff.mp hd
    have hrepo' := (h r repo hrepo).2
    rw [Format.keeps_map_iff Format.sound_same sound_digestText] at hrepo'
    exact (hrepo' tag d hd).2
  · intro h r repo hrepo
    refine ⟨lossless_repositoryText r, Format.keeps_map ?_⟩
    intro tag d hd
    exact ⟨Format.keeps_same tag, h ⟨r, tag⟩ d (Option.bind_eq_some_iff.mpr ⟨repo, hrepo, hd⟩)⟩

/-- A document is kept if its digests have been read from texts. -/
theorem keeps_of_onlyDigests {sm : SerializableRegistryStateMachine} (h : sm.OnlyDigests Parsed) :
    stateMachineWire.Keeps sm := by
  refine keeps_stateMachineWire (fun k => ?_) (keeps_tagsText_iff.mpr h.tags)
  refine keeps_objectsText_iff.mpr fun d o ho => ?_
  obtain ⟨hd, hdeps⟩ := h.objects k d o ho
  refine ⟨hd, keeps_objectWire_iff.mpr (Format.keeps_option_iff.mpr fun ds hds => ?_)⟩
  exact Format.keeps_list_iff.mpr fun e he => hdeps ds hds e he

/-! ### Building and installing -/

section

variable {Bytes : Type*} (serde : Serde Bytes)

/-- The bytes of a document. -/
def stateMachineBytes : Format SerializableRegistryStateMachine Bytes :=
  stateMachineWire.comp serde.json

/-- The encoding of documents, for the snapshots of trees. -/
def Serde.snapshotCodec : SnapshotCodec Bytes where
  toVec := (stateMachineBytes serde).write
  fromSlice := (stateMachineBytes serde).read
  comesBack := Parsed
  fromSlice_toVec _ h := (Format.keeps_comp_iff serde.lossless_json).mpr (keeps_of_onlyDigests h)
  displayLeaderId := serde.displayLeaderId

/-- `SerializableRegistryStateMachine::from`; `none`: an `expect` panics. -/
def SledDb.serializable (s : SledDb Bytes) : Option SerializableRegistryStateMachine :=
  ((Format.map digestBytes (objectBytes serde)).read s.blobs.toList).bind fun blobs =>
    ((Format.map digestBytes (objectBytes serde)).read s.manifests.toList).bind fun manifests =>
      ((tagKeyBytes.pair digestBytes).list.read s.tags.toList).map fun entries =>
        { lastAppliedLog := s.lastAppliedLog
          lastMembership := s.getLastMembership
          manifests
          blobs
          tags := groupTags entries }

/-- `get_snapshot_index_`, and the next one. -/
def SledDb.nextSnapshotIndex (s : SledDb Bytes) : ℕ := s.snapshotIndex.getD 0 + 1

/-- `build_snapshot`. -/
def SledDb.buildSnapshot (s : SledDb Bytes) : Option (SledDb Bytes × RegistrySnapshot Bytes) :=
  (s.serializable serde).map fun sm =>
    let data := (stateMachineBytes serde).write sm
    let snapshotIdx := s.nextSnapshotIndex
    let snapshotId := match sm.lastAppliedLog with
      | some last =>
        serde.displayLeaderId last.leaderId ++ "-" ++ toString last.index ++ "-"
          ++ toString snapshotIdx
      | none => "--" ++ toString snapshotIdx
    let snapshot := ⟨⟨sm.lastAppliedLog, sm.lastMembership, snapshotId⟩, data⟩
    ({ s with snapshotIndex := some snapshotIdx, snapshot := some snapshot }, snapshot)

/-- `apply_batch` on the tree `blobs` or `manifests`. -/
def putObjects (t : ObjectRows Bytes) (objects : ObjectTree) : ObjectRows Bytes :=
  t.insertMany ((digestBytes.pair (objectBytes serde)).list.write objects.toList)

/-- `apply_batch` on the tree `tags`. -/
def putTags (t : Std.ExtTreeMap (List ℕ) (List ℕ))
    (tags : Std.ExtTreeMap RepositoryName (Std.ExtTreeMap String Digest)) :
    Std.ExtTreeMap (List ℕ) (List ℕ) :=
  t.insertMany ((tagKeyBytes.pair digestBytes).list.write (ungroupTags tags))

/-- The durable writes of `from_serializable`, in order. -/
def installRowWrites (sm : SerializableRegistryStateMachine) : List (SledDb Bytes → SledDb Bytes) :=
  [fun s => { s with blobs := putObjects serde s.blobs sm.blobs },
   fun s => { s with manifests := putObjects serde s.manifests sm.manifests },
   fun s => { s with tags := putTags s.tags sm.tags },
   fun s => match sm.lastAppliedLog with
     | some logId => { s with lastAppliedLog := some logId }
     | none => s,
   fun s => { s with lastMembership := some sm.lastMembership }]

/-- `from_serializable`: the rows, and the in-memory part. -/
def SledDb.fromSerializable (id : RegistryNodeId) (sm : SerializableRegistryStateMachine)
    (s : SledDb Bytes) : SledDb Bytes × RegistryStateMachine :=
  ((installRowWrites serde sm).foldl (fun s write => write s) s,
   { pendingBlobs := pendingOf id sm.blobs
     pendingManifests := pendingOf id sm.manifests
     blobWaiters := ∅
     manifestWaiters := ∅
     woken := [] })

/-- `install_snapshot`; `none`: the error of a document that does not decode. -/
def SledDb.installSnapshot (id : RegistryNodeId) (s : SledDb Bytes)
    (snapshot : RegistrySnapshot Bytes) : Option (SledDb Bytes × RegistryStateMachine) :=
  ((stateMachineBytes serde).read snapshot.data).map fun sm =>
    let (s, stateMachine) := s.fromSerializable serde id sm
    ({ s with snapshot := some snapshot }, stateMachine)

/-- `get_current_snapshot`. -/
def SledDb.getCurrentSnapshot (s : SledDb Bytes) : Option (RegistrySnapshot Bytes) := s.snapshot

/-! ### The life of a database -/

/-- What changes the database of a node. -/
inductive SledEvent (Bytes : Type*) where
  /-- A batch is applied. -/
  | batch (entries : List ReadEntry)
  /-- `build_snapshot`. -/
  | build
  /-- `build_snapshot`, when the process dies after `set_snapshot_index_`. -/
  | buildIndex
  /-- `install_snapshot`, when the process dies after so many of its writes, if it does. -/
  | install (snapshot : RegistrySnapshot Bytes) (writes : ℕ)

/-- The rows, moved by entries. -/
def sledReplica : Machine (SledDb Bytes) ReadEntry :=
  ⟨.new, fun s e => s.applyEntry serde e.entry⟩

/-- One event. -/
def sledStep (s : SledDb Bytes) : SledEvent Bytes → Option (SledDb Bytes)
  | .batch entries => (sledReplica serde).run s entries
  | .build => (s.buildSnapshot serde).map Prod.fst
  | .buildIndex => some { s with snapshotIndex := some s.nextSnapshotIndex }
  | .install snapshot writes =>
    ((stateMachineBytes serde).read snapshot.data).map fun sm =>
      let all := installRowWrites serde sm ++ [fun s => { s with snapshot := some snapshot }]
      (all.take writes).foldl (fun s write => write s) s

/-- A node, from a new database on. -/
def sledNode : Machine (SledDb Bytes) (SledEvent Bytes) := ⟨.new, sledStep serde⟩

/-- With six writes the installation has completed. -/
theorem sledStep_install_six (id : RegistryNodeId) (s : SledDb Bytes)
    (snapshot : RegistrySnapshot Bytes) :
    sledStep serde s (.install snapshot 6) =
      (s.installSnapshot serde id snapshot).map Prod.fst := by
  rw [SledDb.installSnapshot, Option.map_map]
  rfl

end

/-! ### The document of the rows -/

/-- There is a map for a repository if there is a tag in it. -/
theorem groupTags_eq_none_iff {entries : List (TagKey × Digest)} {r : RepositoryName} :
    (groupTags entries)[r]? = none ↔ ∀ e ∈ entries, e.1.repository ≠ r := by
  induction entries using List.reverseRecOn with
  | nil => simp [groupTags]
  | append_singleton entries e ih =>
    have hcat : groupTags (entries ++ [e]) = groupTag (groupTags entries) e := by simp [groupTags]
    rw [hcat, groupTag, Std.ExtTreeMap.getElem?_insert]
    by_cases hr : e.1.repository = r
    · refine iff_of_false (by simp [hr]) fun h => h e ?_ hr
      exact List.mem_append_right _ (List.mem_singleton_self e)
    · simp only [Std.compare_eq_iff_eq, hr, if_false, ih, List.mem_append, List.mem_singleton]
      constructor
      · rintro h e' (he' | rfl)
        · exact h e' he'
        · exact hr
      · exact fun h e' he' => h e' (.inl he')

/-- The order of the tags does not matter. -/
theorem groupTags_of_graph {t : TagTree} {entries : List (TagKey × Digest)}
    (h : ∀ key d, (key, d) ∈ entries ↔ t[key]? = some d) :
    groupTags entries = groupTags t.toList := by
  have hmem : ∀ e, e ∈ entries ↔ e ∈ t.toList := fun ⟨key, d⟩ =>
    (h key d).trans Std.ExtTreeMap.mem_toList_iff_getElem?_eq_some.symm
  have hget : ∀ key : TagKey, ((groupTags entries)[key.repository]?).bind (·[key.tag]?) =
      ((groupTags t.toList)[key.repository]?).bind (·[key.tag]?) := by
    intro key
    rw [groupTags_get, groupTags_get, getElem?_insertMany_graph _ h, getElem?_insertMany_toList]
  refine Std.ExtTreeMap.ext_getElem? fun {r} => ?_
  have hnone : (groupTags entries)[r]? = none ↔ (groupTags t.toList)[r]? = none := by
    rw [groupTags_eq_none_iff, groupTags_eq_none_iff]
    exact forall_congr' fun e => by rw [hmem]
  cases hl : (groupTags entries)[r]? with
  | none => exact (hnone.mp hl).symm
  | some m =>
    cases hr : (groupTags t.toList)[r]? with
    | none =>
      rw [hnone.mpr hr] at hl
      cases hl
    | some m' =>
      refine congrArg some (Std.ExtTreeMap.ext_getElem? fun {tag} => ?_)
      simpa [hl, hr] using hget ⟨r, tag⟩

section

variable {Bytes : Type*} {serde : Serde Bytes} {s : SledDb Bytes} {db : Db}

/-- REFINEMENT: the document of the rows is that of the trees. -/
theorem serializable_of_holds (h : SledDb.Holds serde s db) :
    s.serializable serde = some (serializable db) := by
  obtain ⟨entries, hread, hmem⟩ := h.tags.read
  rw [SledDb.serializable, h.blobs.read_map, Option.bind_some, h.manifests.read_map,
    Option.bind_some, hread, Option.map_some, groupTags_of_graph hmem, SledDb.getLastMembership,
    h.lastAppliedLog, h.lastMembership]
  rfl

/-- The digests in the rows have been read from texts. -/
theorem onlyDigests_of_holds (h : SledDb.Holds serde s db) : db.toTrees.OnlyDigests Parsed where
  objects k d o ho := by
    obtain ⟨hd, ho⟩ := (h.tree k).keeps d o ho
    refine ⟨keeps_digestBytes_iff.mp hd, fun ds hds e he => ?_⟩
    have hwire := (Format.keeps_comp_iff serde.lossless_bincode).mp ho
    have hlist := Format.keeps_option_iff.mp (keeps_objectWire_iff.mp hwire) ds hds
    exact Format.keeps_list_iff.mp hlist e he
  tags key d hd := keeps_digestBytes_iff.mp (h.tags.keeps key d hd).2

/-- The document of the trees is kept. -/
theorem keeps_serializable (h : SledDb.Holds serde s db) :
    stateMachineWire.Keeps (serializable db) :=
  keeps_of_onlyDigests (onlyDigests_serializable (onlyDigests_of_holds h))

/-! ### Installing keeps the rows and the trees together -/

/-- The entries of a batch of records. -/
theorem keeps_entries {objects : ObjectTree} (h : objectsText.Keeps objects) :
    ∀ p ∈ objects.toList, digestBytes.Keeps p.1 ∧ (objectBytes serde).Keeps p.2 := by
  rintro ⟨d, o⟩ hmem
  rw [Std.ExtTreeMap.mem_toList_iff_getElem?_eq_some] at hmem
  obtain ⟨hd, ho⟩ := keeps_objectsText_iff.mp h d o hmem
  exact ⟨keeps_digestBytes_iff.mpr hd, (Format.keeps_comp_iff serde.lossless_bincode).mpr ho⟩

/-- The entries of a batch of tags. -/
theorem keeps_tagEntries {tags : Std.ExtTreeMap RepositoryName (Std.ExtTreeMap String Digest)}
    (h : tagsText.Keeps tags) :
    ∀ p ∈ ungroupTags tags, tagKeyBytes.Keeps p.1 ∧ digestBytes.Keeps p.2 := by
  rintro ⟨key, d⟩ hmem
  have hd := keeps_tagsText_iff.mp h key d ((mem_ungroupTags key d).mp hmem)
  exact ⟨lossless_tagKeyBytes key, keeps_digestBytes_iff.mpr hd⟩

variable (serde) in
/-- Each write does to the rows what it does to the trees. -/
theorem installRowWrites_rel {sm : SerializableRegistryStateMachine}
    (hobjects : ∀ k, objectsText.Keeps (sm.tree k)) (htags : tagsText.Keeps sm.tags) :
    List.Forall₂ (fun write write' => ∀ (s : SledDb Bytes) (db : Db), SledDb.Holds serde s db →
      SledDb.Holds serde (write s) (write' db)) (installRowWrites serde sm) (installWrites sm) := by
  refine .cons ?_ (.cons ?_ (.cons ?_ (.cons ?_ (.cons ?_ .nil))))
  · intro s db h
    exact { h with blobs := h.blobs.insertMany (keeps_entries (hobjects .blob)) }
  · intro s db h
    exact { h with manifests := h.manifests.insertMany (keeps_entries (hobjects .manifest)) }
  · intro s db h
    exact { h with tags := h.tags.insertMany (keeps_tagEntries htags) }
  · intro s db h
    cases sm.lastAppliedLog with
    | none => exact h
    | some logId => exact { h with lastAppliedLog := rfl }
  · intro s db h
    exact { h with lastMembership := rfl }

theorem foldl_writes_rel {writes : List (SledDb Bytes → SledDb Bytes)} {writes' : List (Db → Db)}
    (hrel : List.Forall₂ (fun write write' => ∀ (s : SledDb Bytes) (db : Db),
      SledDb.Holds serde s db → SledDb.Holds serde (write s) (write' db)) writes writes')
    (h : SledDb.Holds serde s db) :
    SledDb.Holds serde (writes.foldl (fun s write => write s) s)
      (writes'.foldl (fun db write => write db) db) := by
  induction hrel generalizing s db with
  | nil => exact h
  | cons hhead _ ih => exact ih (hhead s db h)

/-- REFINEMENT: an installation does to the rows what it does to the trees. -/
theorem fromSerializable_rel {w : WireStateMachine} {sm : SerializableRegistryStateMachine}
    (hread : stateMachineWire.read w = some sm) (id : RegistryNodeId)
    (h : SledDb.Holds serde s db) :
    SledDb.Holds serde (s.fromSerializable serde id sm).1 (fromSerializable id sm db).1 ∧
      (s.fromSerializable serde id sm).2 = (fromSerializable id sm db).2 := by
  obtain ⟨hobjects, htags⟩ := keeps_of_read hread
  exact ⟨foldl_writes_rel (installRowWrites_rel serde hobjects htags) h, rfl⟩

/-! ### Every run -/

/-- A batch does to the rows what it does to the trees. -/
theorem batch_rel (h : SledDb.Holds serde s db) (entries : List ReadEntry) :
    Option.Rel (SledDb.Holds serde) ((sledReplica serde).run s entries)
      (replica.run db (entries.map ReadEntry.entry)) := by
  let trees : Machine Db ReadEntry := ⟨.new, fun db e => applyEntry db e.entry⟩
  have hmap : ∀ (entries : List ReadEntry) (db : Db),
      trees.run db entries = replica.run db (entries.map ReadEntry.entry) := by
    intro entries
    induction entries with
    | nil => exact fun _ => rfl
    | cons e entries ih =>
      intro db
      rw [List.map_cons, Machine.run_cons, Machine.run_cons]
      exact congrArg _ (funext ih)
  rw [← hmap]
  exact (sledReplica serde).run_rel entries (fun e _ _ _ hst => applyEntry_rel hst e) h

/-- Whatever happens, the rows are those of some trees. -/
theorem holds_step {s' : SledDb Bytes} {e : SledEvent Bytes} (h : SledDb.Holds serde s db)
    (hstep : sledStep serde s e = some s') : ∃ db', SledDb.Holds serde s' db' := by
  cases e with
  | batch entries =>
    have hrel := batch_rel h entries
    rw [show (sledReplica serde).run s entries = some s' from hstep] at hrel
    obtain ⟨db', -, h'⟩ := exists_of_rel hrel
    exact ⟨db', h'⟩
  | build =>
    obtain ⟨⟨s'', snapshot⟩, hbuild, rfl⟩ := Option.map_eq_some_iff.mp hstep
    obtain ⟨sm, -, heq⟩ := Option.map_eq_some_iff.mp hbuild
    obtain ⟨rfl, -⟩ := Prod.mk.inj heq
    exact ⟨db, { h with }⟩
  | buildIndex =>
    obtain rfl := Option.some.inj hstep
    exact ⟨db, { h with }⟩
  | install snapshot writes =>
    obtain ⟨sm, hread, rfl⟩ := Option.map_eq_some_iff.mp hstep
    obtain ⟨w, -, hread⟩ := Option.bind_eq_some_iff.mp hread
    obtain ⟨hobjects, htags⟩ := keeps_of_read hread
    -- the last write is of no concern to the trees
    have hlast : List.Forall₂ (fun write write' => ∀ (s : SledDb Bytes) (db : Db),
        SledDb.Holds serde s db → SledDb.Holds serde (write s) (write' db))
        [fun s => { s with snapshot := some snapshot }] [id] :=
      .cons (fun s db h => { h with }) .nil
    have hall := List.rel_append (installRowWrites_rel serde hobjects htags) hlast
    exact ⟨_, foldl_writes_rel (List.forall₂_take writes hall) h⟩

theorem holds_run {events : List (SledEvent Bytes)}
    (hrun : (sledNode serde).run (sledNode serde).init events = some s) :
    ∃ db, SledDb.Holds serde s db :=
  (sledNode serde).run_inv (I := fun s => ∃ db, SledDb.Holds serde s db)
    (fun _ _ _ ⟨_, h⟩ hstep => holds_step h hstep) ⟨_, holds_new⟩ hrun

/-! ### Nothing is lost -/

/-- Every record of the rows is one of the trees. -/
theorem getObject_holds (h : SledDb.Holds serde s db) (k : Kind) (d : Digest) (o : Object) :
    s.getObject serde k d = some (some o) ↔ (db.tree k)[d]? = some o := by
  constructor
  · intro hget
    -- the row belongs to a parsed digest, which has the bytes of no other
    have hrow : (s.tree k)[digestBytes.write d]? ≠ none := by
      intro hnone
      rw [SledDb.getObject, lookup, hnone] at hget
      cases hget
    obtain ⟨d', hd', hbytes⟩ := (h.tree k).key _ hrow
    rw [keeps_digestBytes_iff] at hd'
    obtain rfl := eq_of_text_eq hd' (lossless_stringBytes.injective hbytes).symm
    rw [SledDb.getObject, (h.tree k).lookup (keeps_digestBytes_iff.mpr hd')] at hget
    exact Option.some.inj hget
  · intro ho
    rw [SledDb.getObject, (h.tree k).lookup ((h.tree k).keeps d o ho).1, ho]

theorem getTag_holds (h : SledDb.Holds serde s db) (r : RepositoryName) (tag : String) :
    s.getTag r tag = some db.tags[(⟨r, tag⟩ : TagKey)]? :=
  h.tags.lookup (lossless_tagKeyBytes _)

variable (serde) in
/-- Everything an installation does to the rows. -/
theorem fromSerializable_rows (id : RegistryNodeId) (sm : SerializableRegistryStateMachine)
    (s : SledDb Bytes) :
    let s' := (s.fromSerializable serde id sm).1
    (∀ k, s'.tree k = putObjects serde (s.tree k) (sm.tree k)) ∧
      s'.tags = putTags s.tags sm.tags ∧
      s'.lastAppliedLog = sm.lastAppliedLog.or s.lastAppliedLog ∧
      s'.lastMembership = some sm.lastMembership := by
  obtain ⟨lastAppliedLog, lastMembership, manifests, blobs, tags⟩ := sm
  refine ⟨fun k => ?_, ?_, ?_, ?_⟩
  · cases k <;> cases lastAppliedLog <;> rfl
  · cases lastAppliedLog <;> rfl
  · cases lastAppliedLog <;> rfl
  · cases lastAppliedLog <;> rfl

variable (serde) in
theorem mem_pending_fromSerializable (id : RegistryNodeId) (s : SledDb Bytes) (db : Db) (k : Kind)
    (d : Digest) :
    d ∈ (s.fromSerializable serde id (serializable db)).2.pending k ↔
      ∃ o, (db.tree k)[d]? = some o ∧ o.locations ≠ ∅ ∧ id ∉ o.locations := by
  have hpending : (s.fromSerializable serde id (serializable db)).2.pending k =
      pendingOf id (db.tree k) := by
    cases k <;> rfl
  rw [hpending, mem_pendingOf, Needed]
  refine exists_congr fun o => and_congr_right fun _ => ?_
  rw [needs, Bool.and_eq_true, decide_eq_true_eq, decide_eq_true_eq, and_comm]

/-- REFINEMENT: the snapshot of the rows is that of the trees. -/
theorem buildSnapshot_rel (h : SledDb.Holds serde s db) {st : SnapshotStore Bytes}
    (hdb : st.store.db = db) (hindex : st.snapshotIndex = s.snapshotIndex) :
    ∃ s', s.buildSnapshot serde = some (s', (st.buildSnapshot serde.snapshotCodec).2) := by
  rw [SledDb.buildSnapshot, serializable_of_holds h, SnapshotStore.buildSnapshot,
    SnapshotStore.getSnapshotIndex, hdb, hindex]
  exact ⟨_, rfl⟩

/-- What is built decodes to the document of the trees. -/
theorem buildSnapshot_holds (h : SledDb.Holds serde s db) :
    ∃ s' snapshot, s.buildSnapshot serde = some (s', snapshot) ∧
      (stateMachineBytes serde).read snapshot.data = some (serializable db) := by
  obtain ⟨s', hbuild⟩ := @buildSnapshot_rel _ _ _ _ h ⟨.new db 0, s.snapshotIndex, none⟩ rfl rfl
  exact ⟨s', _, hbuild, serde.snapshotCodec.fromSlice_toVec _
    (onlyDigests_serializable (onlyDigests_of_holds h))⟩

/-- NOTHING IS LOST: after any life of the source, on any receiver. -/
theorem snapshot_codec_lossless (serde : Serde Bytes) (events : List (SledEvent Bytes))
    (source : SledDb Bytes)
    (hrun : (sledNode serde).run (sledNode serde).init events = some source)
    (receiver : SledDb Bytes) (id : RegistryNodeId) :
    ∃ source' snapshot receiver' stateMachine,
      source.buildSnapshot serde = some (source', snapshot) ∧
      receiver.installSnapshot serde id snapshot = some (receiver', stateMachine) ∧
      (∀ k d o, source.getObject serde k d = some (some o) →
        receiver'.getObject serde k d = some (some o)) ∧
      (∀ r tag d, source.getTag r tag = some (some d) → receiver'.getTag r tag = some (some d)) ∧
      (∀ logId, source.lastAppliedLog = some logId → receiver'.lastAppliedLog = some logId) ∧
      receiver'.getLastMembership = source.getLastMembership ∧
      receiver'.getCurrentSnapshot = some snapshot ∧
      ∀ k d, d ∈ stateMachine.pending k ↔
        ∃ o, source.getObject serde k d = some (some o) ∧ o.locations ≠ ∅ ∧ id ∉ o.locations := by
  obtain ⟨db, h⟩ := holds_run hrun
  obtain ⟨source', snapshot, hbuild, hread⟩ := buildSnapshot_holds h
  have hkeeps := keeps_serializable h
  obtain ⟨hobjects, htags⟩ := keeps_of_read hkeeps
  obtain ⟨htree, htagrows, hlog, hmem⟩ :=
    fromSerializable_rows serde id (serializable db) receiver
  refine ⟨source', snapshot, _, _, hbuild, by rw [SledDb.installSnapshot, hread]; rfl,
    ?_, ?_, ?_, ?_, rfl, ?_⟩
  · intro k d o ho
    rw [getObject_holds h] at ho
    have hrows := htree k
    have hput : lookup digestBytes (objectBytes serde)
        (putObjects serde (receiver.tree k) ((serializable db).tree k)) d = some (some o) := by
      refine lookup_insertMany _ (keeps_entries (hobjects k)) ?_
      rw [Format.insertMany_toList, serializable_tree]
      exact ho
    rw [← hrows] at hput
    cases k <;> exact hput
  · intro r tag d hd
    rw [getTag_holds h] at hd
    have hput : lookup tagKeyBytes digestBytes (putTags receiver.tags (serializable db).tags)
        ⟨r, tag⟩ = some (some d) := by
      refine lookup_insertMany _ (keeps_tagEntries htags) ?_
      rw [getElem?_install_tags, Option.some.inj hd]
      rfl
    rw [← htagrows] at hput
    exact hput
  · intro logId hlogId
    rw [h.lastAppliedLog] at hlogId
    refine hlog.trans ?_
    rw [serializable, hlogId]
    rfl
  · rw [SledDb.getLastMembership, SledDb.getLastMembership, h.lastMembership]
    exact congrArg (·.getD .default) hmem
  · intro k d
    simp only [getObject_holds h]
    exact mem_pending_fromSerializable serde id receiver db k d

end

/-! ### A worked life -/

/-- Formats that keep the record and the document as they are. -/
def plainSerde : Serde (WireObject ⊕ WireStateMachine) where
  bincode := ⟨.inl, Sum.getLeft?⟩
  json := ⟨.inr, Sum.getRight?⟩
  lossless_bincode _ := rfl
  lossless_json _ := rfl
  displayLeaderId l := toString l.term ++ "-" ++ toString l.nodeId

/-- A node that has applied one batch. -/
theorem exists_run_batch {Bytes : Type*} (serde : Serde Bytes) (entries : List ReadEntry) {db : Db}
    (h : replay (entries.map ReadEntry.entry) = some db) :
    ∃ s, (sledNode serde).run (sledNode serde).init [.batch entries] = some s ∧
      SledDb.Holds serde s db := by
  have hrel := batch_rel (holds_new : SledDb.Holds serde .new .new) entries
  rw [← replay, h] at hrel
  cases hs : (sledReplica serde).run .new entries with
  | none =>
    rw [hs] at hrel
    cases hrel
  | some s =>
    rw [hs, Option.rel_some_some] at hrel
    refine ⟨s, ?_, hrel⟩
    rw [Machine.run_single]
    exact hs

/-- The upload on node 2, as it is read from the log. -/
def uploadRead : ReadEntry where
  entry := uploadOnTwo
  parsed a ha d hd := by
    have hhello : Parsed helloDigest := parsed_of_wellFormed wellFormed_helloDigest
    simp only [uploadOnTwo, Entry.actions, List.mem_cons, List.not_mem_nil, or_false] at ha
    rcases ha with rfl | rfl | rfl <;>
      exact List.mem_singleton.mp hd ▸ hhello

/-- Node 2 has the upload; node 1 is new, installs a snapshot of it and then wants the blob. -/
theorem snapshot_codec_lossless_upload :
    ∃ source, (sledNode plainSerde).run (sledNode plainSerde).init [.batch [uploadRead]] =
        some source ∧
      ∃ source' snapshot receiver' stateMachine,
        source.buildSnapshot plainSerde = some (source', snapshot) ∧
        SledDb.new.installSnapshot plainSerde 1 snapshot = some (receiver', stateMachine) ∧
        helloDigest ∈ stateMachine.pending .blob := by
  have hreplay : (replica.run .new [uploadOnTwo]).bind (fun db =>
      ((db.tree .blob)[helloDigest]?).map fun o => decide (o.locations ≠ ∅ ∧ 1 ∉ o.locations)) =
        some true := by decide
  obtain ⟨db, hdb, ho⟩ := Option.bind_eq_some_iff.mp hreplay
  obtain ⟨o, ho, hneeds⟩ := Option.map_eq_some_iff.mp ho
  obtain ⟨source, hnode, hholds⟩ := exists_run_batch plainSerde [uploadRead] hdb
  obtain ⟨source', snapshot, receiver', sm, hbuild, hinstall, -, -, -, -, -, hpending⟩ :=
    snapshot_codec_lossless plainSerde _ source hnode .new 1
  refine ⟨source, hnode, source', snapshot, receiver', sm, hbuild, hinstall, ?_⟩
  rw [hpending]
  exact ⟨o, (getObject_holds hholds .blob helloDigest o).mpr ho, of_decide_eq_true hneeds⟩

end Distribd.Store
