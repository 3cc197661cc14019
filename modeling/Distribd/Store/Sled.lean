import Distribd.Schemes.Format
import Distribd.Registry.DigestText
import Distribd.Store.TagRows
import Distribd.Store.Snapshot

/-! The database as sled has it (`store/mod.rs`): rows of bytes. Keys and values are written by
    `bincode`, and the digests in them as strings (`types/digest.rs`), so what goes into a tree has
    to come out of two conversions; a digest does if it has been read from a string before
    (`Parsed`), and all digests in the entries of the log have. `apply_to_state_machine` reads,
    changes and writes single rows, and what it does to the rows is what it does to the trees that
    the rest of this development works with (`applyEntry_rel`).

    `bincode` and `serde_json` are outside of this repository: a `Serde` is any pair of lossless
    formats for records and documents whose digests and names are strings. -/

namespace Distribd.Store
open Schemes Distribd.Registry

/-! ### Strings for digests -/

/-- `Digest`, by `Display` and `try_from`. -/
def digestText : Format Digest String := ⟨Digest.text, Digest.tryFrom⟩

/-- `RepositoryName`, by `From<RepositoryName> for String` and `try_from`. -/
def repositoryText : Format RepositoryName String := ⟨RepositoryName.name, fun s => some ⟨s⟩⟩

/-- `Blob` and `Manifest`, as `serde` sees them. -/
structure WireObject where
  size : Option ℕ
  contentType : Option String
  dependencies : Option (List String)
  repositories : Finset String
  locations : Finset RegistryNodeId
  created : DateTime
  updated : DateTime

/-- `Serialize` and `Deserialize` of `Blob` and `Manifest`. -/
def objectWire : Format Object WireObject where
  write o :=
    { size := o.size
      contentType := o.contentType
      dependencies := digestText.list.option.write o.dependencies
      repositories := o.repositories.image RepositoryName.name
      locations := o.locations
      created := o.created
      updated := o.updated }
  read w := (digestText.list.option.read w.dependencies).map fun dependencies =>
    { size := w.size
      contentType := w.contentType
      dependencies
      repositories := w.repositories.image RepositoryName.mk
      locations := w.locations
      created := w.created
      updated := w.updated }

theorem sound_digestText : digestText.Sound := parsed_of_tryFrom

theorem lossless_repositoryText : repositoryText.Lossless := fun _ => rfl

/-- A record is kept if its dependencies are. -/
theorem keeps_objectWire_iff {o : Object} :
    objectWire.Keeps o ↔ digestText.list.option.Keeps o.dependencies := by
  have hnames : (o.repositories.image RepositoryName.name).image RepositoryName.mk =
      o.repositories := by
    rw [Finset.image_image]
    exact Finset.image_id
  obtain ⟨size, contentType, dependencies, repositories, locations, created, updated⟩ := o
  simp only [Format.Keeps, objectWire, Option.map_eq_some_iff] at hnames ⊢
  constructor
  · rintro ⟨read, hread, heq⟩
    rw [hread, ← (Object.mk.inj heq).2.2.1]
  · intro h
    exact ⟨_, h, by rw [hnames]⟩

theorem sound_objectWire : objectWire.Sound := by
  intro w o h
  obtain ⟨dependencies, hread, rfl⟩ := Option.map_eq_some_iff.mp h
  exact keeps_objectWire_iff.mpr
    (Format.sound_option (Format.sound_list sound_digestText) hread)

/-! ### Bytes -/

/-- A `bincode` string, which ends where the bytes end. -/
def stringBytes : Format String (List ℕ) where
  write := encodeString
  read bytes := (takeString bytes).bind fun (s, rest) => if rest = [] then some s else none

theorem lossless_stringBytes : stringBytes.Lossless := by
  intro s
  have h := takeString_append s []
  rw [List.append_nil] at h
  simp [Format.Keeps, stringBytes, h]

/-- The bytes of a digest. -/
def digestBytes : Format Digest (List ℕ) := digestText.comp stringBytes

/-- The bytes of a tag key. -/
def tagKeyBytes : Format TagKey (List ℕ) := ⟨encodeTagKey, decodeTagKey⟩

theorem lossless_tagKeyBytes : tagKeyBytes.Lossless := decodeTagKey_encodeTagKey

theorem keeps_digestBytes_iff {d : Digest} : digestBytes.Keeps d ↔ Parsed d :=
  Format.keeps_comp_iff lossless_stringBytes

/-! ### The database -/

/-- `SerializableRegistryStateMachine`, as `serde` sees it: maps are lists of pairs. -/
structure WireStateMachine where
  lastAppliedLog : Option LogId
  lastMembership : StoredMembership
  manifests : List (String × WireObject)
  blobs : List (String × WireObject)
  tags : List (String × List (String × String))

/-- `bincode` and `serde_json`, and `Display` of `openraft::LeaderId`. -/
structure Serde (Bytes : Type*) where
  bincode : Format WireObject Bytes
  json : Format WireStateMachine Bytes
  lossless_bincode : bincode.Lossless
  lossless_json : json.Lossless
  displayLeaderId : LeaderId → String

/-- The sled tree `blobs` or `manifests`. -/
abbrev ObjectRows (Bytes : Type*) := Std.ExtTreeMap (List ℕ) Bytes

/-- `sled::Db`: the data trees, the two keys of `state_machine`, and two of `store`. -/
structure SledDb (Bytes : Type*) where
  blobs : ObjectRows Bytes
  manifests : ObjectRows Bytes
  tags : Std.ExtTreeMap (List ℕ) (List ℕ)
  lastAppliedLog : Option LogId
  lastMembership : Option StoredMembership
  snapshotIndex : Option ℕ
  snapshot : Option (RegistrySnapshot Bytes)

section

variable {Bytes : Type*} (serde : Serde Bytes)

/-- The bytes of a record. -/
def objectBytes : Format Object Bytes := objectWire.comp serde.bincode

theorem keeps_objectBytes_iff {serde : Serde Bytes} {o : Object} :
    (objectBytes serde).Keeps o ↔ digestText.list.option.Keeps o.dependencies :=
  (Format.keeps_comp_iff serde.lossless_bincode).trans keeps_objectWire_iff

/-- A new database. -/
def SledDb.new : SledDb Bytes := ⟨∅, ∅, ∅, none, none, none, none⟩

/-- The tree of a kind. -/
def SledDb.tree (s : SledDb Bytes) : Kind → ObjectRows Bytes
  | .blob => s.blobs
  | .manifest => s.manifests

/-- `get_blob` / `get_manifest`; `none`: the `expect` on the value panics. -/
def SledDb.getObject (s : SledDb Bytes) (k : Kind) (digest : Digest) : Option (Option Object) :=
  lookup digestBytes (objectBytes serde) (s.tree k) digest

/-- `get_tag`. -/
def SledDb.getTag (s : SledDb Bytes) (repository : RepositoryName) (tag : String) :
    Option (Option Digest) :=
  lookup tagKeyBytes digestBytes s.tags ⟨repository, tag⟩

/-- `get_last_membership`. -/
def SledDb.getLastMembership (s : SledDb Bytes) : StoredMembership :=
  s.lastMembership.getD .default

/-! ### Applying entries -/

/-- `tx_put_blob` / `tx_put_manifest`. -/
def txPut (t : ObjectRows Bytes) (digest : Digest) (o : Object) : ObjectRows Bytes :=
  t.insert (digestBytes.write digest) ((objectBytes serde).write o)

/-- `tx_del_blob` / `tx_del_manifest`. -/
def txDel (t : ObjectRows Bytes) (digest : Digest) : ObjectRows Bytes :=
  t.erase (digestBytes.write digest)

/-- The branches of `match action` over one tree: what has been found is changed and put back. -/
def changeRow (t : ObjectRows Bytes) (found : Option Object) :
    ObjectAction → Option (ObjectRows Bytes)
  | .stored timestamp digest location =>
    -- `.unwrap()`
    found.map fun o => txPut serde t digest
      { o with updated := timestamp, locations := insert location o.locations }
  | .unstored timestamp digest location =>
    match found with
    | some o =>
      let locations := o.locations.erase location
      if locations = ∅ then some (txDel t digest)
      else some (txPut serde t digest { o with updated := timestamp, locations })
    | none => some t
  | .mounted timestamp digest repository =>
    let o := found.getD (fresh timestamp)
    some (txPut serde t digest
      { o with updated := timestamp, repositories := insert repository o.repositories })
  | .unmounted timestamp digest repository =>
    match found with
    | some o => some (txPut serde t digest
        { o with updated := timestamp, repositories := o.repositories.erase repository })
    | none => some t
  | .info timestamp digest dependencies contentType =>
    match found with
    | some o => some (txPut serde t digest
        { o with updated := timestamp, dependencies := some dependencies,
                 contentType := some contentType })
    | none => some t
  | .stat timestamp digest size =>
    match found with
    | some o => some (txPut serde t digest { o with updated := timestamp, size := some size })
    | none => some t

/-- One action over one tree: `tx_get_blob` / `tx_get_manifest`, and the branch. -/
def applyRow (t : ObjectRows Bytes) (a : ObjectAction) : Option (ObjectRows Bytes) :=
  (lookup digestBytes (objectBytes serde) t a.digest).bind fun found => changeRow serde t found a

/-- One action of a transaction. -/
def SledDb.applyAction (s : SledDb Bytes) (a : RegistryAction) : Option (SledDb Bytes) :=
  match a.half .blob, a.half .manifest with
  | some oa, _ => (applyRow serde s.blobs oa).map fun blobs => { s with blobs }
  | none, some oa => (applyRow serde s.manifests oa).map fun manifests => { s with manifests }
  | none, none =>
    match a with
    | .hashTagged _ digest repository tag _ =>
      some { s with tags :=
        s.tags.insert (tagKeyBytes.write ⟨repository, tag⟩) (digestBytes.write digest) }
    | _ => some s

/-- The rows, moved by actions. -/
def sledJournal : Machine (SledDb Bytes) RegistryAction := ⟨.new, SledDb.applyAction serde⟩

/-- One entry inside the transaction. -/
def SledDb.applyEntry (s : SledDb Bytes) (entry : Entry) : Option (SledDb Bytes) :=
  let s := { s with lastAppliedLog := some entry.logId }
  match entry.payload with
  | .blank => some s
  | .normal (.transaction actions) => (sledJournal serde).run s actions
  | .membership mem => some { s with lastMembership := some ⟨some entry.logId, mem⟩ }

end

/-! ### The rows follow the trees -/

section

variable {Bytes : Type*} {serde : Serde Bytes}

/-- The rows of a tree. -/
abbrev ObjectsStored (serde : Serde Bytes) (t : ObjectRows Bytes) (m : ObjectTree) : Prop :=
  Stores digestBytes (objectBytes serde) t m

theorem ObjectsStored.txPut {t : ObjectRows Bytes} {m : ObjectTree}
    (h : ObjectsStored serde t m) {d : Digest} (hd : Parsed d) {o : Object}
    (ho : digestText.list.option.Keeps o.dependencies) :
    Option.Rel (ObjectsStored serde) (some (txPut serde t d o)) (some (m.insert d o)) :=
  .some (Stores.insert h (keeps_digestBytes_iff.mpr hd) (keeps_objectBytes_iff.mpr ho))

/-- One action over one tree. -/
theorem applyRow_rel {t : ObjectRows Bytes} {m : ObjectTree} (h : ObjectsStored serde t m)
    {a : ObjectAction} (ha : ∀ d ∈ a.digests, Parsed d) :
    Option.Rel (ObjectsStored serde) (applyRow serde t a) (apply m a) := by
  have hd : Parsed a.digest := ha _ (by cases a <;> exact List.mem_cons_self ..)
  have hfound := Stores.lookup h (keeps_digestBytes_iff.mpr hd)
  have hkeeps : ∀ o, m[a.digest]? = some o → digestText.list.option.Keeps o.dependencies :=
    fun o ho => keeps_objectBytes_iff.mp (Stores.keeps h _ o ho).2
  rw [applyRow, hfound, Option.bind_some]
  cases a with
  | stored ts d l =>
    simp only [apply, stored, changeRow, ObjectAction.digest] at hkeeps ⊢
    cases ho : m[d]? with
    | none => exact .none
    | some o => exact h.txPut hd (hkeeps o ho)
  | unstored ts d l =>
    simp only [apply, unstored, changeRow, ObjectAction.digest] at hkeeps ⊢
    cases ho : m[d]? with
    | none => exact .some h
    | some o =>
      by_cases hlast : o.locations.erase l = ∅
      · simp only [if_pos hlast]
        exact .some (Stores.erase h (keeps_digestBytes_iff.mpr hd))
      · simp only [if_neg hlast]
        exact h.txPut hd (hkeeps o ho)
  | mounted ts d r =>
    simp only [apply, mounted, changeRow, ObjectAction.digest] at hkeeps ⊢
    cases ho : m[d]? with
    | none =>
      refine h.txPut hd (Format.keeps_option_iff.mpr ?_)
      simp [fresh, Format.keeps_list_iff]
    | some o => exact h.txPut hd (hkeeps o ho)
  | unmounted ts d r =>
    simp only [apply, unmounted, edit, changeRow, ObjectAction.digest] at hkeeps ⊢
    cases ho : m[d]? with
    | none => exact .some h
    | some o => exact h.txPut hd (hkeeps o ho)
  | info ts d ds ct =>
    simp only [apply, info, edit, changeRow, ObjectAction.digest] at hkeeps ⊢
    cases ho : m[d]? with
    | none => exact .some h
    | some o =>
      refine h.txPut hd (Format.keeps_option_iff.mpr ?_)
      intro l hl
      obtain rfl := Option.some.inj hl
      exact Format.keeps_list_iff.mpr fun d' hd' => ha d' (List.mem_cons_of_mem _ hd')
  | stat ts d n =>
    simp only [apply, stat, edit, changeRow, ObjectAction.digest] at hkeeps ⊢
    cases ho : m[d]? with
    | none => exact .some h
    | some o => exact h.txPut hd (hkeeps o ho)

theorem rel_map {α β γ δ : Type*} {R : α → β → Prop} {S : γ → δ → Prop} {f : α → γ} {g : β → δ}
    {a : Option α} {b : Option β} (h : Option.Rel R a b) (hfg : ∀ a b, R a b → S (f a) (g b)) :
    Option.Rel S (a.map f) (b.map g) := by
  cases h with
  | none => exact .none
  | some h => exact .some (hfg _ _ h)

theorem exists_of_rel {α β : Type*} {R : α → β → Prop} {a : α} {b : Option β}
    (h : Option.Rel R (some a) b) : ∃ b', b = some b' ∧ R a b' := by
  cases h with
  | some h => exact ⟨_, rfl, h⟩

/-- The database has these trees, and the keys of `state_machine`. -/
structure SledDb.Holds (serde : Serde Bytes) (s : SledDb Bytes) (db : Db) : Prop where
  blobs : ObjectsStored serde s.blobs db.blobs
  manifests : ObjectsStored serde s.manifests db.manifests
  tags : Stores tagKeyBytes digestBytes s.tags db.tags
  lastAppliedLog : s.lastAppliedLog = db.lastAppliedLog
  lastMembership : s.lastMembership = db.lastMembership

theorem SledDb.Holds.tree {s : SledDb Bytes} {db : Db} (h : SledDb.Holds serde s db) (k : Kind) :
    ObjectsStored serde (s.tree k) (db.tree k) := by
  cases k with
  | blob => exact h.blobs
  | manifest => exact h.manifests

theorem holds_new : SledDb.Holds serde (SledDb.new : SledDb Bytes) .new :=
  ⟨stores_empty, stores_empty, stores_empty, rfl, rfl⟩

/-- An action goes to the tree that it is about. -/
theorem applyAction_eq (t : Trees) (a : RegistryAction) :
    applyAction t a =
      match a.half .blob, a.half .manifest with
      | some oa, _ => (apply t.blobs oa).map fun blobs => { t with blobs }
      | none, some oa => (apply t.manifests oa).map fun manifests => { t with manifests }
      | none, none =>
        match a with
        | .hashTagged _ d r tag _ => some { t with tags := t.tags.insert ⟨r, tag⟩ d }
        | _ => some t := by
  cases a <;> rfl

/-- One action of a transaction. -/
theorem applyAction_rel {s : SledDb Bytes} {db : Db} {t : Trees}
    (h : SledDb.Holds serde s { db with toTrees := t }) {a : RegistryAction}
    (ha : ∀ d ∈ a.digests, Parsed d) :
    Option.Rel (fun s t => SledDb.Holds serde s { db with toTrees := t }) (s.applyAction serde a)
      (applyAction t a) := by
  rw [applyAction_eq]
  unfold SledDb.applyAction
  unfold RegistryAction.digests at ha
  cases hb : a.half .blob with
  | some oa =>
    rw [hb] at ha
    exact rel_map (applyRow_rel h.blobs ha) fun _ _ hblobs => { h with blobs := hblobs }
  | none =>
    rw [hb] at ha
    cases hm : a.half .manifest with
    | some oa =>
      rw [hm] at ha
      exact rel_map (applyRow_rel h.manifests ha) fun _ _ hmans => { h with manifests := hmans }
    | none =>
      rw [hm] at ha
      cases a with
      | empty => exact .some h
      | hashTagged ts d r tag u =>
        have hd : digestBytes.Keeps d :=
          keeps_digestBytes_iff.mpr (ha d (List.mem_singleton_self d))
        have htags := h.tags.insert (lossless_tagKeyBytes ⟨r, tag⟩) hd
        exact .some ⟨h.blobs, h.manifests, htags, h.lastAppliedLog, h.lastMembership⟩
      | _ => first | (cases hb; done) | cases hm

/-- An entry as it is read from the log: each digest in it has been read from a string. -/
structure ReadEntry where
  entry : Entry
  parsed : entry.OnlyDigests Parsed

/-- REFINEMENT: an entry does to the rows what it does to the trees. -/
theorem applyEntry_rel {s : SledDb Bytes} {db : Db} (h : SledDb.Holds serde s db) (e : ReadEntry) :
    Option.Rel (SledDb.Holds serde) (s.applyEntry serde e.entry) (applyEntry db e.entry) := by
  obtain ⟨⟨logId, payload⟩, hparsed⟩ := e
  cases payload with
  | blank => exact .some { h with lastAppliedLog := rfl }
  | membership mem => exact .some { h with lastAppliedLog := rfl, lastMembership := rfl }
  | normal req =>
    obtain ⟨actions⟩ := req
    have hstart : SledDb.Holds serde { s with lastAppliedLog := some logId }
        { { db with lastAppliedLog := some logId } with toTrees := db.toTrees } :=
      { h with lastAppliedLog := rfl }
    have hrun := (sledJournal serde).run_rel (N := journal) actions
      (fun a ha _ _ hst => applyAction_rel hst (hparsed a ha)) hstart
    have hrel := rel_map (f := id) hrun fun _ _ h' => h'
    rw [Option.map_id_fun, id] at hrel
    exact hrel

end

end Distribd.Store
