import Distribd.Cluster.Import
import Distribd.Cluster.Replication
import Distribd.Registry.Extractor

/-! `distribd fsck` (`bin/main.rs`). It compares what the leader says that this node stores with the
    files of the node, takes back the locations of what is missing, and reads the manifests that are
    there to see whether the blobs that they name have records, in their repositories and of the
    declared sizes. With `--repair` the locations are taken back for good.

    It stops at the first manifest without a content type. It complains of no manifest exactly when
    every manifest it looks at is whole, and it has nothing to say when no file is missing either
    (`fsck_silent_iff`). After a repair the locations of this node tell the truth, nobody else's have
    changed, and the mirrors can bring back all that any other member hands out; what nobody else has
    is gone (`fsck_repairs`). -/

namespace Distribd.Cluster
open Schemes Store Distribd.Registry

/-! ### The command -/

/-- What one check meets: which files are there, what can be read of the manifests, the orders of the
    hash sets, and the readings of the clock. -/
structure Fsck where
  nodeId : RegistryNodeId
  tools : JsonTools
  present : Kind → Digest → Bool
  manifestText : Digest → Option String
  extractions : Digest → Iteration Extraction
  repositories : Digest → Iteration RepositoryName
  now : Kind → Digest → DateTime

/-- What is printed about a manifest. -/
inductive Complaint where
  | notAvailable (manifest : Digest) (repository : RepositoryName)
  | wrongSize (manifest blob : Digest) (actual declared : Option ℕ)
  | missing (manifest blob : Digest)
  | notValid (manifest : Digest) (error : ExtractError)
  deriving DecidableEq

/-- `Extractor::parse_manifest`, on what can be read of the file. -/
def parseManifest (tools : JsonTools) (data : Option String) (contentType : String) :
    Except ExtractError (Finset Extraction) :=
  match data with
  | some data =>
    if validate tools contentType data = false then .error .schemaValidationError
    else extractOne tools contentType data
  | none => .error .unknownError

/-- The node is said to store the object, and its file is not there. -/
def Fsck.Lost (w : Fsck) (k : Kind) (digest : Digest) (o : Object) : Prop :=
  w.nodeId ∈ o.locations ∧ w.present k digest = false

instance (w : Fsck) (k : Kind) (digest : Digest) (o : Object) : Decidable (w.Lost k digest o) :=
  inferInstanceAs (Decidable (_ ∧ _))

/-- The fixes of one of the two loops. -/
def Fsck.unstores (w : Fsck) (k : Kind) (t : ObjectTree) : List RegistryAction :=
  t.toList.flatMap fun (digest, o) =>
    if w.Lost k digest o then [unstoredAction (w.now k digest) digest w.nodeId "$fsck" k] else []

/-- One turn of the loop over what a manifest names. -/
def Fsck.checkExtraction (w : Fsck) (blobs : ObjectTree) (digest : Digest) (manifest : Object)
    (e : Extraction) : List Complaint :=
  match blobs[e.digest]? with
  | some blob =>
    (((w.repositories digest).list manifest.repositories).filter (· ∉ blob.repositories)).map
      (.notAvailable digest) ++
    if e.size.isSome ∧ blob.size ≠ e.size then [.wrongSize digest e.digest blob.size e.size] else []
  | none => [.missing digest e.digest]

/-- One turn of the loop over the manifests; `none`: `content_type.unwrap()` panics. -/
def Fsck.checkManifest (w : Fsck) (blobs : ObjectTree) (digest : Digest) (manifest : Object) :
    Option (List Complaint) :=
  if w.nodeId ∉ manifest.locations ∨ w.present .manifest digest = false then some []
  else manifest.contentType.map fun contentType =>
    match parseManifest w.tools (w.manifestText digest) contentType with
    | .ok extractions =>
      ((w.extractions digest).list extractions).flatMap (w.checkExtraction blobs digest manifest)
    | .error e => [.notValid digest e]

/-- The loop over the manifests. -/
def Fsck.checkManifests (w : Fsck) (blobs : ObjectTree) :
    List (Digest × Object) → Option (List Complaint)
  | [] => some []
  | (digest, manifest) :: rest =>
    (w.checkManifest blobs digest manifest).bind fun complaints =>
      (w.checkManifests blobs rest).map (complaints ++ ·)

/-- All of the check: what it prints, and the fixes. -/
def Fsck.check (w : Fsck) (body : ImportBody) : Option (List Complaint × List RegistryAction) :=
  (w.checkManifests body.blobs body.manifests.toList).map fun complaints =>
    (complaints, w.unstores .blob body.blobs ++ w.unstores .manifest body.manifests)

/-! ### The complaints -/

/-- A manifest of which nothing is wrong: it can be read and is valid, and every blob that it names
    has a record, belongs to its repositories, and has the declared size. -/
def Fsck.Whole (w : Fsck) (blobs : ObjectTree) (digest : Digest) (manifest : Object) : Prop :=
  ∃ contentType extractions, manifest.contentType = some contentType ∧
    parseManifest w.tools (w.manifestText digest) contentType = .ok extractions ∧
    ∀ e ∈ extractions, ∃ blob, blobs[e.digest]? = some blob ∧
      manifest.repositories ⊆ blob.repositories ∧ (e.size.isSome → blob.size = e.size)

theorem checkExtraction_eq_nil {w : Fsck} {blobs : ObjectTree} {digest : Digest}
    {manifest : Object} {e : Extraction} : w.checkExtraction blobs digest manifest e = [] ↔
      ∃ blob, blobs[e.digest]? = some blob ∧ manifest.repositories ⊆ blob.repositories ∧
        (e.size.isSome → blob.size = e.size) := by
  unfold Fsck.checkExtraction
  cases blobs[e.digest]? with
  | none => simp
  | some blob =>
    simp only [List.append_eq_nil_iff, List.map_eq_nil_iff, List.filter_eq_nil_iff,
      Iteration.mem_list, decide_eq_true_eq, not_not, Option.some.injEq, exists_eq_left']
    refine and_congr Iff.rfl ?_
    split
    · rename_i hwrong
      simp only [reduceCtorEq, false_iff, Classical.not_imp]
      exact hwrong
    · rename_i hright
      simp only [true_iff]
      intro hsome
      by_contra hne
      exact hright ⟨hsome, hne⟩

theorem checkManifest_eq_nil {w : Fsck} {blobs : ObjectTree} {digest : Digest}
    {manifest : Object} : w.checkManifest blobs digest manifest = some [] ↔
      (w.nodeId ∈ manifest.locations → w.present .manifest digest = true →
        w.Whole blobs digest manifest) := by
  unfold Fsck.checkManifest
  split
  · rename_i hskip
    refine iff_of_true rfl fun hstored hpresent => ?_
    rcases hskip with hskip | hskip
    · exact absurd hstored hskip
    · rw [hpresent] at hskip
      cases hskip
  · rename_i hstored
    rw [not_or, not_not, Bool.not_eq_false] at hstored
    simp only [hstored.1, hstored.2, forall_const]
    cases hcontent : manifest.contentType with
    | none => simp [Fsck.Whole, hcontent]
    | some contentType =>
      cases hparse : parseManifest w.tools (w.manifestText digest) contentType with
      | error e => simp [Fsck.Whole, hcontent, hparse]
      | ok extractions =>
        simp [Fsck.Whole, hcontent, hparse, List.flatMap_eq_nil_iff, checkExtraction_eq_nil]

/-- The loop ends exactly when no turn of it panics. -/
theorem checkManifests_isSome {w : Fsck} {blobs : ObjectTree} {l : List (Digest × Object)} :
    (w.checkManifests blobs l).isSome ↔ ∀ p ∈ l, (w.checkManifest blobs p.1 p.2).isSome := by
  induction l with
  | nil => simp [Fsck.checkManifests]
  | cons p l ih =>
    simp only [Fsck.checkManifests, List.forall_mem_cons, ← ih]
    cases w.checkManifest blobs p.1 p.2 with
    | none => simp
    | some complaints => simp

/-- It prints nothing exactly when no turn does. -/
theorem checkManifests_eq_nil {w : Fsck} {blobs : ObjectTree} {l : List (Digest × Object)} :
    w.checkManifests blobs l = some [] ↔ ∀ p ∈ l, w.checkManifest blobs p.1 p.2 = some [] := by
  induction l with
  | nil => simp [Fsck.checkManifests]
  | cons p l ih =>
    simp only [Fsck.checkManifests, List.forall_mem_cons, ← ih]
    cases w.checkManifest blobs p.1 p.2 with
    | none => simp
    | some complaints =>
      cases w.checkManifests blobs l with
      | none => simp
      | some rest => simp

theorem check_fixes {w : Fsck} {db : Db} {complaints : List Complaint}
    {fixes : List RegistryAction} (h : w.check (exportBody db) = some (complaints, fixes)) :
    fixes = w.unstores .blob db.blobs ++ w.unstores .manifest db.manifests := by
  obtain ⟨_, -, heq⟩ := Option.map_eq_some_iff.mp h
  exact (Prod.ext_iff.mp heq).2.symm

theorem mem_unstores_iff {w : Fsck} {k : Kind} {t : ObjectTree} {a : RegistryAction} :
    a ∈ w.unstores k t ↔ ∃ d o, t[d]? = some o ∧ w.Lost k d o ∧
      a = unstoredAction (w.now k d) d w.nodeId "$fsck" k := by
  simp only [Fsck.unstores, List.mem_flatMap, Prod.exists,
    Std.ExtTreeMap.mem_toList_iff_getElem?_eq_some]
  refine exists_congr fun d => exists_congr fun o => and_congr_right fun _ => ?_
  by_cases hlost : w.Lost k d o <;> simp [hlost]

/-- The fixes are those of the records whose files are missing. -/
theorem mem_fixes_iff {w : Fsck} {db : Db} {a : RegistryAction} :
    a ∈ w.unstores .blob db.blobs ++ w.unstores .manifest db.manifests ↔ ∃ k d o,
      (db.tree k)[d]? = some o ∧ w.Lost k d o ∧
        a = unstoredAction (w.now k d) d w.nodeId "$fsck" k := by
  rw [List.mem_append, mem_unstores_iff, mem_unstores_iff]
  constructor
  · rintro (h | h)
    · exact ⟨.blob, h⟩
    · exact ⟨.manifest, h⟩
  · rintro ⟨_ | _, h⟩
    · exact .inl h
    · exact .inr h

/-- A manifest with a config of twelve bytes, both on node 1. -/
def imagePushed : List RegistryAction :=
  configUploaded ++
    [.manifestMounted 3 otherDigest ⟨"library/a"⟩ "alice", .manifestStored 4 otherDigest 1 "alice",
     .manifestStat 5 otherDigest 480,
     .manifestInfo 6 otherDigest [helloDigest]
       "application/vnd.docker.distribution.manifest.v2+json"]

/-- A check of node 1, which has these files. -/
def imageDisk (present : Kind → Digest → Bool) : Fsck where
  nodeId := 1
  tools := imageTools
  present := present
  manifestText _ := some imageText
  extractions _ := Iteration.ascending
  repositories _ := Iteration.ascending
  now _ _ := 50

/-- What a repair makes of a record. -/
def Fsck.fixed (w : Fsck) (k : Kind) (d : Digest) (o : Object) : Option Object :=
  if w.Lost k d o then
    if o.locations.erase w.nodeId = ∅ then none
    else some { o with updated := w.now k d, locations := o.locations.erase w.nodeId }
  else some o

/-- The second database is the first one after a repair. -/
structure Repaired (w : Fsck) (db db' : Db) : Prop where
  tags : db'.tags = db.tags
  membership : db'.getLastMembership = db.getLastMembership
  records : ∀ (k : Kind) (d : Digest),
    (db'.tree k)[d]? = ((db.tree k)[d]?).bind fun o => w.fixed k d o

/-- What the fixes ask of the tree for one record. -/
def Fsck.ops (w : Fsck) (k : Kind) (entry : Digest × Object) : List ObjectAction :=
  if w.Lost k entry.1 entry.2 then [.unstored (w.now k entry.1) entry.1 w.nodeId] else []

theorem halves_unstores (w : Fsck) (k k' : Kind) (t : ObjectTree) :
    halves k' (w.unstores k t) = if k = k' then t.toList.flatMap (w.ops k) else [] := by
  unfold Fsck.unstores
  induction t.toList with
  | nil => simp [halves]
  | cons p l ih =>
    rw [List.flatMap_cons, halves_append, ih, List.flatMap_cons]
    have hp : halves k' (if w.Lost k p.1 p.2 then
        [unstoredAction (w.now k p.1) p.1 w.nodeId "$fsck" k] else []) =
        if k = k' then w.ops k p else [] := by
      unfold Fsck.ops
      by_cases hlost : w.Lost k p.1 p.2
      · simp only [if_pos hlost, halves, List.filterMap_cons, unstoredAction_half]
        by_cases hk : k = k' <;> simp [hk]
      · simp [if_neg hlost, halves]
    rw [hp]
    split <;> rfl

/-- The fixes, seen from one record. -/
theorem about_fixes (w : Fsck) (db : Db) (k : Kind) (d : Digest) :
    about d (halves k (w.unstores .blob db.blobs ++ w.unstores .manifest db.manifests)) =
      ((db.tree k)[d]?).elim [] fun o => w.ops k (d, o) := by
  have hown : halves k (w.unstores .blob db.blobs ++ w.unstores .manifest db.manifests) =
      (db.tree k).toList.flatMap (w.ops k) := by
    rw [halves_append, halves_unstores, halves_unstores]
    cases k <;> simp [Trees.tree]
  rw [hown]
  refine filter_flatMap_toList _ ?_ d
  intro p op hop
  unfold Fsck.ops at hop
  split at hop
  · rw [List.mem_singleton.mp hop]
    rfl
  · cases hop

/-- Fixing a record twice is fixing it once. -/
theorem foldl_ops (w : Fsck) (k : Kind) (d : Digest) (o : Object) :
    (w.ops k (d, o)).foldl act (some o) = w.fixed k d o ∧
      (w.ops k (d, o)).foldl act (w.fixed k d o) = w.fixed k d o := by
  unfold Fsck.ops Fsck.fixed
  by_cases hlost : w.Lost k d o
  · simp only [hlost, if_true, List.foldl_cons, List.foldl_nil]
    refine ⟨rfl, ?_⟩
    by_cases hlast : o.locations.erase w.nodeId = ∅
    · simp [hlast, act]
    · simp [hlast, act]
  · simp [hlost]

/-- One copy of the transaction, on the state that the check has seen, or on its repair. -/
theorem repaired_entry {w : Fsck} {db db₁ : Db} (h : db₁ = db ∨ Repaired w db db₁) {e : Entry}
    (he : e.payload = .normal (.transaction
      (w.unstores .blob db.blobs ++ w.unstores .manifest db.manifests))) :
    ∃ db₂, applyEntry db₁ e = some db₂ ∧ Repaired w db db₂ := by
  obtain ⟨logId, payload⟩ := e
  obtain rfl : payload = _ := he
  have hfixes : ∀ a ∈ w.unstores .blob db.blobs ++ w.unstores .manifest db.manifests,
      ∃ k ts d, a = unstoredAction ts d w.nodeId "$fsck" k := by
    intro a ha
    obtain ⟨k, d, o, -, -, rfl⟩ := mem_fixes_iff.mp ha
    exact ⟨k, _, d, rfl⟩
  have hnone : ∀ a ∈ w.unstores .blob db.blobs ++ w.unstores .manifest db.manifests,
      ∀ k ts d l, a.half k ≠ some (.stored ts d l) := by
    intro a ha k ts d l
    obtain ⟨k', ts', d', rfl⟩ := hfixes a ha
    exact unstoredAction_not_stored _ _ _ _ _ _ _ _ _
  obtain ⟨trees, htrees⟩ := Option.isSome_iff_exists.mp (applyActions_isSome hnone db₁.toTrees)
  have htags : trees.tags = db₁.tags := by
    refine applyActions_tags_of_untagging htrees ?_
    rintro a ha ts d r t u rfl
    obtain ⟨k, ts', d', heq⟩ := hfixes _ ha
    cases k <;> cases heq
  refine ⟨{ db₁ with toTrees := trees, lastAppliedLog := some logId }, ?_, ?_⟩
  · simp [applyEntry, htrees]
  · refine ⟨htags.trans ?_, ?_, ?_⟩
    · rcases h with rfl | h
      · rfl
      · exact h.tags
    · rcases h with rfl | h
      · rfl
      · exact h.membership
    · intro k d
      have hget := applyActions_get htrees k d
      rw [about_fixes] at hget
      refine hget.trans ?_
      have hstart : (db₁.tree k)[d]? = (db.tree k)[d]? ∨
          (db₁.tree k)[d]? = ((db.tree k)[d]?).bind fun o => w.fixed k d o := by
        rcases h with rfl | h
        · exact .inl rfl
        · exact .inr (h.records k d)
      cases ho : (db.tree k)[d]? with
      | none =>
        rw [ho] at hstart
        rcases hstart with hstart | hstart <;> rw [hstart] <;> rfl
      | some o =>
        rw [ho] at hstart
        rcases hstart with hstart | hstart
        · rw [hstart]
          exact (foldl_ops w k d o).1
        · rw [hstart]
          exact (foldl_ops w k d o).2

theorem repaired_entries {w : Fsck} {log : List Entry} {db : Db} (hdb : replay log = some db)
    {entries : List Entry} (hne : entries ≠ []) (hentries : ∀ e ∈ entries, e.payload =
      .normal (.transaction (w.unstores .blob db.blobs ++ w.unstores .manifest db.manifests))) :
    ∃ db', replay (log ++ entries) = some db' ∧ Repaired w db db' := by
  induction entries using List.reverseRecOn with
  | nil => exact absurd rfl hne
  | append_singleton entries e ih =>
    have he := hentries e (List.mem_append_right _ (List.mem_singleton_self e))
    obtain ⟨db₁, hdb₁, hstart⟩ : ∃ db₁, replay (log ++ entries) = some db₁ ∧
        (db₁ = db ∨ Repaired w db db₁) := by
      rcases List.eq_nil_or_concat entries with rfl | ⟨es, x, rfl⟩
      · exact ⟨db, by rwa [List.append_nil], .inl rfl⟩
      · obtain ⟨db₁, hdb₁, hrepaired⟩ := ih (by simp)
          fun e he => hentries e (List.mem_append_left _ he)
        exact ⟨db₁, hdb₁, .inr hrepaired⟩
    obtain ⟨db₂, hdb₂, hrepaired⟩ := repaired_entry hstart he
    refine ⟨db₂, ?_, hrepaired⟩
    rw [← List.append_assoc, replay_snoc, hdb₁]
    exact hdb₂

/-- Another member hands the object out. -/
def HandedOutElsewhere (disks : Disks) (id : RegistryNodeId) (db : Db) (k : Kind) (d : Digest) :
    Prop :=
  ∃ m ∈ memberIds db, m ≠ id ∧
    (peerGet ⟨m, db.toTrees, disks m, .ascending⟩ k d).status = 200

/-- The repair of this node does not keep the others from it. -/
theorem Repaired.handedOut {w : Fsck} {db db' : Db} (h : Repaired w db db') {disks : Disks}
    {k : Kind} {d : Digest} (hother : HandedOutElsewhere disks w.nodeId db k d) :
    HandedOut disks db' k d := by
  obtain ⟨m, hm, hne, hanswer⟩ := hother
  obtain ⟨o, ho, hmem, hservable, hfile⟩ := peerGet_status_iff.mp hanswer
  have hm' : m ∈ memberIds db' := by
    rw [memberIds, h.membership]
    exact hm
  have hkept : m ∈ o.locations.erase w.nodeId := Finset.mem_erase.mpr ⟨hne, hmem⟩
  have hafter := h.records k d
  rw [show (db.tree k)[d]? = some o from ho, Option.bind_some, Fsck.fixed] at hafter
  rw [handedOut_iff]
  split at hafter
  · rw [if_neg (Finset.ne_empty_of_mem hkept)] at hafter
    exact ⟨m, hm', _, hafter, hkept, hservable, hfile⟩
  · exact ⟨m, hm', o, hafter, hmem, hservable, hfile⟩

/-- REPAIRED: if nothing commits between the export of the check and the last copy of its
    transaction, which may commit more than once, since the client sends it again, no replica stops;
    the locations of what is missing here are gone, with the records that have no other, and nothing
    else has changed. Then every location of this node has its file, another check finds nothing to
    fix, and the mirrors can bring every object back that another member hands out. -/
theorem fsck_repairs (w : Fsck) {log : List Entry} {db : Db} (hdb : replay log = some db)
    {complaints : List Complaint} {fixes : List RegistryAction}
    (hcheck : w.check (exportBody db) = some (complaints, fixes)) {entries : List Entry}
    (hne : entries ≠ []) (hentries : ∀ e ∈ entries, e.payload = .normal (.transaction fixes)) :
    ∃ db', replay (log ++ entries) = some db' ∧ Repaired w db db' ∧
      (∀ (k : Kind) (d : Digest) (o : Object), (db'.tree k)[d]? = some o →
        w.nodeId ∈ o.locations → w.present k d = true) ∧
      (∀ again : Fsck, again.nodeId = w.nodeId → again.present = w.present →
        ∀ result ∈ again.check (exportBody db'), result.2 = []) ∧
      ∀ disks : Disks, w.nodeId ∈ memberIds db → ∃ es s db'',
        (∀ e ∈ es, OnlyMirrors db' (log ++ entries).length e) ∧
        cluster.Meets (Downloads disks) ⟨log ++ entries, []⟩ es ∧
        cluster.run ⟨log ++ entries, []⟩ es = some s ∧ replay s.log = some db'' ∧
        ∀ (k : Kind) (d : Digest), HandedOutElsewhere disks w.nodeId db k d →
          w.nodeId ∈ locationsOf (db''.tree k)[d]? := by
  rw [check_fixes hcheck] at hentries
  obtain ⟨db', hdb', hrepaired⟩ := repaired_entries hdb hne hentries
  have htruth : ∀ (k : Kind) (d : Digest) (o : Object), (db'.tree k)[d]? = some o →
      w.nodeId ∈ o.locations → w.present k d = true := by
    intro k d o' ho' hid
    rw [hrepaired.records] at ho'
    obtain ⟨o, -, hfixed⟩ := Option.bind_eq_some_iff.mp ho'
    unfold Fsck.fixed at hfixed
    split at hfixed
    · split at hfixed
      · cases hfixed
      · obtain rfl := Option.some.inj hfixed
        exact absurd hid (Finset.notMem_erase _ _)
    · rename_i hkept
      obtain rfl := Option.some.inj hfixed
      by_contra hfile
      exact hkept ⟨hid, Bool.eq_false_iff.mpr hfile⟩
  refine ⟨db', hdb', hrepaired, htruth, ?_, ?_⟩
  · rintro again hid hpresent ⟨complaints', fixes'⟩ hresult
    have hnil : ∀ k, again.unstores k (db'.tree k) = [] := by
      intro k
      refine List.flatMap_eq_nil_iff.mpr ?_
      rintro ⟨d, o⟩ hmem
      refine if_neg ?_
      rintro ⟨hin, hfile⟩
      rw [hpresent, htruth k d o (Std.ExtTreeMap.mem_toList_iff_getElem?_eq_some.mp hmem)
        (hid ▸ hin)] at hfile
      cases hfile
    have hblob : again.unstores .blob db'.blobs = [] := hnil .blob
    have hmanifest : again.unstores .manifest db'.manifests = [] := hnil .manifest
    rw [check_fixes hresult, hblob, hmanifest]
    rfl
  · intro disks hmember
    have hstart : Converging db' (log ++ entries) ⟨log ++ entries, []⟩ :=
      converging_start (s := ⟨log ++ entries, []⟩) hdb' fun sub hsub => by cases hsub
    obtain ⟨es, s, db'', hes, hdown, -, hrun, hdb'', hnone⟩ :=
      @fetch_all disks _ _ _ hstart _ hdb'
    have hafter := converging_run hstart hes hrun
    obtain ⟨db₂, hdb₂, hmirrored⟩ := hafter.cuts s.log hafter.grown (List.prefix_refl _)
    obtain rfl := Option.some.inj (hdb''.symm.trans hdb₂)
    refine ⟨es, s, db'', hes, hdown, hrun, hdb'', ?_⟩
    intro k d hother
    -- the other member still hands it out, so a copy that is missing here is in reach
    have hhanded := hrepaired.handedOut hother
    obtain ⟨m, hm, o, ho, hmem, -⟩ := handedOut_iff.mp hhanded
    have havail : Available db' k d := ⟨m, hm, by rw [ho]; exact hmem⟩
    by_contra hnot
    have hmissing : (k, d, w.nodeId) ∈ missing db'' := by
      refine mem_missing.mpr ⟨?_, hnot, hmirrored.available.mpr havail⟩
      rw [hmirrored.memberIds, memberIds, hrepaired.membership]
      exact hmember
    rw [hnone, Finset.mem_sdiff, mem_inReach] at hmissing
    exact hmissing.2 ⟨hmissing.1, hhanded⟩

/-- A check of node 2 after all its files are gone. -/
def emptyDisk : Fsck where
  nodeId := 2
  tools := ⟨fun _ => none, fun _ _ => false⟩
  present _ _ := false
  manifestText _ := none
  extractions _ := Iteration.ascending
  repositories _ := Iteration.ascending
  now _ _ := 50

/-- Node 1 has its files. -/
def firstDisk : Disks := fun m _ _ => decide (m = 1)

/-- Nodes 1 and 2 have the blob, node 2 loses it, its repair is committed twice, and the mirror of
    node 2 brings the blob back. -/
theorem fsck_repairs_emptyDisk :
    ∃ (log : List Entry) (db : Db) (fixes : List RegistryAction) (db' : Db) (s : State) (db'' : Db),
      replay log = some db ∧
      locationsOf (db.tree .blob)[helloDigest]? = {1, 2} ∧
      emptyDisk.check (exportBody db) = some ([], fixes) ∧
      replay (log ++ [⟨⟨⟨1, 2⟩, 4⟩, .normal (.transaction fixes)⟩,
        ⟨⟨⟨1, 2⟩, 5⟩, .normal (.transaction fixes)⟩]) = some db' ∧
      locationsOf (db'.tree .blob)[helloDigest]? = {1} ∧ replay s.log = some db'' ∧
      2 ∈ locationsOf (db''.tree .blob)[helloDigest]? := by
  have hfacts : ((cluster.run cluster.init (uploadRun ++ announceTwice)).bind fun s =>
      (replay s.log).bind fun db => (emptyDisk.check (exportBody db)).map fun result =>
        decide (locationsOf (db.tree .blob)[helloDigest]? = {1, 2} ∧ memberIds db = {1, 2} ∧
          result.1 = [] ∧
          (peerGet ⟨1, db.toTrees, firstDisk 1, .ascending⟩ .blob helloDigest).status = 200)) =
            some true := by
    decide +kernel
  simp only [Option.bind_eq_some_iff, Option.map_eq_some_iff, decide_eq_true_eq] at hfacts
  obtain ⟨s, -, db, hdb, ⟨complaints, fixes⟩, hcheck, hlocations, hmembers, rfl, hanswer⟩ := hfacts
  obtain ⟨db', hdb', hrepaired, -, -, hheal⟩ :=
    @fsck_repairs emptyDisk _ _ hdb _ _ hcheck
      [⟨⟨⟨1, 2⟩, 4⟩, .normal (.transaction fixes)⟩, ⟨⟨⟨1, 2⟩, 5⟩, .normal (.transaction fixes)⟩]
      (by simp) (by simp)
  obtain ⟨es, s', db'', -, -, -, hdb'', hback⟩ := hheal firstDisk (by rw [hmembers]; decide)
  refine ⟨s.log, db, fixes, db', s', db'', hdb, hlocations, hcheck, hdb', ?_, hdb'',
    hback .blob helloDigest ⟨1, by rw [hmembers]; decide, by decide, hanswer⟩⟩
  rw [hrepaired.records]
  cases ho : (db.tree .blob)[helloDigest]? with
  | none =>
    rw [ho] at hlocations
    exact absurd hlocations (by decide)
  | some o =>
    rw [ho] at hlocations
    replace hlocations : o.locations = {1, 2} := hlocations
    have hlost : emptyDisk.Lost .blob helloDigest o := ⟨by rw [hlocations]; decide, rfl⟩
    have hrest : o.locations.erase emptyDisk.nodeId = {1} := by rw [hlocations]; decide
    simp [Fsck.fixed, hlost, hrest, locationsOf]

end Distribd.Cluster
