import Distribd.Cluster.Effects

/-! Uploads against phase 2 of the collector. An upload renames its file into place and then commits
    its transaction; a pass of phase 2 reads the orphans, removes their files one by one and then
    commits the `*Unstored` actions. Nothing is checked again when the actions are applied, and the
    two sides share no lock, so the steps of one can fall anywhere between the steps of the other.

    `registry` is the machine of these steps over the disks of all nodes. An acknowledged upload
    survives (`acknowledged_kept`) as long as no pass removes a file, or announces a removal, on a
    node that has stored the object since the pass read the store, and no pass removes a file while
    an upload of it on that node is between its rename and its commit. -/

namespace Distribd.Cluster
open Schemes Store

/-! ### The steps -/

/-- A finished upload: of a blob (POST or PUT), or of a manifest (manifest PUT). -/
inductive Upload where
  | blob (id : RegistryNodeId) (repository : RepositoryName) (digest : Digest) (size : ℕ)
      (user : String)
  | manifest (id : RegistryNodeId) (repository : RepositoryName) (tag : String) (digest : Digest)
      (size : ℕ) (extracted : Extracted) (user : String)

namespace Upload

def kind : Upload → Kind
  | .blob .. => .blob
  | .manifest .. => .manifest

def id : Upload → RegistryNodeId
  | .blob id .. | .manifest id .. => id

def repository : Upload → RepositoryName
  | .blob _ r .. | .manifest _ r .. => r

def digest : Upload → Digest
  | .blob _ _ d .. | .manifest _ _ _ d .. => d

/-- The transaction of the upload. -/
def actions (now : Clock) : Upload → List RegistryAction
  | .blob id r d n u => uploadActions now id r d n u
  | .manifest id r t d n x u => putActions now id r t d n x u

end Upload

/-- An object that a pass found orphaned, unmounted and stored on its node, and how much of the log
    the node had applied when it looked. -/
structure Doomed where
  kind : Kind
  digest : Digest
  readAt : ℕ
  deriving DecidableEq

/-- A pass of `do_garbage_collect_phase2` on node `id`: the manifests come first, then the blobs. -/
structure Pass where
  id : RegistryNodeId
  blobsRead : Bool
  todo : List Doomed
  cleaned : List Doomed

/-- An upload that has returned 201, and the place of its transaction in the log. -/
structure Ack where
  kind : Kind
  id : RegistryNodeId
  repository : RepositoryName
  digest : Digest
  place : ℕ
  deriving DecidableEq

/-- The committed log, the object files on the disks, the uploads between rename and commit, the
    passes that are running and the acknowledged uploads that no client has deleted since. -/
structure Registry where
  log : List Entry
  files : Finset (RegistryNodeId × Kind × Digest)
  uploads : List Upload
  passes : List Pass
  acks : List Ack

/-- How `cleanup_object` ends: with success, with an error that leaves the file, or with an error in
    a directory after the file is gone. -/
inductive Outcome where | ok | kept | removed
  deriving DecidableEq

/-- The steps of uploads, passes and everyone else. -/
inductive Step where
  /-- `rename` of an upload. -/
  | rename (upload : Upload)
  /-- The transaction of the `i`-th upload commits and is acknowledged. -/
  | commitUpload (i : ℕ) (now : Clock) (leader : LeaderId)
  /-- The `i`-th upload fails. -/
  | failUpload (i : ℕ)
  /-- `rename` of a finished download. -/
  | download (id : RegistryNodeId) (kind : Kind) (digest : Digest)
  /-- A pass starts: `get_orphaned_manifests`. -/
  | readManifests (id : RegistryNodeId) (sweep : Sweep) (readAt : ℕ)
  /-- The `i`-th pass is done with its manifests: `get_orphaned_blobs`. -/
  | readBlobs (i : ℕ) (sweep : Sweep) (readAt : ℕ)
  /-- `cleanup_object` of the `i`-th pass on its next object. -/
  | cleanup (i : ℕ) (outcome : Outcome)
  /-- The `i`-th pass has no more objects and its transaction commits. -/
  | commitPass (i : ℕ) (now : Clock) (leader : LeaderId)
  /-- A client's DELETE commits. -/
  | delete (kind : Kind) (repository : RepositoryName) (digest : Digest) (user : String)
      (now : DateTime) (leader : LeaderId)
  /-- Any other entry that unmounts and unstores nothing commits. -/
  | other (payload : EntryPayload) (leader : LeaderId)

/-- The objects of a kind that a pass which sees the first `readAt` entries goes on to clean up. -/
def doomedAt (log : List Entry) (id : RegistryNodeId) (w : Sweep) (k : Kind) (readAt : ℕ) :
    Option (List Doomed) :=
  if readAt ≤ log.length then
    (replay (log.take readAt)).map fun db =>
      (w.doomed db.toTrees k id).map fun d => ⟨k, d, readAt⟩
  else none

/-- The `*Unstored` actions of a pass. -/
def Pass.actions (now : Clock) (p : Pass) : List RegistryAction :=
  p.cleaned.mapIdx fun i x => unstoredAction (now i) x.digest p.id "$system" x.kind

/-- The action takes a mount or a location away. -/
def takesAway (a : RegistryAction) : Bool :=
  match a with
  | .blobUnmounted .. | .manifestUnmounted .. | .blobUnstored .. | .manifestUnstored .. => true
  | _ => false

/-- One step. -/
def registryStep (s : Registry) : Step → Option Registry
  | .rename up =>
    some { s with
      files := insert (up.id, up.kind, up.digest) s.files
      uploads := s.uploads ++ [up] }
  | .commitUpload i now leader =>
    s.uploads[i]?.map fun up =>
      { s with
        log := s.log ++ [nextEntry s.log leader (.normal (.transaction (up.actions now)))]
        uploads := s.uploads.eraseIdx i
        acks := s.acks ++ [⟨up.kind, up.id, up.repository, up.digest, s.log.length⟩] }
  | .failUpload i => some { s with uploads := s.uploads.eraseIdx i }
  | .download id k d => some { s with files := insert (id, k, d) s.files }
  | .readManifests id w readAt =>
    (doomedAt s.log id w .manifest readAt).map fun todo =>
      { s with passes := s.passes ++ [⟨id, false, todo, []⟩] }
  | .readBlobs i w readAt =>
    match s.passes[i]? with
    | some ⟨id, false, [], cleaned⟩ =>
      (doomedAt s.log id w .blob readAt).map fun todo =>
        { s with passes := s.passes.set i ⟨id, true, todo, cleaned⟩ }
    | _ => none
  | .cleanup i outcome =>
    match s.passes[i]? with
    | some ⟨id, blobsRead, x :: todo, cleaned⟩ =>
      match outcome with
      | .ok =>
        some { s with
          files := s.files.erase (id, x.kind, x.digest)
          passes := s.passes.set i ⟨id, blobsRead, todo, cleaned ++ [x]⟩ }
      | .kept => some { s with passes := s.passes.set i ⟨id, blobsRead, todo, cleaned⟩ }
      | .removed =>
        some { s with
          files := s.files.erase (id, x.kind, x.digest)
          passes := s.passes.set i ⟨id, blobsRead, todo, cleaned⟩ }
    | _ => none
  | .commitPass i now leader =>
    match s.passes[i]? with
    | some p =>
      if p.blobsRead ∧ p.todo = [] ∧ p.cleaned ≠ [] then
        some { s with
          log := s.log ++ [nextEntry s.log leader (.normal (.transaction (p.actions now)))]
          passes := s.passes.eraseIdx i }
      else none
    | none => none
  | .delete k r d u now leader =>
    some { s with
      log := s.log ++ [nextEntry s.log leader
        (.normal (.transaction [unmountedAction now d r u k]))]
      acks := s.acks.filter fun a => ¬ (a.kind = k ∧ a.digest = d) }
  | .other payload leader =>
    let entry := nextEntry s.log leader payload
    if (replay (s.log ++ [entry])).isSome ∧ entry.actions.all (!takesAway ·) then
      some { s with log := s.log ++ [entry] }
    else none

/-- All nodes, from the empty state. -/
def registry : Machine Registry Step := ⟨⟨[], ∅, [], [], []⟩, registryStep⟩

/-! ### What keeps a record -/

/-- The record is there, with the repository and the location. -/
def Has (r : RepositoryName) (l : RegistryNodeId) (o : Option Object) : Prop :=
  ∃ x, o = some x ∧ r ∈ x.repositories ∧ l ∈ x.locations

/-- The action takes neither the repository nor the location away from the digest. -/
def Leaves (d : Digest) (r : RepositoryName) (l : RegistryNodeId) (op : ObjectAction) : Prop :=
  (∀ ts, op ≠ .unmounted ts d r) ∧ ∀ ts, op ≠ .unstored ts d l

theorem has_act {d : Digest} {r : RepositoryName} {l : RegistryNodeId} {o : Option Object}
    {op : ObjectAction} (h : Has r l o) (hd : op.digest = d) (hop : Leaves d r l op) :
    Has r l (act o op) := by
  obtain ⟨x, rfl, hr, hl⟩ := h
  subst hd
  cases op with
  | stored ts e l' => exact ⟨_, rfl, hr, Finset.mem_insert_of_mem hl⟩
  | unstored ts e l' =>
    have hne : l ≠ l' := by rintro rfl; exact hop.2 ts rfl
    have hmem : l ∈ x.locations.erase l' := Finset.mem_erase.mpr ⟨hne, hl⟩
    have hempty : x.locations.erase l' ≠ ∅ := Finset.ne_empty_of_mem hmem
    exact ⟨{ x with updated := ts, locations := x.locations.erase l' }, by simp [act, hempty], hr,
      hmem⟩
  | mounted ts e r' => exact ⟨_, rfl, Finset.mem_insert_of_mem hr, hl⟩
  | unmounted ts e r' =>
    have hne : r ≠ r' := by rintro rfl; exact hop.1 ts rfl
    exact ⟨_, rfl, Finset.mem_erase.mpr ⟨hne, hr⟩, hl⟩
  | info ts e ds ct => exact ⟨_, rfl, hr, hl⟩
  | stat ts e n => exact ⟨_, rfl, hr, hl⟩

/-- A journal that leaves them alone keeps repository and location. -/
theorem has_after {s s' : Trees} {actions : List RegistryAction}
    (h : applyActions s actions = some s') (k : Kind) {d : Digest} {r : RepositoryName}
    {l : RegistryNodeId} (hs : Has r l (s.tree k)[d]?)
    (hops : ∀ op ∈ halves k actions, Leaves d r l op) : Has r l (s'.tree k)[d]? := by
  refine record_inv h k d (P := Has r l) hops hs ?_
  intro o op hhas hleaves hd _
  exact has_act hhas hd hleaves

/-- Actions that take nothing away leave everything alone. -/
theorem leaves_of_not_takesAway {actions : List RegistryAction}
    (h : actions.all (!takesAway ·) = true) (k : Kind) (d : Digest) (r : RepositoryName)
    (l : RegistryNodeId) : ∀ op ∈ halves k actions, Leaves d r l op := by
  intro op hop
  obtain ⟨a, ha, hk⟩ := List.mem_filterMap.mp hop
  have hnot : takesAway a = false := by simpa using List.all_eq_true.mp h a ha
  constructor
  · rintro ts rfl
    cases k <;> cases a <;> cases hk <;> cases hnot
  · rintro ts rfl
    cases k <;> cases a <;> cases hk <;> cases hnot

theorem upload_not_takesAway (now : Clock) (up : Upload) :
    (up.actions now).all (!takesAway ·) = true := by
  cases up with
  | blob id r d n u => rfl
  | manifest id r t d n x u =>
    refine List.all_eq_true.mpr ?_
    intro a ha
    simp only [Upload.actions, putActions, Extracted.actions, List.cons_append, List.nil_append,
      List.mem_cons, List.mem_append, List.mem_mapIdx, List.not_mem_nil, or_false] at ha
    rcases ha with rfl | rfl | rfl | rfl | ⟨i, hi, rfl⟩ | rfl <;> rfl

/-- The transaction of an upload can be applied in every state and leaves a record with its
    repository and its node. -/
theorem upload_applies (now : Clock) (up : Upload) (s : Trees) :
    ∃ s', applyActions s (up.actions now) = some s' ∧
      Has up.repository up.id (s'.tree up.kind)[up.digest]? := by
  cases up with
  | blob id r d n u =>
    obtain ⟨s', hs'⟩ := Option.isSome_iff_exists.mp (uploadActions_isSome now id r d n u s)
    refine ⟨s', hs', ?_⟩
    have hget := applyActions_get hs' .blob d
    simp [halves, uploadActions, RegistryAction.half, about, ObjectAction.digest, act] at hget
    exact ⟨_, hget, Finset.mem_insert_self .., Finset.mem_insert_self ..⟩
  | manifest id r t d n x u =>
    obtain ⟨s', hs'⟩ := Option.isSome_iff_exists.mp (putActions_isSome now id r t d n x u s)
    refine ⟨s', hs', ?_⟩
    have hget := applyActions_get hs' .manifest d
    simp [halves_putActions, about, ObjectAction.digest, act] at hget
    exact ⟨_, hget, Finset.mem_insert_self .., Finset.mem_insert_self ..⟩

/-! ### The invariant -/

/-- The node has stored the object since the pass looked. -/
def storedSince (log : List Entry) (id : RegistryNodeId) (x : Doomed) : Bool :=
  (halves x.kind (actionsOf (log.drop x.readAt))).any fun
    | .stored _ d l => d = x.digest ∧ l = id
    | _ => false

/-- A pass removes a file only if its node has not stored the object since the pass looked and no
    upload of it is between rename and commit there; it announces only such removals. -/
def SparesUploads (s : Registry) : Step → Prop
  | .cleanup i outcome => outcome ≠ .kept → ∀ p ∈ s.passes[i]?, ∀ x ∈ p.todo.head?,
      storedSince s.log p.id x = false ∧
        ∀ up ∈ s.uploads, ¬ (up.id = p.id ∧ up.kind = x.kind ∧ up.digest = x.digest)
  | .commitPass i _ _ => ∀ p ∈ s.passes[i]?, ∀ x ∈ p.cleaned, storedSince s.log p.id x = false
  | _ => True

instance (s : Registry) : ∀ e, Decidable (SparesUploads s e)
  | .cleanup i outcome => inferInstanceAs (Decidable (outcome ≠ .kept →
      ∀ p ∈ s.passes[i]?, ∀ x ∈ p.todo.head?, storedSince s.log p.id x = false ∧
        ∀ up ∈ s.uploads, ¬ (up.id = p.id ∧ up.kind = x.kind ∧ up.digest = x.digest)))
  | .commitPass i _ _ => inferInstanceAs (Decidable
      (∀ p ∈ s.passes[i]?, ∀ x ∈ p.cleaned, storedSince s.log p.id x = false))
  | .rename _ | .commitUpload .. | .failUpload _ | .download .. | .readManifests ..
  | .readBlobs .. | .delete .. | .other .. => isTrue trivial

/-- When the pass looked, the object had no mount. -/
def Doomed.Unmounted (log : List Entry) (x : Doomed) : Prop :=
  x.readAt ≤ log.length ∧ ∃ db o, replay (log.take x.readAt) = some db ∧
    (db.tree x.kind)[x.digest]? = some o ∧ o.repositories = ∅

/-- From the place of its transaction on, the log has stored the upload and kept it. -/
structure Ack.Held (log : List Entry) (a : Ack) : Prop where
  place : a.place < log.length
  stored : ∃ e ts, log[a.place]? = some e ∧ .stored ts a.digest a.id ∈ halves a.kind e.actions
  since : ∀ j, a.place < j → j ≤ log.length → ∃ db, replay (log.take j) = some db ∧
    Has a.repository a.id (db.tree a.kind)[a.digest]?

/-- What holds along every run that spares uploads. -/
structure Kept (s : Registry) : Prop where
  replays : (replay s.log).isSome
  uploads : ∀ up ∈ s.uploads, (up.id, up.kind, up.digest) ∈ s.files
  doomed : ∀ p ∈ s.passes, ∀ x, x ∈ p.todo ∨ x ∈ p.cleaned → x.Unmounted s.log
  held : ∀ a ∈ s.acks, a.Held s.log
  files : ∀ a ∈ s.acks, (a.id, a.kind, a.digest) ∈ s.files

theorem Doomed.Unmounted.extend {log : List Entry} {x : Doomed} (h : x.Unmounted log) (e : Entry) :
    x.Unmounted (log ++ [e]) := by
  obtain ⟨hle, db, o, hdb, ho⟩ := h
  refine ⟨by simp; omega, db, o, ?_, ho⟩
  rwa [List.take_append_of_le_length hle]

/-- An entry that leaves the upload alone keeps it held. -/
theorem Ack.Held.extend {log : List Entry} {a : Ack} (h : a.Held log) {e : Entry} {db : Db}
    (hdb : replay (log ++ [e]) = some db)
    (hops : ∀ op ∈ halves a.kind e.actions, Leaves a.digest a.repository a.id op) :
    a.Held (log ++ [e]) where
  place := by simpa using Nat.lt_succ_of_lt h.place
  stored := by
    obtain ⟨f, ts, hf, hmem⟩ := h.stored
    exact ⟨f, ts, by rwa [List.getElem?_append_left h.place], hmem⟩
  since j hj hle := by
    rcases Nat.lt_or_ge log.length j with hgt | hle'
    · -- the new entry: step from the old end of the log
      obtain rfl : j = log.length + 1 := by simp at hle; omega
      obtain ⟨m, hm, hlast⟩ := replica.run_snoc_some hdb
      obtain ⟨m', hm', hhas⟩ := h.since log.length h.place le_rfl
      rw [List.take_length] at hm'
      obtain rfl : m = m' := Option.some.inj (hm.symm.trans hm')
      refine ⟨db, by rwa [List.take_of_length_le (by simp)], ?_⟩
      exact has_after (applyEntry_cases hlast).1 a.kind hhas hops
    · obtain ⟨m, hm, hhas⟩ := h.since j hj hle'
      exact ⟨m, by rwa [List.take_append_of_le_length hle'], hhas⟩

/-- An upload that commits is held. -/
theorem held_commit {log : List Entry} {db : Db} (h : replay log = some db) (up : Upload)
    (now : Clock) (leader : LeaderId) :
    (replay (log ++ [nextEntry log leader (.normal (.transaction (up.actions now)))])).isSome ∧
      (⟨up.kind, up.id, up.repository, up.digest, log.length⟩ : Ack).Held
        (log ++ [nextEntry log leader (.normal (.transaction (up.actions now)))]) := by
  obtain ⟨t, ht, hhas⟩ := upload_applies now up db.toTrees
  set e := nextEntry log leader (.normal (.transaction (up.actions now))) with he
  have hsome : (replay (log ++ [e])).isSome :=
    (replay_commit_isSome h leader (up.actions now)).mpr (by simp [ht])
  refine ⟨hsome, by simp, ?_, ?_⟩
  · obtain ⟨ts, hmem⟩ : ∃ ts, .stored ts up.digest up.id ∈ halves up.kind (up.actions now) := by
      cases up with
      | blob id r d n u => exact ⟨now 2, by simp [Upload.kind, Upload.actions, halves,
          uploadActions, RegistryAction.half, Upload.digest, Upload.id]⟩
      | manifest id r t d n x u => exact ⟨now (x.blobs.length + 2), by simp [Upload.kind,
          Upload.actions, halves_putActions, Upload.digest, Upload.id]⟩
    exact ⟨e, ts, by simp, hmem⟩
  · intro j hj hle
    obtain rfl : j = log.length + 1 := by
      simp only [List.length_append, List.length_singleton] at hle
      exact le_antisymm hle hj
    obtain ⟨db', hdb'⟩ := Option.isSome_iff_exists.mp hsome
    obtain ⟨m, hm, hlast⟩ := replica.run_snoc_some hdb'
    obtain rfl : db = m := Option.some.inj (h.symm.trans hm)
    replace hlast : applyEntry db e = some db' := hlast
    have hstep : applyActions db.toTrees e.actions = some db'.toTrees := (applyEntry_cases hlast).1
    have htrees : t = db'.toTrees := Option.some.inj (ht.symm.trans hstep)
    rw [htrees] at hhas
    exact ⟨db', by rwa [List.take_of_length_le (by simp)], hhas⟩

/-- A pass that the condition holds back meets no acknowledged upload on its node. -/
theorem no_ack_of_doomed {log : List Entry} {a : Ack} {x : Doomed} (ha : a.Held log)
    (hx : x.Unmounted log) (hs : storedSince log a.id x = false) :
    ¬ (a.kind = x.kind ∧ a.digest = x.digest) := by
  rintro ⟨hk, hd⟩
  obtain ⟨hle, db, o, hdb, ho, hempty⟩ := hx
  rcases Nat.lt_or_ge a.place x.readAt with hlt | hge
  · obtain ⟨db', hdb', y, hy, hr, -⟩ := ha.since x.readAt hlt hle
    obtain rfl : db = db' := Option.some.inj (hdb.symm.trans hdb')
    rw [hk, hd, ho] at hy
    obtain rfl := Option.some.inj hy
    simp [hempty] at hr
  · -- the transaction of the upload is among the entries since the read
    obtain ⟨e, ts, he, hmem⟩ := ha.stored
    have hin : e ∈ log.drop x.readAt := by
      refine List.mem_of_getElem? (i := a.place - x.readAt) ?_
      rw [List.getElem?_drop, Nat.add_sub_cancel' hge, he]
    have hop : .stored ts a.digest a.id ∈ halves x.kind (actionsOf (log.drop x.readAt)) := by
      rw [← hk]
      obtain ⟨b, hb, hhalf⟩ := List.mem_filterMap.mp hmem
      exact List.mem_filterMap.mpr ⟨b, List.mem_flatMap.mpr ⟨e, hin, hb⟩, hhalf⟩
    simpa [hd] using List.any_eq_false.mp hs _ hop

/-- An entry that takes nothing away keeps every upload held. -/
theorem held_extend_of_not_takesAway {s : Registry} (h : Kept s) {e : Entry} {db : Db}
    (hdb : replay (s.log ++ [e]) = some db) (he : e.actions.all (!takesAway ·) = true) :
    ∀ a ∈ s.acks, a.Held (s.log ++ [e]) := fun a ha =>
  (h.held a ha).extend hdb (leaves_of_not_takesAway he a.kind a.digest a.repository a.id)

theorem kept_commitUpload {s : Registry} (h : Kept s) {i : ℕ} {up : Upload}
    (hup : s.uploads[i]? = some up) (now : Clock) (leader : LeaderId) :
    Kept { s with
      log := s.log ++ [nextEntry s.log leader (.normal (.transaction (up.actions now)))]
      uploads := s.uploads.eraseIdx i
      acks := s.acks ++ [⟨up.kind, up.id, up.repository, up.digest, s.log.length⟩] } := by
  obtain ⟨db, hdb⟩ := Option.isSome_iff_exists.mp h.replays
  obtain ⟨hsome, hnew⟩ := held_commit hdb up now leader
  obtain ⟨db', hdb'⟩ := Option.isSome_iff_exists.mp hsome
  refine ⟨hsome, fun u hu => h.uploads u (List.mem_of_mem_eraseIdx hu),
    fun p hp x hx => (h.doomed p hp x hx).extend _, ?_, ?_⟩
  · intro a ha
    rcases List.mem_append.mp ha with ha | ha
    · exact held_extend_of_not_takesAway h hdb' (upload_not_takesAway now up) a ha
    · rw [List.mem_singleton.mp ha]
      exact hnew
  · intro a ha
    rcases List.mem_append.mp ha with ha | ha
    · exact h.files a ha
    · rw [List.mem_singleton.mp ha]
      exact h.uploads up (List.mem_of_getElem? hup)

theorem kept_commitPass {s : Registry} (h : Kept s) {i : ℕ} {p : Pass}
    (hp : s.passes[i]? = some p) (hg : ∀ x ∈ p.cleaned, storedSince s.log p.id x = false)
    (now : Clock) (leader : LeaderId) :
    Kept { s with
      log := s.log ++ [nextEntry s.log leader (.normal (.transaction (p.actions now)))]
      passes := s.passes.eraseIdx i } := by
  obtain ⟨db, hdb⟩ := Option.isSome_iff_exists.mp h.replays
  have hact : ∀ b ∈ p.actions now, ∃ ts, ∃ x ∈ p.cleaned,
      b = unstoredAction ts x.digest p.id "$system" x.kind := by
    intro b hb
    obtain ⟨j, hj, rfl⟩ := List.mem_mapIdx.mp hb
    exact ⟨now j, p.cleaned[j], List.getElem_mem hj, rfl⟩
  have hsome : (replay (s.log ++
      [nextEntry s.log leader (.normal (.transaction (p.actions now)))])).isSome := by
    refine (replay_commit_isSome hdb leader _).mpr (applyActions_isSome ?_ _)
    intro b hb k ts d l
    obtain ⟨ts', x, -, rfl⟩ := hact b hb
    apply unstoredAction_not_stored
  obtain ⟨db', hdb'⟩ := Option.isSome_iff_exists.mp hsome
  refine ⟨hsome, h.uploads,
    fun q hq x hx => (h.doomed q (List.mem_of_mem_eraseIdx hq) x hx).extend _, ?_,
    h.files⟩
  intro a ha
  refine (h.held a ha).extend hdb' ?_
  intro op hop
  obtain ⟨b, hb, hhalf⟩ := List.mem_filterMap.mp hop
  obtain ⟨ts, x, hx, rfl⟩ := hact b hb
  rw [unstoredAction_half] at hhalf
  split at hhalf
  case isFalse => cases hhalf
  case isTrue hk =>
    obtain rfl := Option.some.inj hhalf
    refine ⟨by simp, ?_⟩
    intro ts' heq
    obtain ⟨-, hd, hid⟩ : ts = ts' ∧ x.digest = a.digest ∧ p.id = a.id := by simpa using heq
    have hx' := h.doomed p (List.mem_of_getElem? hp) x (.inr hx)
    exact no_ack_of_doomed (h.held a ha) hx' (hid ▸ hg x hx) ⟨hk.symm, hd.symm⟩

theorem kept_delete {s : Registry} (h : Kept s) (k : Kind) (r : RepositoryName) (d : Digest)
    (u : String) (now : DateTime) (leader : LeaderId) :
    Kept { s with
      log := s.log ++ [nextEntry s.log leader
        (.normal (.transaction [unmountedAction now d r u k]))]
      acks := s.acks.filter fun a => ¬ (a.kind = k ∧ a.digest = d) } := by
  obtain ⟨db, hdb⟩ := Option.isSome_iff_exists.mp h.replays
  have hsome : (replay (s.log ++ [nextEntry s.log leader
      (.normal (.transaction [unmountedAction now d r u k]))])).isSome := by
    refine (replay_commit_isSome hdb leader _).mpr (applyActions_isSome ?_ _)
    intro b hb k ts d l
    rw [List.mem_singleton.mp hb]
    apply unmountedAction_not_stored
  obtain ⟨db', hdb'⟩ := Option.isSome_iff_exists.mp hsome
  refine ⟨hsome, h.uploads, fun p hp x hx => (h.doomed p hp x hx).extend _, ?_,
    fun a ha => h.files a (List.mem_filter.mp ha).1⟩
  intro a ha
  obtain ⟨hmem, hne⟩ := List.mem_filter.mp ha
  refine (h.held a hmem).extend hdb' ?_
  intro op hop
  obtain ⟨b, hb, hhalf⟩ := List.mem_filterMap.mp hop
  rw [List.mem_singleton.mp hb, unmountedAction_half] at hhalf
  split at hhalf
  case isFalse => cases hhalf
  case isTrue hk =>
    obtain rfl := Option.some.inj hhalf
    refine ⟨?_, by simp⟩
    intro ts heq
    obtain ⟨-, hd, -⟩ : now = ts ∧ d = a.digest ∧ r = a.repository := by simpa using heq
    simp [hk, hd] at hne

/-- What a pass finds in the state it reads was not mounted there. -/
theorem doomedAt_unmounted {log : List Entry} {id : RegistryNodeId} {w : Sweep} {k : Kind}
    {readAt : ℕ} {todo : List Doomed} (h : doomedAt log id w k readAt = some todo) :
    ∀ x ∈ todo, x.Unmounted log := by
  unfold doomedAt at h
  split at h
  case isFalse => cases h
  case isTrue hle =>
    obtain ⟨db, hdb, rfl⟩ := Option.map_eq_some_iff.mp h
    intro x hx
    obtain ⟨d, hd, rfl⟩ := List.mem_map.mp hx
    obtain ⟨o, ho, -, -, hempty⟩ := mem_doomed.mp hd
    exact ⟨hle, db, o, hdb, ho, hempty⟩

/-- Removing a file that no acknowledged upload and no upload under way needs. -/
theorem kept_erase {s : Registry} (h : Kept s) {i : ℕ} {id : RegistryNodeId} {blobsRead : Bool}
    {x : Doomed} {todo cleaned cleaned' : List Doomed}
    (hp : s.passes[i]? = some ⟨id, blobsRead, x :: todo, cleaned⟩)
    (hc : ∀ y ∈ cleaned', y = x ∨ y ∈ cleaned) (hs : storedSince s.log id x = false)
    (hup : ∀ up ∈ s.uploads, ¬ (up.id = id ∧ up.kind = x.kind ∧ up.digest = x.digest)) :
    Kept { s with
      files := s.files.erase (id, x.kind, x.digest)
      passes := s.passes.set i ⟨id, blobsRead, todo, cleaned'⟩ } := by
  have hold := h.doomed _ (List.mem_of_getElem? hp)
  refine ⟨h.replays, ?_, ?_, h.held, ?_⟩
  · intro up hu
    refine Finset.mem_erase.mpr ⟨fun heq => hup up hu ?_, h.uploads up hu⟩
    simpa using heq
  · intro p hp' y hy
    rcases List.mem_or_eq_of_mem_set hp' with hp' | rfl
    · exact h.doomed p hp' y hy
    · rcases hy with hy | hy
      · exact hold y (.inl (List.mem_cons_of_mem _ hy))
      · rcases hc y hy with rfl | hy
        · exact hold y (.inl (List.mem_cons_self ..))
        · exact hold y (.inr hy)
  · intro a ha
    refine Finset.mem_erase.mpr ⟨?_, h.files a ha⟩
    intro heq
    obtain ⟨hid, hk, hd⟩ : a.id = id ∧ a.kind = x.kind ∧ a.digest = x.digest := by simpa using heq
    have hx := hold x (.inl (List.mem_cons_self ..))
    exact no_ack_of_doomed (h.held a ha) hx (hid ▸ hs) ⟨hk, hd⟩

theorem kept_step (s : Registry) (e : Step) (s' : Registry) (h : Kept s) (hg : SparesUploads s e)
    (hs : registryStep s e = some s') : Kept s' := by
  cases e with
  | rename up =>
    obtain rfl := Option.some.inj hs
    refine ⟨h.replays, ?_, h.doomed, h.held, fun a ha => Finset.mem_insert_of_mem (h.files a ha)⟩
    intro u hu
    rcases List.mem_append.mp hu with hu | hu
    · exact Finset.mem_insert_of_mem (h.uploads u hu)
    · rw [List.mem_singleton.mp hu]
      exact Finset.mem_insert_self ..
  | commitUpload i now leader =>
    obtain ⟨up, hup, rfl⟩ := Option.map_eq_some_iff.mp hs
    exact kept_commitUpload h hup now leader
  | failUpload i =>
    obtain rfl := Option.some.inj hs
    exact ⟨h.replays, fun u hu => h.uploads u (List.mem_of_mem_eraseIdx hu), h.doomed, h.held,
      h.files⟩
  | download id k d =>
    obtain rfl := Option.some.inj hs
    exact ⟨h.replays, fun u hu => Finset.mem_insert_of_mem (h.uploads u hu), h.doomed, h.held,
      fun a ha => Finset.mem_insert_of_mem (h.files a ha)⟩
  | readManifests id w readAt =>
    obtain ⟨todo, htodo, rfl⟩ := Option.map_eq_some_iff.mp hs
    refine ⟨h.replays, h.uploads, ?_, h.held, h.files⟩
    intro p hp x hx
    rcases List.mem_append.mp hp with hp | hp
    · exact h.doomed p hp x hx
    · rw [List.mem_singleton.mp hp] at hx
      exact doomedAt_unmounted htodo x (hx.resolve_right (by simp))
  | readBlobs i w readAt =>
    simp only [registryStep] at hs
    split at hs
    case h_1 id cleaned hp =>
      obtain ⟨todo, htodo, rfl⟩ := Option.map_eq_some_iff.mp hs
      refine ⟨h.replays, h.uploads, ?_, h.held, h.files⟩
      intro p hp' x hx
      rcases List.mem_or_eq_of_mem_set hp' with hp' | rfl
      · exact h.doomed p hp' x hx
      · rcases hx with hx | hx
        · exact doomedAt_unmounted htodo x hx
        · exact h.doomed _ (List.mem_of_getElem? hp) x (.inr hx)
    case h_2 => cases hs
  | cleanup i outcome =>
    simp only [registryStep] at hs
    split at hs
    case h_1 id blobsRead x todo cleaned hp =>
      cases outcome with
      | ok =>
        obtain rfl := Option.some.inj hs
        obtain ⟨hst, hup⟩ := hg (by simp) _ hp x rfl
        exact kept_erase h hp (fun y hy => by simpa [or_comm] using hy) hst hup
      | kept =>
        obtain rfl := Option.some.inj hs
        refine ⟨h.replays, h.uploads, ?_, h.held, h.files⟩
        intro p hp' y hy
        rcases List.mem_or_eq_of_mem_set hp' with hp' | rfl
        · exact h.doomed p hp' y hy
        · exact h.doomed _ (List.mem_of_getElem? hp) y (hy.imp_left (List.mem_cons_of_mem _))
      | removed =>
        obtain rfl := Option.some.inj hs
        obtain ⟨hst, hup⟩ := hg (by simp) _ hp x rfl
        exact kept_erase h hp (fun y hy => .inr hy) hst hup
    case h_2 => cases hs
  | commitPass i now leader =>
    simp only [registryStep] at hs
    split at hs
    case h_1 p hp =>
      split at hs
      · obtain rfl := Option.some.inj hs
        exact kept_commitPass h hp (hg p hp) now leader
      · cases hs
    case h_2 => cases hs
  | delete k r d u now leader =>
    obtain rfl := Option.some.inj hs
    exact kept_delete h k r d u now leader
  | other payload leader =>
    simp only [registryStep] at hs
    split at hs
    case isTrue hok =>
      obtain rfl := Option.some.inj hs
      obtain ⟨db, hdb⟩ := Option.isSome_iff_exists.mp hok.1
      exact ⟨hok.1, h.uploads, fun p hp x hx => (h.doomed p hp x hx).extend _,
        held_extend_of_not_takesAway h hdb hok.2, h.files⟩
    case isFalse => cases hs

/-- ACKNOWLEDGED UPLOADS SURVIVE: in every state that a run which spares uploads can reach, an
    upload that has returned 201 and has not been deleted by a client since has its record, with its
    repository and its node, and its file on the disk of that node. -/
theorem acknowledged_kept (es : List Step) (s : Registry)
    (h : registry.run registry.init es = some s)
    (hg : registry.Meets SparesUploads registry.init es) (a : Ack) (ha : a ∈ s.acks) :
    (∃ db o, replay s.log = some db ∧ (db.tree a.kind)[a.digest]? = some o ∧
      a.repository ∈ o.repositories ∧ a.id ∈ o.locations) ∧
    (a.id, a.kind, a.digest) ∈ s.files := by
  have hstart : Kept registry.init := ⟨rfl, by simp [registry], by simp [registry],
    by simp [registry], by simp [registry]⟩
  have hk := registry.run_inv_of_meets kept_step hstart hg h
  obtain ⟨db, hdb, o, ho, hr, hl⟩ := (hk.held a ha).since s.log.length (hk.held a ha).place le_rfl
  rw [List.take_length] at hdb
  exact ⟨⟨db, o, hdb, ho, hr, hl⟩, hk.files a ha⟩

/-! ### A pass before an upload, and a pass around one -/

/-- The upload of a blob to node 1. -/
def helloUpload : Upload := .blob 1 ⟨"library/a"⟩ helloDigest 12 "alice"

/-- The blob is uploaded and deleted by the client. -/
def deletedRun : List Step :=
  [.rename helloUpload, .commitUpload 0 (ticking 10) ⟨1, 1⟩,
   .delete .blob ⟨"library/a"⟩ helloDigest "alice" 20 ⟨1, 1⟩]

/-- The collector of node 1 drops the blob, and then it is uploaded again. -/
def sweptFirst : List Step :=
  deletedRun ++ [.readManifests 1 (plainSweep 30) 2, .readBlobs 0 (plainSweep 30) 2,
    .cleanup 0 .ok, .commitPass 0 (ticking 30) ⟨1, 1⟩,
    .rename helloUpload, .commitUpload 0 (ticking 40) ⟨1, 1⟩]

/-- The blob is uploaded again after the collector of node 1 has read the orphans. -/
def sweptAround : List Step :=
  deletedRun ++ [.readManifests 1 (plainSweep 30) 2, .readBlobs 0 (plainSweep 30) 2,
    .rename helloUpload, .commitUpload 0 (ticking 40) ⟨1, 1⟩,
    .cleanup 0 .ok]

/-- The second upload survives the pass that came before it. -/
theorem acknowledged_kept_sweptFirst :
    ∃ s, registry.run registry.init sweptFirst = some s ∧
      s.acks = [⟨.blob, 1, ⟨"library/a"⟩, helloDigest, 3⟩] ∧
      (1, .blob, helloDigest) ∈ s.files := by
  have hfacts : (registry.run registry.init sweptFirst).map (·.acks) =
      some [⟨.blob, 1, ⟨"library/a"⟩, helloDigest, 3⟩] := by decide +kernel
  obtain ⟨s, h, hacks⟩ := Option.map_eq_some_iff.mp hfacts
  exact ⟨s, h, hacks, (acknowledged_kept sweptFirst s h (by decide +kernel)
    ⟨.blob, 1, ⟨"library/a"⟩, helloDigest, 3⟩ (by simp [hacks])).2⟩

/-- The pass around the second upload removes its file, and its transaction then removes its
    record; nobody has deleted it since the 201. -/
theorem acknowledged_lost_sweptAround :
    (∃ s, registry.run registry.init sweptAround = some s ∧
      s.acks = [⟨.blob, 1, ⟨"library/a"⟩, helloDigest, 2⟩] ∧
      (1, .blob, helloDigest) ∉ s.files) ∧
    ∃ s, registry.run registry.init (sweptAround ++ [.commitPass 0 (ticking 50) ⟨1, 1⟩]) = some s ∧
      s.acks = [⟨.blob, 1, ⟨"library/a"⟩, helloDigest, 2⟩] ∧
      (replay s.log).map (fun db => (db.tree .blob)[helloDigest]?.isSome) = some false := by
  have hfile : (registry.run registry.init sweptAround).map
      (fun s => (s.acks, decide ((1, .blob, helloDigest) ∈ s.files))) =
      some ([⟨.blob, 1, ⟨"library/a"⟩, helloDigest, 2⟩], false) := by decide +kernel
  have hrecord : (registry.run registry.init
      (sweptAround ++ [.commitPass 0 (ticking 50) ⟨1, 1⟩])).map (fun s => (s.acks,
        (replay s.log).map fun db => (db.tree .blob)[helloDigest]?.isSome)) =
      some ([⟨.blob, 1, ⟨"library/a"⟩, helloDigest, 2⟩], some false) := by decide +kernel
  simp only [Option.map_eq_some_iff, Prod.mk.injEq, decide_eq_false_iff_not] at hfile hrecord
  exact ⟨hfile, by simpa only [Option.map_eq_some_iff] using hrecord⟩

end Distribd.Cluster
