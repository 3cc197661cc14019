import Distribd.Registry.Provenance

/-! Which paths are asked for. Parsing takes any text after `sha256:` for a hash, so a request can
    name digests whose hash is empty or has slashes in it, and the path functions would panic on
    them or leave the store. They are never called with one: a handler, a walk of the extractor, the
    mirror and the collector come to a path by a record of the digest or by a content that hashes to
    it (`handle_known`), and a record exists only for digests of contents (`wellFormed_of_record`).
    `Event.paths` lists the calls of an event. -/

namespace Distribd.Registry
open Schemes Store Cluster
open Node (Bytes)

/-! ### Keys -/

/-- What is mounted anywhere is the digest of a content. -/
theorem wellFormed_of_mounted {sha : Sha256} {es : List Event} {s : State} {a : RegistryAction}
    {k : Kind} {ts : DateTime} {r : RepositoryName} {d : Digest}
    (h : (registry sha).run (registry sha).init es = some s) (ha : a ∈ actionsOf s.log)
    (hhalf : a.half k = some (.mounted ts d r)) : WellFormed d := by
  induction hn : es.length using Nat.strong_induction_on generalizing es s a k ts r with
  | _ n ih =>
    obtain ⟨xs, m, e, sub, hsent, hmem, hcommit⟩ := (run_accounted h).log a ha
    obtain ⟨hmount, request, db, rfl, hdb, hperm⟩ := permitted_of_mounted hsent hmem hhalf
    rcases hmount.cases with ⟨id, n', u, -, hreq⟩ | ⟨source, u, -, hreq⟩ |
      ⟨id, t, n', x, u, -, hreq⟩
    · rw [hreq] at hperm
      obtain ⟨-, bytes, -, rfl⟩ := hperm
      exact sha.wellFormed bytes
    · -- the record was there before
      rw [hreq] at hperm
      obtain ⟨-, -, blob, hblob, -⟩ := hperm
      have hrecord : (db.tree .blob)[d]? ≠ none := by
        rw [show (db.tree .blob)[d]? = some blob from hblob]
        simp
      obtain ⟨b, hb, ts', r', hhalf'⟩ := mounted_of_record hdb hrecord
      exact ih xs.length (hn ▸ hcommit.length_lt) hsent.1 hb hhalf' rfl
    · rw [hreq] at hperm
      obtain ⟨-, bytes, -, rfl⟩ := hperm
      exact sha.wellFormed bytes

/-- KEYS STAY WELL-FORMED in every state of every node. -/
theorem wellFormed_of_record {sha : Sha256} {es : List Event} {s : State} {readAt : ℕ} {db : Db}
    {k : Kind} {d : Digest} (h : (registry sha).run (registry sha).init es = some s)
    (hdb : dbAt s readAt = some db) (ho : (db.tree k)[d]? ≠ none) : WellFormed d := by
  obtain ⟨a, ha, ts, r, hhalf⟩ := mounted_of_record hdb ho
  exact wellFormed_of_mounted h ha hhalf

/-! ### Calls -/

/-- The digest has a record of the kind, or a content. -/
def Known (trees : Trees) (sha : Sha256) (p : Kind × Digest) : Prop :=
  (trees.tree p.1)[p.2]? ≠ none ∨ ∃ bytes, sha.digest bytes = p.2

/-- So have all that a handler asks for the paths of. -/
def AllKnown {α : Type} (trees : Trees) (sha : Sha256) (reply : Reply α) : Prop :=
  ∀ p ∈ reply.paths, Known trees sha p

section

variable {app : App} {sha : Sha256} {token : Token} {r : RepositoryName} {file : UploadFile}

theorem refuse_known {α : Type} {trees : Trees} (e : RegistryError) :
    AllKnown trees sha (refuse e : Reply α) := fun p hp => by cases hp

theorem as_known {α : Type} {reply : Reply α} {f : α → Response}
    (h : AllKnown app.trees sha reply) : AllKnown app.trees sha (reply.as f) := h

theorem serve_known {k : Kind} {d : Digest} {o : Object} (ho : (app.trees.tree k)[d]? = some o) :
    AllKnown app.trees sha (serve app k d o) := by
  unfold serve
  split
  · intro p hp
    obtain rfl := List.mem_singleton.mp hp
    exact .inl (by simp [ho])
  · exact refuse_known _

theorem pull_known (k : Kind) (d : Digest) : AllKnown app.trees sha (pull app k r d) := by
  unfold pull
  split
  · exact refuse_known _
  · rename_i o ho
    split
    · exact serve_known ho
    · exact refuse_known _

theorem peerGet_known (k : Kind) (d : Digest) : AllKnown app.trees sha (peerGet app k d) := by
  unfold peerGet
  split
  · exact refuse_known _
  · rename_i o ho
    split
    · exact serve_known ho
    · exact refuse_known _

theorem authorized_known {answer : Reply Served} (h : AllKnown app.trees sha answer) :
    AllKnown app.trees sha (authorized app token r answer) := by
  unfold authorized
  split
  · exact refuse_known _
  · split
    · exact h
    · exact refuse_known _

theorem byTag_known (tag : String) :
    AllKnown app.trees sha (Manifests.getByTag app token r tag) := by
  refine authorized_known ?_
  split
  · exact refuse_known _
  · exact pull_known .manifest _

theorem pushAuthorized_known {answer : Reply Accepted} (h : AllKnown app.trees sha answer) :
    AllKnown app.trees sha (pushAuthorized app token r answer) := by
  unfold pushAuthorized
  split
  · exact refuse_known _
  · split
    · exact h
    · exact refuse_known _

theorem finishUpload_known (d : Digest) (u : String) :
    AllKnown app.trees sha (finishUpload app sha r d u file) := by
  unfold finishUpload
  split
  · exact refuse_known _
  · split
    · exact refuse_known _
    · rename_i hvalid
      intro p hp
      obtain rfl := List.mem_singleton.mp hp
      obtain ⟨bytes, -, hbytes⟩ := exists_of_validateHash (Bool.eq_true_of_not_eq_false hvalid)
      exact .inr ⟨bytes, hbytes⟩

theorem startUpload_known (d : Option Digest) (u : String) (opened : Bool) :
    AllKnown app.trees sha (startUpload app sha r d u file opened) := by
  unfold startUpload
  split
  · exact finishUpload_known _ u
  · split
    · exact fun p hp => by cases hp
    · exact refuse_known _

theorem post_known (query : BlobUploadPostQuery) (opened : Bool) :
    AllKnown app.trees sha (Uploads.post app sha token r query file opened) := by
  unfold Uploads.post
  split
  · exact refuse_known _
  · split
    · exact refuse_known _
    · split
      · split
        · exact refuse_known _
        · split
          · exact refuse_known _
          · split
            · split
              · exact fun p hp => by cases hp
              · exact startUpload_known _ _ _
            · exact startUpload_known _ _ _
      · exact startUpload_known _ _ _

theorem put_known (d : Digest) (isFile : Bool) :
    AllKnown app.trees sha (Uploads.put app sha token r d file isFile) := by
  refine pushAuthorized_known ?_
  split
  · exact refuse_known _
  · split
    · exact refuse_known _
    · exact finishUpload_known d _

theorem putManifest_known {env : ExtractEnv} {tag : String} {contentType : Option String}
    {reply : Reply Accepted}
    (h : Manifests.put app sha env token r tag contentType file = some reply) :
    AllKnown app.trees sha reply := by
  unfold Manifests.put at h
  split at h
  · cases h
    exact refuse_known _
  · split at h
    · unfold putManifest at h
      split at h
      · rename_i digest _ _ hhash
        obtain ⟨ct, -, h⟩ := Option.bind_eq_some_iff.mp h
        obtain ⟨res, hres, rfl⟩ := Option.map_eq_some_iff.mp h
        have hpaths := extract_paths hres
        have hblob : ∀ d, app.trees.blobs[d]? ≠ none → Known app.trees sha (.blob, d) :=
          fun d hd => .inl hd
        cases res with
        | ok found =>
          obtain ⟨x, paths⟩ := found
          intro p hp
          rcases List.mem_append.mp hp with hp | hp
          · obtain ⟨d, hd, rfl⟩ := List.mem_map.mp hp
            exact hblob d (hpaths d hd)
          · obtain rfl := List.mem_singleton.mp hp
            obtain ⟨bytes, -, hbytes⟩ := Option.map_eq_some_iff.mp hhash
            exact .inr ⟨bytes, hbytes⟩
        | error e =>
          intro p hp
          obtain ⟨d, hd, rfl⟩ := List.mem_map.mp hp
          exact hblob d (hpaths d hd)
      · cases h
        exact refuse_known _
    · cases h
      exact refuse_known _

theorem deleteObject_known (k : Kind) (d : Digest) :
    AllKnown app.trees sha (deleteObject app token k r d) := by
  refine pushAuthorized_known ?_
  split
  · exact fun p hp => by cases hp
  · exact refuse_known _

theorem deleteByTag_known (tag : String) :
    AllKnown app.trees sha (Manifests.deleteByTag app token r tag) := by
  refine pushAuthorized_known ?_
  split
  · exact refuse_known _
  · split
    · exact fun p hp => by cases hp
    · exact refuse_known _

/-- Every handler asks for paths of what has a record or a content. -/
theorem handle_known {found : Found} {call : Call} {reply : Reply Response}
    (h : handle app sha token found call = some reply) : AllKnown app.trees sha reply := by
  have hparsed : ∀ {α : Type} {text : String} {answer : Digest → Reply α} {f : α → Response},
      (∀ d, AllKnown app.trees sha (answer d)) →
        (Digest.tryFrom text).map (fun d => (answer d).as f) = some reply →
          AllKnown app.trees sha reply := by
    intro α text answer f hall hanswer
    obtain ⟨d, -, rfl⟩ := Option.map_eq_some_iff.mp hanswer
    exact as_known (hall d)
  cases call with
  | getBlob r d => exact hparsed (fun d => authorized_known (pull_known .blob d)) h
  | headBlob r d => exact hparsed (fun d => authorized_known (pull_known .blob d)) h
  | getManifest r d => exact hparsed (fun d => authorized_known (pull_known .manifest d)) h
  | headManifest r d => exact hparsed (fun d => authorized_known (pull_known .manifest d)) h
  | getManifestByTag r t =>
    cases h
    exact as_known (byTag_known t)
  | headManifestByTag r t =>
    cases h
    exact as_known (byTag_known t)
  | peer k d =>
    cases k
    · exact hparsed (fun d => peerGet_known .blob d) h
    · exact hparsed (fun d => peerGet_known .manifest d) h
  | postUpload r mount source digest =>
    obtain ⟨mount, -, h⟩ := Option.bind_eq_some_iff.mp h
    obtain ⟨digest, -, rfl⟩ := Option.map_eq_some_iff.mp h
    exact as_known (post_known _ _)
  | putUpload r d => exact hparsed (fun d => put_known d _) h
  | putManifest r t =>
    obtain ⟨answer, hanswer, rfl⟩ := Option.map_eq_some_iff.mp h
    exact as_known (putManifest_known hanswer)
  | deleteBlob r d => exact hparsed (fun d => deleteObject_known .blob d) h
  | deleteManifest r d => exact hparsed (fun d => deleteObject_known .manifest d) h
  | deleteManifestByTag r t =>
    cases h
    exact as_known (deleteByTag_known t)

end

/-- The calls of `get_blob_path` and `get_manifest_path` that an event makes: those of its handler,
    which makes none before it panics for want of a content type; that of the mirror once the
    content has the digest; those of the second phase, of which the first makes none; and those of
    one visit of the extractor. -/
def Event.paths (sha : Sha256) (s : State) : Event → List (Kind × Digest)
  | .http request =>
    match request.reply sha s with
    | some reply => reply.paths
    | none => []
  | .mirror k id d content _ readAt =>
    match dbAt s readAt with
    | some db => if wantsTransfer db k id d ∧ sha.digest content = d then [(k, d)] else []
    | none => []
  | .phase2 w id _ readAt =>
    match dbAt s readAt with
    | some db => (w.doomed db.toTrees .manifest id).map (.manifest, ·) ++
        (w.doomed db.toTrees .blob id).map (.blob, ·)
    | none => []
  | .visit env r w e readAt =>
    match dbAt s readAt with
    | some db => (pathsOf (Registry.visit { env with trees := db.toTrees } r
        { w with paths := [] } e)).map (.blob, ·)
    | none => []
  | _ => []

/-- Every event asks for paths of well-formed digests. -/
theorem wellFormed_of_mem_paths {sha : Sha256} {es : List Event} {s : State} {e : Event}
    {p : Kind × Digest} (h : (registry sha).run (registry sha).init es = some s)
    (hp : p ∈ e.paths sha s) : WellFormed p.2 := by
  have hknown : ∀ {readAt : ℕ} {db : Db}, dbAt s readAt = some db → Known db.toTrees sha p →
      WellFormed p.2 := by
    intro readAt db hdb hknown
    rcases hknown with hrecord | ⟨bytes, hbytes⟩
    · exact wellFormed_of_record h hdb hrecord
    · rw [← hbytes]
      exact sha.wellFormed bytes
  cases e with
  | http request =>
    simp only [Event.paths] at hp
    split at hp
    · rename_i reply hreply
      obtain ⟨db, hdb, hhandle⟩ := Option.bind_eq_some_iff.mp hreply
      exact hknown hdb (handle_known hhandle p hp)
    · cases hp
  | mirror k id d content now readAt =>
    simp only [Event.paths] at hp
    split at hp
    · rename_i db hdb
      split at hp
      · rename_i hcontent
        obtain rfl := List.mem_singleton.mp hp
        exact hknown hdb (.inr ⟨content, hcontent.2⟩)
      · cases hp
    · cases hp
  | phase2 w id now readAt =>
    simp only [Event.paths] at hp
    split at hp
    · rename_i db hdb
      have hdoomed : ∀ k, ∀ d ∈ w.doomed db.toTrees k id, Known db.toTrees sha (k, d) := by
        intro k d hd
        obtain ⟨o, ho, -⟩ := mem_doomed.mp hd
        exact .inl (by simp [ho])
      rcases List.mem_append.mp hp with hp | hp
      · obtain ⟨d, hd, rfl⟩ := List.mem_map.mp hp
        exact hknown hdb (hdoomed .manifest d hd)
      · obtain ⟨d, hd, rfl⟩ := List.mem_map.mp hp
        exact hknown hdb (hdoomed .blob d hd)
    · cases hp
  | visit env r w e readAt =>
    simp only [Event.paths] at hp
    split at hp
    · rename_i db hdb
      obtain ⟨d, hd, rfl⟩ := List.mem_map.mp hp
      have hvisit : PathsRecorded { env with trees := db.toTrees } (pathsOf (Registry.visit
          { env with trees := db.toTrees } r { w with paths := [] } e)) :=
        visit_paths e fun d hd => by cases hd
      exact hknown hdb (.inl (hvisit d hd))
    · cases hp
  | phase1 w now readAt => cases hp
  | commit i leader => cases hp
  | lose i => cases hp
  | blank leader => cases hp
  | membership leader mem => cases hp

/-- PATHS STAY INSIDE THE STORE: after every run every key of both trees is well-formed on every
    node, every path that is asked for is that of two, two and two digits and the other 58 under the
    directory of the kind, and two different objects never have one path. -/
theorem paths_of_run {sha : Sha256} {es es' : List Event} {s s' : State} (root : String)
    (h : (registry sha).run (registry sha).init es = some s)
    (h' : (registry sha).run (registry sha).init es' = some s') :
    (∀ readAt db k d, dbAt s readAt = some db → (db.tree k)[d]? ≠ none → WellFormed d) ∧
    (∀ (e : Event) k d, (k, d) ∈ e.paths sha s → ∃ path xx yy zz rest,
      getObjectPath root k d = some path ∧
      path.components = PathBuf.components root.toList ++ [directory k, xx, yy, zz, rest] ∧
      d.hash.toList = xx ++ yy ++ zz ++ rest ∧
      xx.length = 2 ∧ yy.length = 2 ∧ zz.length = 2 ∧ rest.length = 58) ∧
    (∀ (e e' : Event) k k' d d', (k, d) ∈ e.paths sha s → (k', d') ∈ e'.paths sha s' →
      getObjectPath root k d = getObjectPath root k' d' → k = k' ∧ d = d') := by
  refine ⟨fun readAt db k d hdb ho => wellFormed_of_record h hdb ho, ?_, ?_⟩
  · intro e k d hp
    exact getObjectPath_components (wellFormed_of_mem_paths h hp)
  · intro e e' k k' d d' hp hp' heq
    exact getObjectPath_injective (wellFormed_of_mem_paths h hp) (wellFormed_of_mem_paths h' hp') heq

theorem paths_of_run_getMounted :
    ∃ s path, (registry helloSha).run (registry helloSha).init uploadThenMount = some s ∧
      (.blob, helloDigest) ∈ Event.paths helloSha s (.http getMounted) ∧
      getObjectPath "/srv/registry" .blob helloDigest = some path ∧
      (PathBuf.components path).length = 8 := by
  have hfacts : ((registry helloSha).run (registry helloSha).init uploadThenMount).map (fun s =>
      decide ((.blob, helloDigest) ∈ Event.paths helloSha s (.http getMounted))) = some true := by
    decide +kernel
  obtain ⟨s, hs, hmem⟩ := Option.map_eq_some_iff.mp hfacts
  obtain ⟨path, xx, yy, zz, rest, hpath, hcomponents, -⟩ :=
    (paths_of_run "/srv/registry" hs hs).2.1 _ _ _ (of_decide_eq_true hmem)
  refine ⟨s, path, hs, of_decide_eq_true hmem, hpath, ?_⟩
  have hroot : (PathBuf.components "/srv/registry".toList).length = 3 := by decide +kernel
  rw [hcomponents, List.length_append, hroot]
  rfl

end Distribd.Registry
