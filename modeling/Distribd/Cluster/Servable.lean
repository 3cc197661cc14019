import Distribd.Registry.Read
import Distribd.Cluster.TagIntegrity

/-! Is what is recorded as stored also served? A record that has a location but no size is answered
    as "not found" by every handler. An upload says the size before it stores the blob, and a
    manifest PUT says size and content type, so neither leaves such a record behind. The mirror
    relies on the record that it read: if the last location of the blob leaves during the download
    and a mount that was decided earlier makes the record anew, then the record has no size and the
    mirror stores the blob all the same. `servable_iff` says that this is the only way. -/

namespace Distribd.Cluster
open Schemes Store Distribd.Registry

/-! ### The property and the condition -/

/-- Every blob that is recorded as stored has a size. -/
def BlobsSized (s : Trees) : Prop := ∀ (d : Digest) (o : Object),
  s.blobs[d]? = some o → o.locations ≠ ∅ → o.size.isSome

/-- What a request must find when its transaction commits: the mirror of a blob a record that has a
    size. -/
def Request.FindsSize (s : Trees) : Request → Prop
  | .mirror .blob _ d => ∀ o ∈ s.blobs[d]?, o.size.isSome
  | _ => True

/-- The condition at an event. -/
def KeepsServable (s : State) : Event → Prop
  | .commit i _ => ∀ sub ∈ s.underWay[i]?, ∀ db ∈ replay s.log, sub.request.FindsSize db.toTrees
  | _ => True

instance (s : Trees) : ∀ r : Request, Decidable (r.FindsSize s)
  | .mirror .blob _ d => inferInstanceAs (Decidable (∀ o ∈ s.blobs[d]?, o.size.isSome))
  | .mirror .manifest .. | .delete .. | .deleteTag .. | .upload .. | .mount .. | .put ..
  | .phase1 _ | .phase2 _ _ => isTrue trivial

instance (s : State) : ∀ e, Decidable (KeepsServable s e)
  | .commit i _ => inferInstanceAs (Decidable
      (∀ sub ∈ s.underWay[i]?, ∀ db ∈ replay s.log, sub.request.FindsSize db.toTrees))
  | .submit .. | .lose _ | .blank _ | .membership .. => isTrue trivial

/-! ### One transaction -/

/-- Only a `BlobStored` gives a location to a blob without a size. -/
theorem blobsSized_of_unstoring {s s' : Trees} {actions : List RegistryAction}
    (h : applyActions s actions = some s') (hs : BlobsSized s)
    (hno : ∀ op ∈ halves .blob actions, ∀ ts d l, op ≠ .stored ts d l) : BlobsSized s' := by
  intro d
  refine record_inv h .blob d
    (P := fun o => ∀ x, o = some x → x.locations ≠ ∅ → x.size.isSome) hno (hs d) ?_
  intro o op hold hop _ _ x' hx' hloc
  cases op with
  | stored ts e l => exact absurd rfl (hop ts e l)
  | unstored ts e l =>
    obtain ⟨x, hx, hx'⟩ := Option.bind_eq_some_iff.mp hx'
    split at hx'
    · cases hx'
    · obtain rfl := Option.some.inj hx'
      refine hold x hx ?_
      intro hempty
      simp [hempty] at hloc
  | mounted ts e r =>
    obtain rfl := Option.some.inj hx'
    cases o with
    | none => exact absurd rfl hloc
    | some x => exact hold x rfl hloc
  | unmounted ts e r =>
    obtain ⟨x, hx, rfl⟩ := Option.map_eq_some_iff.mp hx'
    exact hold x hx hloc
  | info ts e ds ct =>
    obtain ⟨x, hx, rfl⟩ := Option.map_eq_some_iff.mp hx'
    exact hold x hx hloc
  | stat ts e n =>
    obtain ⟨x, -, rfl⟩ := Option.map_eq_some_iff.mp hx'
    rfl

/-- An upload says the size of what it stores. -/
theorem blobsSized_upload {s s' : Trees} {now : Clock} {id : RegistryNodeId} {r : RepositoryName}
    {d : Digest} {n : ℕ} {u : String} (h : applyActions s (uploadActions now id r d n u) = some s')
    (hs : BlobsSized s) : BlobsSized s' := by
  intro e o ho hloc
  have hget := applyActions_get h .blob e
  have hhalves : halves .blob (uploadActions now id r d n u) =
      [.mounted (now 0) d r, .stat (now 1) d n, .stored (now 2) d id] := rfl
  rcases eq_or_ne d e with rfl | hne
  · simp only [hhalves, about, ObjectAction.digest, List.filter_cons, decide_true, if_true,
      List.filter_nil, List.foldl_cons, List.foldl_nil, act, Option.map_some] at hget
    obtain rfl := Option.some.inj (hget.symm.trans ho)
    rfl
  · simp only [hhalves, about, ObjectAction.digest, List.filter_cons, hne, decide_false,
      List.filter_nil] at hget
    exact hs e o (hget.symm.trans ho) hloc

/-- What a mirror's transaction does to the record of the blob. -/
theorem mirror_blob_get {s s' : Trees} {ts : DateTime} {d : Digest} {id : RegistryNodeId}
    (h : applyActions s [storedAction ts d id "$internal" .blob] = some s') :
    (∀ e : Digest, d ≠ e → s'.blobs[e]? = s.blobs[e]?) ∧
      ∃ o, s.blobs[d]? = some o ∧ s'.blobs[d]? =
        some { o with updated := ts, locations := insert id o.locations } := by
  have hhalves : halves .blob [storedAction ts d id "$internal" .blob] = [.stored ts d id] := rfl
  constructor
  · intro e hne
    have hget := applyActions_get h .blob e
    simp only [hhalves, about, ObjectAction.digest, List.filter_cons, hne, decide_false,
      List.filter_nil] at hget
    exact hget
  · have hget := applyActions_get h .blob d
    simp only [hhalves, about, ObjectAction.digest, List.filter_cons, decide_true, if_true,
      List.filter_nil, List.foldl_cons, List.foldl_nil, act] at hget
    have hsome := (mirror_isSome_iff ts d id "$internal" .blob s).mp (by rw [h]; rfl)
    obtain ⟨o, ho⟩ := Option.ne_none_iff_exists'.mp hsome
    rw [ho] at hget
    exact ⟨o, ho, hget⟩

/-- Which transactions store a blob: an upload and the mirror. -/
theorem blob_unstoring {now : Clock} {dbR : Db} {req : Request} {actions : List RegistryAction}
    (h : req.transaction now dbR = some actions) (hup : ∀ id r d n u, req ≠ .upload id r d n u)
    (hmirror : ∀ id d, req ≠ .mirror .blob id d) :
    ∀ op ∈ halves .blob actions, ∀ ts d l, op ≠ .stored ts d l := by
  rintro op hop ts d l rfl
  obtain ⟨a, ha, hk⟩ := List.mem_filterMap.mp hop
  rcases transaction_cases h with ⟨id, r, e, n, u, rfl, -⟩ | ⟨r, src, e, u, -, rfl⟩ |
    ⟨id, r, t, e, n, x, u, -, rfl⟩ | ⟨k, e, r, u, -, rfl⟩ | ⟨k, id, e, rfl, -, rfl⟩ |
    ⟨w, -, rfl⟩ | ⟨w, id, -, rfl⟩
  · exact hup id r e n u rfl
  · cases List.mem_singleton.mp ha
    cases hk
  · simp only [putActions, Extracted.actions, List.cons_append, List.mem_cons, List.mem_append,
      List.mem_mapIdx, List.not_mem_nil, or_false, false_or] at ha
    rcases ha with rfl | rfl | rfl | (rfl | ⟨i, hi, rfl⟩) | rfl <;> cases hk
  · rw [List.mem_singleton.mp ha] at hk
    exact unmountedAction_not_stored _ _ _ _ _ _ _ _ _ hk
  · cases k with
    | blob => exact hmirror id e rfl
    | manifest =>
      cases List.mem_singleton.mp ha
      cases hk
  · obtain ⟨k, e, o, r, -, -, -, -, rfl⟩ := mem_phase1 ha
    exact unmountedAction_not_stored _ _ _ _ _ _ _ _ _ hk
  · obtain ⟨k, e, -, rfl⟩ := mem_phase2 ha
    exact unstoredAction_not_stored _ _ _ _ _ _ _ _ _ hk

/-- A transaction that can be applied leaves every stored blob with a size exactly if it finds what
    it must find. -/
theorem blobsSized_transaction_iff {now : Clock} {dbR : Db} {req : Request}
    {actions : List RegistryAction} (h : req.transaction now dbR = some actions) {s s' : Trees}
    (hacts : applyActions s actions = some s') (hs : BlobsSized s) :
    req.FindsSize s ↔ BlobsSized s' := by
  by_cases hmirror : ∃ id d, req = .mirror .blob id d
  · obtain ⟨id, d, rfl⟩ := hmirror
    simp only [Request.transaction, mirrorActions] at h
    split at h
    case isFalse => cases h
    obtain rfl := Option.some.inj h
    obtain ⟨hother, o, ho, ho'⟩ := mirror_blob_get hacts
    constructor
    · intro hfinds e x hx hloc
      rcases eq_or_ne d e with rfl | hne
      · obtain rfl := Option.some.inj (ho'.symm.trans hx)
        exact hfinds o ho
      · exact hs e x ((hother e hne).symm.trans hx) hloc
    · intro hs' x hx
      obtain rfl := Option.some.inj (ho.symm.trans hx)
      have hsized := hs' d _ ho' (Finset.insert_ne_empty _ _)
      exact hsized
  · have hfinds : req.FindsSize s := by
      cases req with
      | mirror k id d =>
        cases k with
        | blob => exact absurd ⟨id, d, rfl⟩ hmirror
        | manifest => trivial
      | _ => trivial
    refine iff_of_true hfinds ?_
    by_cases hup : ∃ id r d n u, req = .upload id r d n u
    · obtain ⟨id, r, d, n, u, rfl⟩ := hup
      obtain rfl := Option.some.inj h
      exact blobsSized_upload hacts hs
    · refine blobsSized_of_unstoring hacts hs (blob_unstoring h ?_ ?_)
      · rintro id r d n u rfl
        exact hup ⟨id, r, d, n, u, rfl⟩
      · rintro id d rfl
        exact hmirror ⟨id, d, rfl⟩

/-! ### Runs -/

/-- In what the replicas hold, every stored blob has a size. -/
def HoldsSized (s : State) : Prop := ∀ db, replay s.log = some db → BlobsSized db.toTrees

theorem keepsServable_iff (s : State) (e : Event) (s' : State) (hi : HoldsDescribed s)
    (hs : HoldsSized s) (_ : True) (h : clusterStep s e = some s') :
    KeepsServable s e ↔ HoldsSized s' := by
  constructor
  · intro hkeeps db' hdb'
    obtain ⟨db, hdb, ⟨i, leader, sub, rfl, hsub, -, hacts, -⟩ | ⟨leader, mem, rfl, htrees, -⟩ |
      ⟨-, -, htrees, -⟩⟩ := clusterStep_replay h hdb'
    · obtain ⟨-, now, dbR, -, hact⟩ := hi.1 sub (List.mem_of_getElem? hsub)
      exact (blobsSized_transaction_iff hact hacts (hs db hdb)).mp (hkeeps sub hsub db hdb)
    · rw [htrees]
      exact hs db hdb
    · rw [htrees]
      exact hs db hdb
  · intro hs'
    cases e with
    | commit i leader =>
      intro sub hsub db hdb
      obtain ⟨-, now, dbR, -, hact⟩ := hi.1 sub (List.mem_of_getElem? hsub)
      -- an entry that panics met no record at all
      cases hacts : applyActions db.toTrees sub.actions with
      | some t =>
        obtain ⟨sub', hsub', rfl⟩ := Option.map_eq_some_iff.mp h
        obtain rfl : sub = sub' := Option.some.inj (hsub.symm.trans hsub')
        refine (blobsSized_transaction_iff hact hacts (hs db hdb)).mpr ?_
        refine hs' { db with toTrees := t, lastAppliedLog := some ⟨leader, s.log.length⟩ } ?_
        simp [replay_snoc, show replay s.log = some db from hdb, applyEntry, nextEntry, hacts]
      | none =>
        cases hreq : sub.request with
        | mirror k id d =>
          cases k with
          | blob =>
            intro o ho
            obtain ⟨now', -, -, -, -, hactions⟩ :=
              mirror_saw_record (hi.1 sub (List.mem_of_getElem? hsub)) hreq
            rw [hactions] at hacts
            have hsome := (mirror_isSome_iff now' d id "$internal" .blob db.toTrees).mpr
              (Option.ne_none_iff_exists'.mpr ⟨o, ho⟩)
            rw [hacts] at hsome
            cases hsome
          | manifest => trivial
        | _ => trivial
    | _ => trivial

theorem holdsSized_init : HoldsSized cluster.init := by
  intro db hdb d o ho
  obtain rfl := Option.some.inj hdb
  simp [Db.new, Trees.empty] at ho

/-! ### What the handlers answer -/

/-- Every handler answers `200` for the object: on the registry port to a token with `pull` on one of
    its repositories, on the raft port when it is stored on the node. -/
def Answered (app : App) (d : Digest) (o : Object) : Kind → Prop
  | .blob =>
    (∀ token r, token.hasPermission r "pull" = true → r ∈ o.repositories →
      (Blobs.get app token r d).status = 200 ∧ (Blobs.head app token r d).status = 200) ∧
    (app.id ∈ o.locations → (Network.getBlob app d).status = 200)
  | .manifest =>
    (∀ token r, token.hasPermission r "pull" = true → r ∈ o.repositories →
      (Manifests.get app token r d).status = 200 ∧ (Manifests.head app token r d).status = 200 ∧
      ∀ tag, getTag app.trees r tag = some d → (Manifests.getByTag app token r tag).status = 200 ∧
        (Manifests.headByTag app token r tag).status = 200) ∧
    (app.id ∈ o.locations → (Network.getManifest app d).status = 200)

theorem answered_of_servable {app : App} {k : Kind} {d : Digest} {o : Object}
    (ho : (app.trees.tree k)[d]? = some o) (hs : Servable k o) (hfile : app.isFile k d = true) :
    Answered app d o k := by
  obtain ⟨ct, hserve⟩ := serve_ok hs hfile
  have hstatus : (serve app k d o).status = 200 := by simp [Reply.status, hserve]
  have hpull : ∀ (token : Token) r, token.hasPermission r "pull" = true → r ∈ o.repositories →
      (authorized app token r (pull app k r d)).status = 200 := by
    intro token r htoken hr
    have hvalid := validated_of_hasPermission htoken
    simpa only [authorized, pull, hvalid, htoken, ho, hr, Bool.true_eq_false, dite_false, if_true]
      using hstatus
  have hpeer : app.id ∈ o.locations → (peerGet app k d).status = 200 := by
    intro hid
    simpa only [peerGet, ho, hid, if_true] using hstatus
  cases k with
  | blob => exact ⟨fun token r htoken hr => ⟨hpull token r htoken hr, hpull token r htoken hr⟩, hpeer⟩
  | manifest =>
    refine ⟨?_, hpeer⟩
    intro token r htoken hr
    refine ⟨hpull token r htoken hr, hpull token r htoken hr, ?_⟩
    intro tag htag
    simp only [Manifests.getByTag, Manifests.headByTag, htag]
    exact ⟨hpull token r htoken hr, hpull token r htoken hr⟩

/-- SERVABLE, exactly: over a whole run of the cluster, in every state every blob with a location has
    a size, every manifest with a location has a size and a content type, and every handler that
    finds the file answers `200` for it, if and only if no mirror transaction commits on a blob
    record without a size, that is on one that a mount has made anew since the mirror read it. -/
theorem servable_iff (es : List Event) (s : State) (h : cluster.run cluster.init es = some s) :
    (∀ xs ys t db, es = xs ++ ys → cluster.run cluster.init xs = some t →
      replay t.log = some db →
        (∀ (d : Digest) (o : Object), db.blobs[d]? = some o → o.locations ≠ ∅ → o.size.isSome) ∧
        (∀ (d : Digest) (o : Object), db.manifests[d]? = some o → o.locations ≠ ∅ →
          o.size.isSome ∧ o.contentType.isSome) ∧
        ∀ (app : App) (k : Kind) (d : Digest) (o : Object), app.trees = db.toTrees →
          (db.tree k)[d]? = some o → o.locations ≠ ∅ → app.isFile k d = true →
            Answered app d o k) ↔
    cluster.Meets KeepsServable cluster.init es := by
  rw [← cluster.meets_iff_run_inv (A := fun _ _ => True)
    (fun t e t' hd _ ht => holdsDescribed_step t e t' hd ht) keepsServable_iff holdsDescribed_init
    holdsSized_init (cluster.meets_true es _) h]
  constructor
  · intro hall xs ys t hes ht db hdb
    exact (hall xs ys t db hes ht hdb).1
  · intro hall xs ys t db hes ht hdb
    have hblobs := hall xs ys t hes ht db hdb
    have hmanifests := (cluster.run_inv holdsDescribed_step holdsDescribed_init ht).2 db hdb
    refine ⟨hblobs, fun d o ho _ => (hmanifests d o ho).symm, ?_⟩
    intro app k d o happ ho hloc hfile
    refine answered_of_servable (by rwa [happ]) ?_ hfile
    cases k with
    | blob => exact ⟨hblobs d o ho hloc, nofun⟩
    | manifest => exact ⟨(hmanifests d o ho).2, fun _ => (hmanifests d o ho).1⟩

/-! ### An undisturbed mirror and a mount that comes late -/

/-- While the mirror of node 1 fetches the blob and a mount into `library/b` waits for its commit, a
    client deletes the blob and the collector of node 2 drops it. The mount makes the record anew,
    and the mirror stores the blob. -/
def lateMountRun : List Event :=
  uploadRun ++
    [.submit (.mirror .blob 1 helloDigest) (ticking 20) 2,
     .submit (.mount ⟨"library/b"⟩ ⟨"library/a"⟩ helloDigest "bob") (ticking 25) 2,
     .submit (.delete .blob ⟨"library/a"⟩ helloDigest "alice") (ticking 30) 2, .commit 2 ⟨1, 2⟩,
     .submit (.phase2 (plainSweep 40) 2) (ticking 40) 3, .commit 2 ⟨1, 2⟩,
     .commit 1 ⟨1, 2⟩, .commit 0 ⟨1, 2⟩]

/-- Node 1 with all files in place. -/
def nodeOne (s : Trees) : App := ⟨1, s, fun _ _ => true, .ascending⟩

/-- After the undisturbed mirror, node 1 serves the blob. -/
theorem servable_iff_mirrorRun :
    ∃ s db o, cluster.run cluster.init mirrorRun = some s ∧ replay s.log = some db ∧
      db.blobs[helloDigest]? = some o ∧ o.locations = {1, 2} ∧
      Answered (nodeOne db.toTrees) helloDigest o .blob := by
  have hfacts : ((cluster.run cluster.init mirrorRun).bind fun s => (replay s.log).bind fun db =>
      (db.blobs[helloDigest]?).map fun o => decide (o.locations = {1, 2})) = some true := by
    decide +kernel
  simp only [Option.bind_eq_some_iff, Option.map_eq_some_iff, decide_eq_true_eq] at hfacts
  obtain ⟨s, h, db, hdb, o, ho, hloc⟩ := hfacts
  refine ⟨s, db, o, h, hdb, ho, hloc, ?_⟩
  have hall := (servable_iff mirrorRun s h).mpr (by decide +kernel)
  refine (hall mirrorRun [] s db (List.append_nil _).symm h hdb).2.2 (nodeOne db.toTrees)
    .blob helloDigest o rfl ho ?_ rfl
  rw [hloc]
  decide

/-- After the late mount the blob is recorded as stored on node 1 and as mounted in `library/b`, and
    node 1 answers "not found" to clients and peers, although it has the file. -/
theorem lateMountRun_unservable :
    ∃ s db o, cluster.run cluster.init lateMountRun = some s ∧ replay s.log = some db ∧
      db.blobs[helloDigest]? = some o ∧ o.locations = {1} ∧
      o.repositories = {⟨"library/b"⟩} ∧ o.size = none ∧
      (Blobs.get (nodeOne db.toTrees) .anonymous ⟨"library/b"⟩ helloDigest).result
        = .error .blobNotFound ∧
      (Network.getBlob (nodeOne db.toTrees) helloDigest).result = .error .blobNotFound := by
  have hfacts : ((cluster.run cluster.init lateMountRun).bind fun s => (replay s.log).bind fun db =>
      (db.blobs[helloDigest]?).map fun o => decide (o.locations = {1} ∧
        o.repositories = {⟨"library/b"⟩} ∧ o.size = none)) = some true := by
    decide +kernel
  simp only [Option.bind_eq_some_iff, Option.map_eq_some_iff, decide_eq_true_eq] at hfacts
  obtain ⟨s, h, db, hdb, o, ho, hloc, hrepos, hsize⟩ := hfacts
  refine ⟨s, db, o, h, hdb, ho, hloc, hrepos, hsize, ?_, ?_⟩
  · simp [Blobs.get, authorized, Token.anonymous, Token.hasPermission, pull,
      nodeOne, Trees.tree, ho, hrepos, serve, hsize, refuse, notFound]
  · simp [Network.getBlob, peerGet, nodeOne, Trees.tree, ho, hloc, serve, hsize, refuse,
      notFound]

end Distribd.Cluster
