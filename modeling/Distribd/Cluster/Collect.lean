import Distribd.Store.Journal
import Distribd.Cluster.Submit

/-! What the garbage collector may take. Both phases work on the orphans of the state they read, and
    a tagged manifest, or a blob below one, is no orphan. So a phase whose transaction commits
    before anything else does takes nothing that a tag still needs (`sequential_spares_tagged`).

    Phase 1 sends its unmounts through raft, however, and nobody looks again when they are applied.
    A decision is still valid at its commit exactly as long as no entry that went in between set a
    tag to a manifest that the transaction unmounts, or gave a manifest or a reachable blob a
    dependency that leads to a blob that it unmounts (`phase1_still_valid_iff`). A push of other
    objects does no harm; one that needs a taken object loses the race. -/

namespace Distribd.Cluster
open Schemes Store

/-! ### What a tag protects -/

/-- `b` is below the manifest `m`: along dependencies of manifests first, then of blobs. -/
def Below (s : Trees) (m b : Digest) : Prop :=
  ∃ x, Relation.TransGen (fun a c => c ∈ dependenciesOf s.manifests[a]?) m x ∧
    Relation.ReflTransGen (fun a c => c ∈ dependenciesOf s.blobs[a]?) x b

/-- What the tags of the state protect: the tagged manifests and the blobs below them. -/
def Protected (s : Trees) (k : Kind) (d : Digest) : Prop :=
  ∃ m, Tagged s m ∧ match k with
    | .manifest => d = m
    | .blob => Below s m d

theorem below_reachable {s : Trees} {m b : Digest} (h : Below s m b) : Reachable s b := by
  obtain ⟨x, hm, hb⟩ := h
  refine ⟨x, mem_allDependencies.mpr ?_, hb⟩
  cases hm with
  | single h => exact ⟨m, h⟩
  | tail _ h => exact ⟨_, h⟩

theorem protected_live {s : Trees} {k : Kind} {d : Digest} (h : Protected s k d) : Live s d k := by
  obtain ⟨m, htag, h⟩ := h
  cases k with
  | blob => exact below_reachable h
  | manifest =>
    obtain rfl : d = m := h
    exact htag

/-! ### What a phase takes -/

/-- The action unmounts or unstores the object. -/
def Drops (a : RegistryAction) (k : Kind) (d : Digest) : Prop :=
  (∃ ts r, a.half k = some (.unmounted ts d r)) ∨ ∃ ts l, a.half k = some (.unstored ts d l)

theorem drops_unmounted {now : DateTime} {e : Digest} {r : RepositoryName} {u : String}
    {k k' : Kind} {d : Digest} (h : Drops (unmountedAction now e r u k') k d) : k' = k ∧ e = d := by
  simp only [Drops, unmountedAction_half] at h
  split at h
  case isTrue hk =>
    rcases h with ⟨ts, r', h⟩ | ⟨ts, l, h⟩
    · cases h
      exact ⟨hk, rfl⟩
    · cases h
  case isFalse => simp at h

theorem drops_unstored {now : DateTime} {e : Digest} {l : RegistryNodeId} {u : String}
    {k k' : Kind} {d : Digest} (h : Drops (unstoredAction now e l u k') k d) : k' = k ∧ e = d := by
  simp only [Drops, unstoredAction_half] at h
  split at h
  case isTrue hk =>
    rcases h with ⟨ts, r, h⟩ | ⟨ts, l', h⟩
    · cases h
    · cases h
      exact ⟨hk, rfl⟩
  case isFalse => simp at h

theorem phase1_drops {w : Sweep} {s : Trees} {a : RegistryAction} (ha : a ∈ w.phase1 s) {k : Kind}
    {d : Digest} (h : Drops a k d) : ¬ Live s d k := by
  obtain ⟨k', e, o, r, -, hlive, -, -, rfl⟩ := mem_phase1 ha
  obtain ⟨rfl, rfl⟩ := drops_unmounted h
  exact hlive

theorem phase2_drops {w : Sweep} {s : Trees} {id : RegistryNodeId} {a : RegistryAction}
    (ha : a ∈ w.phase2 s id) {k : Kind} {d : Digest} (h : Drops a k d) : ¬ Live s d k := by
  obtain ⟨k', e, hdoomed, rfl⟩ := mem_phase2 ha
  obtain ⟨o, -, hlive, -⟩ := mem_doomed.mp hdoomed
  obtain ⟨rfl, rfl⟩ := drops_unstored h
  exact hlive

/-- The request is a pass of the collector. -/
def Request.isPhase : Request → Bool
  | .phase1 _ | .phase2 _ _ => true
  | _ => false

/-- What a pass that sees `s` takes: the objects of its actions, and in phase 2 the files it goes on
    to remove, whether or not that succeeds. -/
def Request.Takes (s : Trees) : Request → Kind → Digest → Prop
  | .phase1 w, k, d => ∃ a ∈ w.phase1 s, Drops a k d
  | .phase2 w id, k, d => d ∈ w.doomed s k id ∨ ∃ a ∈ w.phase2 s id, Drops a k d
  | _, _, _ => False

theorem takes_not_live {s : Trees} {r : Request} {k : Kind} {d : Digest} (h : r.Takes s k d) :
    ¬ Live s d k := by
  cases r with
  | phase1 w =>
    obtain ⟨a, ha, hd⟩ := h
    exact phase1_drops ha hd
  | phase2 w id =>
    rcases h with hdoomed | ⟨a, ha, hd⟩
    · exact (mem_doomed.mp hdoomed).elim fun o ho => ho.2.1
    · exact phase2_drops ha hd
  | _ => cases h

/-- The event takes the object: a pass reads the store, emits its actions and removes files, or the
    transaction of a pass commits. -/
def Collects (s : State) : Event → Kind → Digest → Prop
  | .submit r _ readAt, k, d => ∃ db, replay (s.log.take readAt) = some db ∧ r.Takes db.toTrees k d
  | .commit i _, k, d => ∃ sub, s.underWay[i]? = some sub ∧ sub.request.isPhase ∧
      ∃ a ∈ sub.actions, Drops a k d
  | _, _, _ => False

/-- Each pass of the collector reads the current state, and its transaction commits before anything
    else does. -/
def Sequential (s : State) : Event → Prop
  | .submit r _ readAt => r.isPhase → readAt = s.log.length
  | .commit i _ => ∀ sub ∈ s.underWay[i]?, sub.request.isPhase → sub.readAt = s.log.length
  | _ => True

instance (s : State) : ∀ e, Decidable (Sequential s e)
  | .submit r _ readAt => inferInstanceAs (Decidable (r.isPhase → readAt = s.log.length))
  | .commit i _ => inferInstanceAs
      (Decidable (∀ sub ∈ s.underWay[i]?, sub.request.isPhase → sub.readAt = s.log.length))
  | .lose _ | .blank _ | .membership _ _ => isTrue trivial

/-- What a transaction of the collector drops was not live in the state it read. -/
theorem decided_drops {db : Db} {now : Clock} {req : Request} {actions : List RegistryAction}
    (h : req.transaction now db = some actions) (hp : req.isPhase) {a : RegistryAction}
    (ha : a ∈ actions) {k : Kind} {d : Digest} (hd : Drops a k d) : ¬ Live db.toTrees d k := by
  cases req with
  | phase1 w =>
    rw [nonempty_eq_some h] at ha
    exact phase1_drops ha hd
  | phase2 w id =>
    rw [nonempty_eq_some h] at ha
    exact phase2_drops ha hd
  | _ => cases hp

/-- SEQUENTIAL SAFETY: in every run whose collector passes read and commit with nothing in between,
    no event takes a tagged manifest or a blob below one. -/
theorem sequential_spares_tagged (es : List Event) (e : Event) (s : State) (db : Db)
    (hrun : cluster.run cluster.init es = some s)
    (hseq : cluster.Meets Sequential cluster.init (es ++ [e]))
    (hdb : replay s.log = some db) (k : Kind) (d : Digest) (hp : Protected db.toTrees k d) :
    ¬ Collects s e k d := by
  have hlive := protected_live hp
  have hnow := cluster.meets_cut hseq hrun
  cases e with
  | submit r now readAt =>
    rintro ⟨dbR, hR, htakes⟩
    have hphase : r.isPhase := by
      cases r <;> first | rfl | cases htakes
    rw [hnow hphase, List.take_length, hdb] at hR
    cases hR
    exact takes_not_live htakes hlive
  | commit i leader =>
    rintro ⟨sub, hsub, hphase, a, ha, hd⟩
    obtain ⟨-, now, dbR, hR, hact⟩ := run_allDecided hrun sub (List.mem_of_getElem? hsub)
    rw [hnow sub hsub hphase, List.take_length, hdb] at hR
    cases hR
    exact decided_drops hact hphase ha hd hlive
  | _ => exact id

/-- A manifest that depends on the uploaded blob is pushed as `library/a:latest`. -/
def pushBlob : Event :=
  .submit (.put 2 ⟨"library/a"⟩ "latest" emptyDigest 400
    ⟨"application/vnd.oci.image.manifest.v1+json", [helloDigest],
      [(helloDigest, [], "application/vnd.oci.image.config.v1+json")]⟩ "alice") (ticking 30) 2

/-- The time 13 hours after the start. -/
def thirteenHours : DateTime := 13 * 60 * 60 * 1000000000

/-- Thirteen hours after the push the collector leaves the blob alone. -/
theorem sequential_spares_tagged_pushBlob :
    ∃ s db, cluster.run cluster.init (uploadRun ++ [pushBlob, .commit 0 ⟨1, 2⟩]) = some s ∧
      replay s.log = some db ∧ Protected db.toTrees .blob helloDigest ∧
      ¬ Collects s (.submit (.phase1 (plainSweep thirteenHours)) (ticking 0) 3) .blob
        helloDigest := by
  have hfacts : ((cluster.run cluster.init (uploadRun ++ [pushBlob, .commit 0 ⟨1, 2⟩])).bind
      fun s => (replay s.log).map fun db =>
        decide (db.tags[(⟨⟨"library/a"⟩, "latest"⟩ : TagKey)]? = some emptyDigest ∧
          helloDigest ∈ dependenciesOf db.manifests[emptyDigest]?)) = some true := by decide
  simp only [Option.bind_eq_some_iff, Option.map_eq_some_iff, decide_eq_true_eq] at hfacts
  obtain ⟨s, h, db, hdb, htag, hdep⟩ := hfacts
  have hp : Protected db.toTrees .blob helloDigest :=
    ⟨emptyDigest, ⟨_, htag⟩, helloDigest, .single hdep, .refl⟩
  exact ⟨s, db, h, hdb, hp, sequential_spares_tagged _ _ s db h (by decide +kernel) hdb _ _ hp⟩

/-! ### A decision of phase 1 at its commit -/

/-- The pass behind a request, if the request is a phase 1. -/
def Request.phase1? : Request → Option Sweep
  | .phase1 w => some w
  | _ => none

theorem phase1?_eq_some {r : Request} {w : Sweep} (h : r.phase1? = some w) : r = .phase1 w := by
  cases r <;> cases h
  rfl

/-- The transaction unmounts the object or drops a location of it. -/
def Submission.Takes (sub : Submission) (k : Kind) (d : Digest) : Prop :=
  ∃ a ∈ sub.actions, Drops a k d

/-- Recorded dependencies lead from the blob `x` to a blob that the transaction takes, which may be
    `x` itself. -/
def Submission.Below (sub : Submission) (t : Trees) (x : Digest) : Prop :=
  ∃ d, sub.Takes .blob d ∧ Relation.ReflTransGen (fun a c => c ∈ dependenciesOf t.blobs[a]?) x d

/-- What the entries since the read of a transaction leave alone, as the state `t` at its commit has
    it. No tag was set last to a manifest that the transaction takes, and of the dependencies that a
    manifest or a reachable blob was given and still has, none leads to a blob that it takes. -/
structure Spared (sub : Submission) (t : Trees) (since : List RegistryAction) : Prop where
  tags : ∀ key d, lastTag key since = some d → ¬ sub.Takes .manifest d
  manifests : ∀ ts m ds ct, .manifestInfo ts m ds ct ∈ since →
    ∀ x ∈ ds, x ∈ dependenciesOf t.manifests[m]? → ¬ sub.Below t x
  blobs : ∀ ts e ds ct, .blobInfo ts e ds ct ∈ since → Reachable t e →
    ∀ x ∈ ds, x ∈ dependenciesOf t.blobs[e]? → ¬ sub.Below t x

/-- When the transaction of a phase 1 commits, the entries since its read spare what it takes. -/
def KeepsTaken (s : State) : Event → Prop
  | .commit i _ => ∀ sub ∈ s.underWay[i]?, sub.request.phase1?.isSome → ∀ db ∈ replay s.log,
      Spared sub db.toTrees (actionsOf (s.log.drop sub.readAt))
  | _ => True

/-- When the transaction of a phase 1 commits, then at the point where an action of it is applied no
    tag has the manifest it unmounts as its value, and the blob it unmounts is not reachable from
    any stored manifest. -/
def StillValid (s : State) : Event → Prop
  | .commit i _ => ∀ sub ∈ s.underWay[i]?, sub.request.phase1?.isSome → ∀ db ∈ replay s.log,
      ∀ pre a post u, sub.actions = pre ++ a :: post → applyActions db.toTrees pre = some u →
        (∀ ts d r user, a = .manifestUnmounted ts d r user → ¬ Tagged u d) ∧
        (∀ ts d r user, a = .blobUnmounted ts d r user → ¬ Reachable u d)
  | _ => True

/-- An action of phase 1 unmounts an object that was not live in the state that was read. -/
theorem phase1_action {w : Sweep} {s : Trees} {a : RegistryAction} (ha : a ∈ w.phase1 s) :
    ∃ k d ts r, ¬ Live s d k ∧ a = unmountedAction ts d r "$system" k := by
  obtain ⟨k, d, o, r, -, hlive, -, -, rfl⟩ := mem_phase1 ha
  exact ⟨k, d, _, r, hlive, rfl⟩

/-- Liveness depends on the tags and the dependencies of the records alone. -/
theorem live_congr {t u : Trees} (htags : u.tags = t.tags)
    (hdeps : ∀ k (e : Digest), dependenciesOf (u.tree k)[e]? = dependenciesOf (t.tree k)[e]?)
    (k : Kind) (d : Digest) : Live u d k ↔ Live t d k := by
  cases k with
  | manifest => simp only [Live, Tagged, htags]
  | blob =>
    have hroots : allDependencies u.manifests = allDependencies t.manifests := by
      ext x
      rw [mem_allDependencies, mem_allDependencies]
      exact exists_congr fun e => Iff.of_eq (congrArg (x ∈ ·) (hdeps .manifest e))
    have hedges : (fun e : Digest => dependenciesOf u.blobs[e]?) =
        fun e : Digest => dependenciesOf t.blobs[e]? := funext fun e => hdeps .blob e
    simp only [Live, Reachable, hroots, hedges]

/-- The actions of a phase 1 change nobody's liveness. -/
theorem live_unmounts {w : Sweep} {s t u : Trees} {actions : List RegistryAction}
    (h : applyActions t actions = some u) (ha : ∀ a ∈ actions, a ∈ w.phase1 s) (k : Kind)
    (d : Digest) : Live u d k ↔ Live t d k := by
  refine live_congr ?_ ?_ k d
  · refine Std.ExtTreeMap.ext_getElem? fun {key} => ?_
    have hnone : actions.filterMap (tagOf key) = [] := by
      refine List.filterMap_eq_nil_iff.mpr fun a hmem => ?_
      obtain ⟨k, d, ts, r, -, rfl⟩ := phase1_action (ha a hmem)
      cases k <;> rfl
    rw [applyActions_tag h, lastTag, hnone]
    rfl
  · intro k e
    refine record_inv h k e (Q := fun op => ∃ ts e r, op = .unmounted ts e r)
      (P := fun o => dependenciesOf o = dependenciesOf (t.tree k)[e]?) ?_ rfl ?_
    · intro op hop
      obtain ⟨a, hmem, hhalf⟩ := List.mem_filterMap.mp hop
      obtain ⟨k', d, ts, r, -, rfl⟩ := phase1_action (ha a hmem)
      rw [unmountedAction_half] at hhalf
      split at hhalf
      · exact ⟨ts, d, r, (Option.some.inj hhalf).symm⟩
      · cases hhalf
    · rintro o op ho ⟨ts, e', r, rfl⟩ - -
      cases o <;> exact ho

/-- A dependency that a record has after a journal and did not have before was given to it. -/
theorem info_of_new_dependency {s t : Trees} {actions : List RegistryAction}
    (h : applyActions s actions = some t) (k : Kind) {e x : Digest}
    (hx : x ∈ dependenciesOf (t.tree k)[e]?) (hnew : x ∉ dependenciesOf (s.tree k)[e]?) :
    ∃ ts ds ct, .info ts e ds ct ∈ halves k actions ∧ x ∈ ds := by
  have hall := record_induction h k e
    (P := fun ops o => x ∈ dependenciesOf o → x ∉ dependenciesOf (s.tree k)[e]? →
      ∃ ts ds ct, .info ts e ds ct ∈ ops ∧ x ∈ ds)
    (fun hold hno => absurd hold hno) ?_ ?_
  · exact hall hx hnew
  · intro ops o a ih _ hin hno
    obtain ⟨ts, ds, ct, hmem, hd⟩ := ih hin hno
    exact ⟨ts, ds, ct, List.mem_append_left _ hmem, hd⟩
  · intro ops o a ih ha _ hin hno
    rcases mem_dependenciesOf_act hin with hold | ⟨ts, e', ds, ct, rfl, hd⟩
    · obtain ⟨ts, ds, ct, hmem, hd⟩ := ih hold hno
      exact ⟨ts, ds, ct, List.mem_append_left _ hmem, hd⟩
    · obtain rfl : e' = e := ha
      exact ⟨ts, ds, ct, List.mem_append_right _ (List.mem_singleton_self _), hd⟩

theorem mem_halves_info {k : Kind} {actions : List RegistryAction} {ts : DateTime} {e : Digest}
    {ds : List Digest} {ct : String} (h : .info ts e ds ct ∈ halves k actions) :
    match k with
    | .manifest => .manifestInfo ts e ds ct ∈ actions
    | .blob => .blobInfo ts e ds ct ∈ actions := by
  obtain ⟨a, ha, hhalf⟩ := List.mem_filterMap.mp h
  cases k <;> cases a <;> cases hhalf <;> exact ha

/-- A taken object is live at the commit exactly when an entry since the read has brought that about:
    what was not live before can only become so by a tag or a dependency that was set since. -/
theorem spared_iff {sub : Submission} {s t : Trees} {since : List RegistryAction}
    (h : applyActions s since = some t) (hdead : ∀ k d, sub.Takes k d → ¬ Live s d k) :
    (∀ k d, sub.Takes k d → ¬ Live t d k) ↔ Spared sub t since := by
  constructor
  · intro hall
    refine ⟨?_, ?_, ?_⟩
    · intro key d hlast htakes
      refine hall .manifest d htakes ⟨key, ?_⟩
      rw [applyActions_tag h, hlast]
      rfl
    · rintro ts m ds ct - x - hx ⟨d, htakes, hpath⟩
      exact hall .blob d htakes ⟨x, mem_allDependencies.mpr ⟨m, hx⟩, hpath⟩
    · rintro ts e ds ct - ⟨r, hr, hre⟩ x - hx ⟨d, htakes, hpath⟩
      exact hall .blob d htakes ⟨r, hr, (hre.tail hx).trans hpath⟩
  · intro hspared k d htakes hlive
    cases k with
    | manifest =>
      obtain ⟨key, hkey⟩ := hlive
      rw [applyActions_tag h] at hkey
      cases hlast : lastTag key since with
      | some d' =>
        rw [hlast] at hkey
        obtain rfl := Option.some.inj hkey
        exact hspared.tags key d' hlast htakes
      | none =>
        rw [hlast] at hkey
        exact hdead .manifest d htakes ⟨key, hkey⟩
    | blob =>
      rcases reaches_new hlive (hdead .blob d htakes) with
        ⟨x, hx, hnew, hpath⟩ | ⟨e, x, he, hx, hnew, hpath⟩
      · obtain ⟨m, hm⟩ := mem_allDependencies.mp hx
        have hno : x ∉ dependenciesOf s.manifests[m]? :=
          fun hold => hnew (mem_allDependencies.mpr ⟨m, hold⟩)
        obtain ⟨ts, ds, ct, hinfo, hd⟩ := info_of_new_dependency h .manifest hm hno
        exact hspared.manifests ts m ds ct (mem_halves_info hinfo) x hd hm ⟨d, htakes, hpath⟩
      · obtain ⟨ts, ds, ct, hinfo, hd⟩ := info_of_new_dependency h .blob hx hnew
        exact hspared.blobs ts e ds ct (mem_halves_info hinfo) he x hd hx ⟨d, htakes, hpath⟩

/-- At each point of the transaction of a phase 1 its unmounts are valid exactly when none of the
    objects it takes is live at its commit. -/
theorem points_valid_iff {w : Sweep} {s t : Trees} {sub : Submission}
    (hsub : sub.actions = w.phase1 s) :
    (∀ pre a post u, sub.actions = pre ++ a :: post → applyActions t pre = some u →
        (∀ ts d r user, a = .manifestUnmounted ts d r user → ¬ Tagged u d) ∧
        (∀ ts d r user, a = .blobUnmounted ts d r user → ¬ Reachable u d)) ↔
      ∀ k d, sub.Takes k d → ¬ Live t d k := by
  have hpoint : ∀ pre a post u, sub.actions = pre ++ a :: post → applyActions t pre = some u →
      a ∈ w.phase1 s ∧ ∀ k d, Live u d k ↔ Live t d k := by
    intro pre a post u hsplit hu
    have hmem : ∀ b ∈ pre ++ a :: post, b ∈ w.phase1 s := by
      intro b hb
      rwa [← hsub, hsplit]
    exact ⟨hmem a (by simp), live_unmounts hu fun b hb => hmem b (List.mem_append_left _ hb)⟩
  constructor
  · rintro hall k d ⟨a, ha, hdrops⟩ hlive
    obtain ⟨pre, post, hsplit⟩ := List.append_of_mem ha
    obtain ⟨k', e, ts, r, -, rfl⟩ := phase1_action (hsub ▸ ha)
    obtain ⟨rfl, rfl⟩ := drops_unmounted hdrops
    -- unmounts cannot panic, so the point is reached
    have hpre : ∀ b ∈ pre, ∀ k ts d l, b.half k ≠ some (.stored ts d l) := by
      intro b hb k ts d l
      have hmem : b ∈ w.phase1 s := by
        rw [← hsub, hsplit]
        exact List.mem_append_left _ hb
      obtain ⟨k', e, ts', r, -, rfl⟩ := phase1_action hmem
      exact unmountedAction_not_stored _ _ _ _ _ _ _ _ _
    obtain ⟨u, hu⟩ := Option.isSome_iff_exists.mp (applyActions_isSome hpre t)
    obtain ⟨hmanifest, hblob⟩ := hall pre _ post u hsplit hu
    have hu' := ((hpoint pre _ post u hsplit hu).2 k' e).mpr hlive
    cases k' with
    | manifest => exact hmanifest _ _ _ _ rfl hu'
    | blob => exact hblob _ _ _ _ rfl hu'
  · intro hall pre a post u hsplit hu
    obtain ⟨hmem, hkeep⟩ := hpoint pre a post u hsplit hu
    have ha : a ∈ sub.actions := by
      rw [hsplit]
      exact List.mem_append_right _ (List.mem_cons_self ..)
    refine ⟨?_, ?_⟩
    · rintro ts d r user rfl htag
      exact hall .manifest d ⟨_, ha, .inl ⟨ts, r, rfl⟩⟩ ((hkeep .manifest d).mp htag)
    · rintro ts d r user rfl hreach
      exact hall .blob d ⟨_, ha, .inl ⟨ts, r, rfl⟩⟩ ((hkeep .blob d).mp hreach)

/-- The two conditions on a commit agree in every state that a run reaches. -/
theorem stillValid_iff_keepsTaken {es : List Event} {s : State}
    (hrun : cluster.run cluster.init es = some s) (e : Event) : StillValid s e ↔ KeepsTaken s e := by
  cases e with
  | commit i leader =>
    refine forall₂_congr fun sub hsub => forall₃_congr fun hphase db hdb => ?_
    obtain ⟨-, now, dbR, hR, hact⟩ := run_allDecided hrun sub (List.mem_of_getElem? hsub)
    obtain ⟨w, hw⟩ := Option.isSome_iff_exists.mp hphase
    have hreq := phase1?_eq_some hw
    obtain ⟨dbR', hR', hcut⟩ := replay_cut (n := sub.readAt) hdb
    obtain rfl : dbR = dbR' := Option.some.inj (hR.symm.trans hR')
    have hdead : ∀ k d, sub.Takes k d → ¬ Live dbR.toTrees d k := by
      rintro k d ⟨a, ha, hdrops⟩
      exact decided_drops hact (by rw [hreq]; rfl) ha hdrops
    rw [hreq] at hact
    rw [points_valid_iff (nonempty_eq_some hact), spared_iff hcut hdead]
  | _ => exact Iff.rfl

/-- STILL VALID: in every run, at every point of the log where an action of phase 1 is applied, no tag
    has the manifest it unmounts as its value and the blob it unmounts is not reachable from any
    stored manifest, if and only if the entries between read and commit spare what is taken. -/
theorem phase1_still_valid_iff (es : List Event) :
    cluster.Meets StillValid cluster.init es ↔ cluster.Meets KeepsTaken cluster.init es := by
  constructor
  · intro h
    refine cluster.meets_of_cuts fun xs e ys t hes hrun => ?_
    exact (stillValid_iff_keepsTaken hrun e).mp (cluster.meets_cut (hes ▸ h) hrun)
  · intro h
    refine cluster.meets_of_cuts fun xs e ys t hes hrun => ?_
    exact (stillValid_iff_keepsTaken hrun e).mpr (cluster.meets_cut (hes ▸ h) hrun)

/-- The leader reads the orphans thirteen hours after the upload of a blob nobody pushed. -/
def collectBlob : Event := .submit (.phase1 (plainSweep thirteenHours)) (ticking 0) 2

/-- The SHA-256 digest of `{}`. -/
def otherDigest : Digest :=
  ⟨"sha256", "44136fa355b3678a1146ad16f7e8649e94fb4fc21fe77e8310c060f61caaff8a"⟩

/-- A second blob is uploaded one minute before the pass, is orphaned at its read and too young for
    it, and is pushed while the transaction of the pass is under way. -/
def pushYoungRun : List Event :=
  uploadRun ++
  [.submit (.upload 2 ⟨"library/b"⟩ emptyDigest 0 "bob") (ticking (thirteenHours - 60000000000)) 2,
   .commit 0 ⟨1, 2⟩, .submit (.phase1 (plainSweep thirteenHours)) (ticking 0) 3,
   .submit (.put 2 ⟨"library/b"⟩ "latest" otherDigest 400
      ⟨"application/vnd.oci.image.manifest.v1+json", [emptyDigest],
        [(emptyDigest, [], "application/vnd.oci.image.config.v1+json")]⟩ "bob")
      (ticking thirteenHours) 3,
   .commit 1 ⟨1, 2⟩]

/-- The event commits the transaction of a phase 1. -/
def commitsPhase1 (s : State) : Event → Bool
  | .commit i _ => s.underWay[i]?.any fun sub => sub.request.phase1?.isSome
  | _ => false

theorem keepsTaken_of_other {s : State} {e : Event} (h : commitsPhase1 s e = false) :
    KeepsTaken s e := by
  cases e with
  | commit i leader =>
    intro sub hsub hphase
    have hsub' : s.underWay[i]? = some sub := hsub
    rw [commitsPhase1, hsub', Option.any_some, hphase] at h
    cases h
  | _ => trivial

/-- The push spares the old blob, which is all that the pass takes. -/
theorem phase1_still_valid_iff_pushYoungRun :
    cluster.Meets StillValid cluster.init (pushYoungRun ++ [.commit 0 ⟨1, 2⟩]) := by
  refine (phase1_still_valid_iff _).mpr ?_
  have hothers : cluster.Meets (fun s e => commitsPhase1 s e = false) cluster.init pushYoungRun := by
    decide +kernel
  refine cluster.meets_snoc (cluster.meets_mono (fun s e => keepsTaken_of_other) hothers) ?_
  intro s hs sub hsub _ db hdb
  have hfacts : ((cluster.run cluster.init pushYoungRun).bind fun s => (replay s.log).bind fun db =>
      s.underWay[0]?.map fun sub => (sub.actions, actionsOf (s.log.drop sub.readAt),
        dependenciesOf db.blobs[emptyDigest]?)) =
      some ([.blobUnmounted thirteenHours helloDigest ⟨"library/a"⟩ "$system"],
        putActions (ticking thirteenHours) 2 ⟨"library/b"⟩ "latest" otherDigest 400
          ⟨"application/vnd.oci.image.manifest.v1+json", [emptyDigest],
            [(emptyDigest, [], "application/vnd.oci.image.config.v1+json")]⟩ "bob", []) := by
    decide +kernel
  replace hsub : s.underWay[0]? = some sub := hsub
  replace hdb : replay s.log = some db := hdb
  simp only [hs, hdb, hsub, Option.bind_some, Option.map_some, Option.some.injEq,
    Prod.mk.injEq] at hfacts
  obtain ⟨hact, hsince, hdeps⟩ := hfacts
  have htakes : ∀ k d, sub.Takes k d → k = .blob ∧ d = helloDigest := by
    rintro k d ⟨a, ha, hdrops⟩
    rw [hact, List.mem_singleton] at ha
    subst ha
    obtain ⟨rfl, rfl⟩ := @drops_unmounted _ _ _ _ _ .blob _ hdrops
    exact ⟨rfl, rfl⟩
  -- nothing leads on from the young blob
  have hbelow : ¬ sub.Below db.toTrees emptyDigest := by
    rintro ⟨d, hd, hpath⟩
    obtain ⟨-, rfl⟩ := htakes .blob d hd
    rcases hpath.cases_head with heq | ⟨x, hx, -⟩
    · exact absurd heq (by decide)
    · rw [hdeps] at hx
      cases hx
  rw [hsince]
  refine ⟨?_, ?_, ?_⟩
  · intro key d _ hd
    cases (htakes .manifest d hd).1
  · intro ts m ds ct hmem x hx _
    simp [putActions, Extracted.actions] at hmem
    obtain ⟨-, -, rfl, -⟩ := hmem
    obtain rfl := List.mem_singleton.mp hx
    exact hbelow
  · intro ts e ds ct hmem _ x hx
    simp [putActions, Extracted.actions] at hmem
    obtain ⟨-, -, rfl, -⟩ := hmem
    cases hx

/-- A manifest that depends on the blob is pushed between the read and the commit: the blob is
    reachable when its unmount is applied, so the unmount is no longer valid. -/
theorem phase1_loses_pushBlob :
    (∃ s db sub, cluster.run cluster.init
        (uploadRun ++ [collectBlob, pushBlob, .commit 1 ⟨1, 2⟩]) = some s ∧
      replay s.log = some db ∧ s.underWay[0]? = some sub ∧ sub.request.phase1?.isSome ∧
      sub.actions = [.blobUnmounted thirteenHours helloDigest ⟨"library/a"⟩ "$system"] ∧
      Reachable db.toTrees helloDigest) ∧
    ¬ cluster.Meets StillValid cluster.init
      (uploadRun ++ [collectBlob, pushBlob, .commit 1 ⟨1, 2⟩] ++ [.commit 0 ⟨1, 2⟩]) := by
  have hfacts : ((cluster.run cluster.init
      (uploadRun ++ [collectBlob, pushBlob, .commit 1 ⟨1, 2⟩])).bind fun s =>
      (replay s.log).bind fun db => s.underWay[0]?.map fun sub =>
        (sub.request.phase1?.isSome, sub.actions,
          decide (helloDigest ∈ allDependencies db.manifests))) =
      some (true, [.blobUnmounted thirteenHours helloDigest ⟨"library/a"⟩ "$system"], true) := by
    decide +kernel
  simp only [Option.bind_eq_some_iff, Option.map_eq_some_iff, Prod.mk.injEq,
    decide_eq_true_eq] at hfacts
  obtain ⟨s, h, db, hdb, sub, hsub, hphase, hact, hmem⟩ := hfacts
  have hreach : Reachable db.toTrees helloDigest := ⟨helloDigest, hmem, .refl⟩
  refine ⟨⟨s, db, sub, h, hdb, hsub, hphase, hact, hreach⟩, ?_⟩
  intro hvalid
  have hpoint := cluster.meets_cut hvalid h sub hsub hphase db hdb [] _ [] db.toTrees hact rfl
  exact hpoint.2 _ _ _ _ rfl hreach

end Distribd.Cluster
