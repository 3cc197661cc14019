import Distribd.Store.Journal
import Distribd.Cluster.Collect

/-! The grace period. Phase 1 spares an orphan that is younger than `MINIMUM_GARBAGE_AGE`, so that a
    client can upload or mount the blobs of an image and push the manifest that names them after
    that. The age is that of the record, and a record is created once: a mount that finds one moves
    `updated`, which the collector does not read, and leaves `created` at the stamp of the first
    mount since the record was last deleted. So a mount in use is spared exactly as long as that
    first mount is young, no matter how young it is itself (`grace_protects_iff`). -/

namespace Distribd.Cluster
open Schemes Store

/-! ### Passes in time -/

/-- The time at which a handler stamped the action. -/
def timestamp : RegistryAction → Option DateTime
  | .empty => none
  | .blobStored ts .. | .blobUnstored ts .. | .blobMounted ts .. | .blobUnmounted ts ..
  | .blobInfo ts .. | .blobStat ts .. | .manifestStored ts .. | .manifestUnstored ts ..
  | .manifestMounted ts .. | .manifestUnmounted ts .. | .manifestInfo ts .. | .manifestStat ts ..
  | .hashTagged ts .. => some ts

/-- A run of the cluster and a pass of phase 1 on the leader, under one clock: an action is stamped
    before its entry is applied, entries are applied one after the other, the pass reads the store
    after that, and reads the clock for each object after it has read the store. -/
structure TimedPass where
  events : List Event
  state : State
  run : cluster.run cluster.init events = some state
  /-- When the leader's node applied the entries that it has applied, from the first on. -/
  appliedAt : List DateTime
  readAt : DateTime
  sweep : Sweep
  applied_le : appliedAt.length ≤ state.log.length
  ordered : appliedAt.Pairwise (· ≤ ·)
  stamped : ∀ p ∈ appliedAt.zip state.log, ∀ a ∈ p.2.actions, ∀ ts ∈ timestamp a, ts ≤ p.1
  read_after : ∀ t ∈ appliedAt, t ≤ readAt
  clock_after : ∀ k d, readAt ≤ sweep.objectNow k d

namespace TimedPass

variable (p : TimedPass)

/-- The entries that the leader's node has applied. -/
def log : List Entry := p.state.log.take p.appliedAt.length

/-- What they say about the objects of a kind. -/
def ops (k : Kind) : List ObjectAction := halves k (actionsOf p.log)

/-- `Mounted(d, r)` was applied less than `MINIMUM_GARBAGE_AGE` before the read. -/
def MountedRecently (k : Kind) (d : Digest) (r : RepositoryName) : Prop :=
  ∃ q ∈ p.appliedAt.zip p.state.log, p.readAt - q.1 < minimumGarbageAge ∧
    ∃ ts, .mounted ts d r ∈ halves k q.2.actions

/-- The pass sends an `Unmounted(d, r)`. -/
def Unmounts (db : Db) (k : Kind) (d : Digest) (r : RepositoryName) : Prop :=
  ∃ ts, .unmounted ts d r ∈ halves k (p.sweep.phase1 db.toTrees)

/-- The object is younger than `MINIMUM_GARBAGE_AGE` when the pass comes to it, counted from the
    first mount, into whichever repository, since its last location was dropped. -/
def FirstMountYoung (k : Kind) (d : Digest) : Prop :=
  ∃ pre ts post, FirstMount d (p.ops k) pre ts post ∧
    p.sweep.objectNow k d - ts < minimumGarbageAge

end TimedPass

/-! ### What a pass unmounts -/

theorem unmounted_mem_phase1 {w : Sweep} {s : Trees} {k : Kind} {d : Digest} {r : RepositoryName} :
    (∃ ts, .unmounted ts d r ∈ halves k (w.phase1 s)) ↔
      ∃ o, (s.tree k)[d]? = some o ∧ ¬ Live s d k ∧
        minimumGarbageAge ≤ w.objectNow k d - o.created ∧ r ∈ o.repositories := by
  constructor
  · rintro ⟨ts, hts⟩
    obtain ⟨a, ha, hk⟩ := List.mem_filterMap.mp hts
    obtain ⟨k', d', o, r', ho, hlive, hold, hr, rfl⟩ := mem_phase1 ha
    rw [unmountedAction_half] at hk
    split at hk
    case isTrue heq =>
      subst heq
      cases hk
      exact ⟨o, ho, hlive, hold, hr⟩
    case isFalse => cases hk
  · rintro ⟨o, ho, hlive, hold, hr⟩
    refine ⟨w.actionNow k d r, List.mem_filterMap.mpr ⟨_, mem_phase1_of_orphan ho hlive hold hr, ?_⟩⟩
    rw [unmountedAction_half, if_pos rfl]

/-- A pass unmounts what the journal says is mounted, is not live and has an old first mount. -/
theorem TimedPass.unmounts_iff (p : TimedPass) {db : Db} (h : replay p.log = some db) {k : Kind}
    {d : Digest} {r : RepositoryName} :
    p.Unmounts db k d r ↔
      Owns d r (p.ops k) ∧ ¬ Live db.toTrees d k ∧ ¬ p.FirstMountYoung k d := by
  have hm : Meaning d (p.ops k) (db.tree k)[d]? := (replay_meaning p.log db h).1 k d
  refine unmounted_mem_phase1.trans ⟨?_, ?_⟩
  · rintro ⟨o, ho, hlive, hold, hr⟩
    refine ⟨(hm.repositories r).mp ⟨o, ho, hr⟩, hlive, ?_⟩
    rintro ⟨pre, ts, post, hfirst, hyoung⟩
    obtain ⟨pre', post', hcreated, -⟩ := hm.fields o ho
    rw [hfirst.unique hcreated] at hyoung
    exact absurd hyoung (not_lt.mpr hold)
  · rintro ⟨howns, hlive, hold⟩
    obtain ⟨o, ho, hr⟩ := (hm.repositories r).mpr howns
    obtain ⟨pre, post, hcreated, -⟩ := hm.fields o ho
    refine ⟨o, ho, hlive, not_lt.mp ?_, hr⟩
    intro hyoung
    exact hold ⟨pre, o.created, post, hcreated, hyoung⟩

/-- THE GRACE PERIOD, exactly: in every run under one clock, a pass of phase 1 takes back no mount
    that was applied less than `MINIMUM_GARBAGE_AGE` before it read the store, if and only if every
    such mount that is still in force, of an object that is not live, belongs to an object whose
    first mount since its last location was dropped is also younger than that when the pass reads
    the clock for it. -/
theorem grace_protects_iff (p : TimedPass) (db : Db) (h : replay p.log = some db) :
    (∀ k d r, p.MountedRecently k d r → ¬ p.Unmounts db k d r) ↔
    (∀ k d r, p.MountedRecently k d r → Owns d r (p.ops k) → ¬ Live db.toTrees d k →
      p.FirstMountYoung k d) := by
  constructor
  · intro hsafe k d r hrecent howns hlive
    by_contra hold
    exact hsafe k d r hrecent ((p.unmounts_iff h).mpr ⟨howns, hlive, hold⟩)
  · intro hyoung k d r hrecent hunmounts
    obtain ⟨howns, hlive, hold⟩ := (p.unmounts_iff h).mp hunmounts
    exact hold (hyoung k d r hrecent howns hlive)

/-! ### A first mount and a second one -/

/-- An hour after the upload of the blob the collector of the leader comes by. -/
def uploadPass : TimedPass where
  events := uploadRun
  state := (cluster.run cluster.init uploadRun).get (by decide)
  run := (Option.some_get _).symm
  appliedAt := [0, 20]
  readAt := 60 * 60 * 1000000000
  sweep := plainSweep (60 * 60 * 1000000000)
  applied_le := by decide
  ordered := by decide
  stamped := by decide
  read_after := by decide
  clock_after _ _ := le_refl _

/-- The blob was never named by a manifest. Almost thirteen hours later it is mounted into
    `library/b` as well. -/
def mountRun : List Event :=
  uploadRun ++
    [.submit (.mount ⟨"library/b"⟩ ⟨"library/a"⟩ helloDigest "bob")
      (ticking (thirteenHours - 2000000000)) 2, .commit 0 ⟨1, 2⟩]

/-- The collector comes by one second after that. -/
def mountPass : TimedPass where
  events := mountRun
  state := (cluster.run cluster.init mountRun).get (by decide)
  run := (Option.some_get _).symm
  appliedAt := [0, 20, thirteenHours - 1000000000]
  readAt := thirteenHours
  sweep := plainSweep thirteenHours
  applied_le := by decide
  ordered := by decide
  stamped := by decide
  read_after := by decide
  clock_after _ _ := le_refl _

/-- The upload is spared, and its mount is the first one. -/
theorem grace_protects_iff_uploadPass :
    ∃ db, replay uploadPass.log = some db ∧
      uploadPass.MountedRecently .blob helloDigest ⟨"library/a"⟩ ∧
      ¬ uploadPass.Unmounts db .blob helloDigest ⟨"library/a"⟩ ∧
      uploadPass.FirstMountYoung .blob helloDigest := by
  have hfacts : ((replay uploadPass.log).map fun db =>
      decide (uploadPass.sweep.phase1 db.toTrees = [] ∧
        (db.blobs[helloDigest]?.map (·.repositories)) = some {⟨"library/a"⟩} ∧
        (uploadPass.sweep.orphans db.toTrees .blob)[helloDigest]?.isSome)) = some true := by
    decide +kernel
  simp only [Option.map_eq_some_iff, decide_eq_true_eq] at hfacts
  obtain ⟨db, hdb, hnil, ⟨o, ho, hrepos⟩, horphan⟩ := hfacts
  obtain ⟨x, hx⟩ := Option.isSome_iff_exists.mp horphan
  have hsafe : ∀ k d r, uploadPass.MountedRecently k d r → ¬ uploadPass.Unmounts db k d r := by
    rintro k d r - ⟨ts, hts⟩
    rw [hnil] at hts
    cases hts
  have hrecent : uploadPass.MountedRecently .blob helloDigest ⟨"library/a"⟩ :=
    ⟨_, List.mem_of_getElem? (i := 1) rfl, by decide, 10, by decide⟩
  have howns : Owns helloDigest ⟨"library/a"⟩ (uploadPass.ops .blob) := by
    refine (((replay_meaning _ db hdb).1 .blob helloDigest).repositories _).mp ⟨o, ho, ?_⟩
    rw [hrepos]
    exact Finset.mem_singleton_self _
  exact ⟨db, hdb, hrecent, hsafe _ _ _ hrecent, (grace_protects_iff uploadPass db hdb).mp hsafe
    .blob helloDigest _ hrecent howns ((orphans_get _ _ .blob _ _).mp hx).2⟩

/-- The mount into `library/b` is one second old and is taken back. -/
theorem mountPass_unmounts :
    ∃ db, replay mountPass.log = some db ∧
      mountPass.MountedRecently .blob helloDigest ⟨"library/b"⟩ ∧
      mountPass.Unmounts db .blob helloDigest ⟨"library/b"⟩ := by
  have hfacts : ((replay mountPass.log).map fun db =>
      decide (.unmounted thirteenHours helloDigest ⟨"library/b"⟩ ∈
        halves .blob (mountPass.sweep.phase1 db.toTrees))) = some true := by
    decide +kernel
  simp only [Option.map_eq_some_iff, decide_eq_true_eq] at hfacts
  obtain ⟨db, hdb, hin⟩ := hfacts
  exact ⟨db, hdb, ⟨_, List.mem_of_getElem? (i := 2) rfl, by decide, thirteenHours - 2000000000,
    by decide⟩, thirteenHours, hin⟩

end Distribd.Cluster
