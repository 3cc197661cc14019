import Distribd.Cluster.Effects

/-! Can a committed transaction bring the replicas down? `apply_to_state_machine` unwraps the record
    of a `*Stored` action, so an entry with such an action and no record panics on every replica,
    and again on every restart. Uploads and manifest PUTs mount the digest in the same transaction
    before they store it. The mirror worker does not: it read the record before the download, and
    its `*Stored` commits when the download is done. In between, the last location of the object may
    leave and take the record with it. `replicas_survive_iff` says that this is the only way a run
    can end in a panic. -/

namespace Distribd.Cluster
open Schemes Store

/-! ### Which transactions can panic -/

theorem mirror_isSome_iff (now : DateTime) (d : Digest) (id : RegistryNodeId) (u : String)
    (k : Kind) (s : Trees) :
    (applyActions s [storedAction now d id u k]).isSome ↔ (s.tree k)[d]? ≠ none := by
  rw [applyActions, journal.run_single, Option.isSome_iff_ne_none, ne_eq, ne_eq, not_iff_not]
  cases k <;> exact Option.map_eq_none_iff.trans stored_eq_none

/-- Only the mirror's transaction can panic, and only when the record is gone. -/
theorem transaction_isSome {now : Clock} {db : Db} {req : Request} {actions : List RegistryAction}
    (h : req.transaction now db = some actions) (s : Trees)
    (hm : ∀ k id d, req = .mirror k id d → (s.tree k)[d]? ≠ none) :
    (applyActions s actions).isSome := by
  rcases transaction_cases h with ⟨id, r, d, n, u, -, rfl⟩ | ⟨r, src, d, u, -, rfl⟩ |
    ⟨id, r, t, d, n, x, u, -, rfl⟩ | ⟨k, d, r, u, -, rfl⟩ | ⟨k, id, d, hreq, -, rfl⟩ |
    ⟨w, -, rfl⟩ | ⟨w, id, -, rfl⟩
  · exact uploadActions_isSome now id r d n u s
  · refine applyActions_isSome ?_ s
    intro a ha k' ts e l
    cases List.mem_singleton.mp ha
    cases k' <;> simp [RegistryAction.half]
  · exact putActions_isSome now id r t d n x u s
  · refine applyActions_isSome ?_ s
    intro a ha k' ts e l
    rw [List.mem_singleton.mp ha]
    apply unmountedAction_not_stored
  · exact (mirror_isSome_iff _ _ _ _ _ s).mpr (hm k id d hreq)
  · refine applyActions_isSome ?_ s
    intro a ha k' ts e l
    obtain ⟨k, d, o, r, -, -, -, -, rfl⟩ := mem_phase1 ha
    apply unmountedAction_not_stored
  · refine applyActions_isSome ?_ s
    intro a ha k' ts e l
    obtain ⟨k, d, -, rfl⟩ := mem_phase2 ha
    apply unstoredAction_not_stored

/-- What anybody but a mirror commits is applied. -/
theorem commit_applies {s s' : State} (hd : AllDecided s) {i : ℕ} {leader : LeaderId}
    {sub : Submission} (hsub : s.underWay[i]? = some sub)
    (hreq : ∀ k id d, sub.request ≠ .mirror k id d)
    (h : clusterStep s (.commit i leader) = some s') {db : Db} (hdb : replay s.log = some db) :
    ∃ db', replay s'.log = some db' ∧ applyActions db.toTrees sub.actions = some db'.toTrees := by
  obtain ⟨-, now, dbR, -, hact⟩ := hd sub (List.mem_of_getElem? hsub)
  have hsome := transaction_isSome hact db.toTrees fun k id d hm => absurd hm (hreq k id d)
  have hsome' : (replay s'.log).isSome := by
    obtain ⟨sub', hsub', rfl⟩ := Option.map_eq_some_iff.mp h
    obtain rfl : sub = sub' := Option.some.inj (hsub.symm.trans hsub')
    exact (replay_commit_isSome hdb leader sub.actions).mpr hsome
  obtain ⟨db', hdb'⟩ := Option.isSome_iff_exists.mp hsome'
  refine ⟨db', hdb', ?_⟩
  obtain ⟨db₀, hdb₀, ⟨_, _, sub', heq, hsub', -, hacts, -⟩ | ⟨_, _, heq, -⟩ | ⟨hno, -⟩⟩ :=
    clusterStep_replay h hdb'
  · cases heq
    obtain rfl : sub = sub' := Option.some.inj (hsub.symm.trans hsub')
    obtain rfl : db = db₀ := Option.some.inj (hdb.symm.trans hdb₀)
    exact hacts
  · cases heq
  · exact absurd rfl (hno i leader)

/-! ### Runs -/

/-- When a mirror's transaction commits, the entries since its read have not removed the record it
    saw. -/
def KeepsMirrored (s : State) : Event → Prop
  | .commit i _ => ∀ sub k id d db o, s.underWay[i]? = some sub → sub.request = .mirror k id d →
      replay (s.log.take sub.readAt) = some db → (db.tree k)[d]? = some o →
        ¬ Removed d o.locations (halves k (actionsOf (s.log.drop sub.readAt)))
  | _ => True

theorem wantsTransfer_record {db : Db} {k : Kind} {id : RegistryNodeId} {d : Digest}
    (h : wantsTransfer db k id d) : ∃ o, (db.tree k)[d]? = some o := by
  unfold wantsTransfer at h
  split at h
  case h_1 o ho => exact ⟨o, ho⟩
  case h_2 => cases h

/-- The record that a mirror saw is still there when its transaction commits, exactly when it has
    not been removed in between. -/
theorem mirrored_record_iff {log : List Entry} {db dbR : Db} {n : ℕ} {k : Kind} {d : Digest}
    {o : Object} (h : replay log = some db) (hR : replay (log.take n) = some dbR)
    (ho : (dbR.tree k)[d]? = some o) :
    (db.tree k)[d]? ≠ none ↔ ¬ Removed d o.locations (halves k (actionsOf (log.drop n))) := by
  obtain ⟨dbR', hR', hacts⟩ := replay_cut (n := n) h
  obtain rfl : dbR = dbR' := Option.some.inj (hR.symm.trans hR')
  have hgone := applyActions_eq_none hacts k d (by simpa using Option.isSome_iff_exists.mpr ⟨o, ho⟩)
  rw [ho] at hgone
  exact not_congr hgone

/-- A mirror under way saw a record when it was decided. -/
theorem mirror_saw_record {log : List Entry} {sub : Submission} (hd : sub.Decided log) {k : Kind}
    {id : RegistryNodeId} {d : Digest} (hreq : sub.request = .mirror k id d) :
    ∃ now dbR o, replay (log.take sub.readAt) = some dbR ∧ (dbR.tree k)[d]? = some o ∧
      sub.actions = [storedAction now d id "$internal" k] := by
  obtain ⟨-, now, dbR, hR, hact⟩ := hd
  rw [hreq] at hact
  simp only [Request.transaction, mirrorActions] at hact
  split at hact
  case isTrue hw =>
    obtain ⟨o, ho⟩ := wantsTransfer_record hw
    exact ⟨now 0, dbR, o, hR, ho, (Option.some.inj hact).symm⟩
  case isFalse => cases hact

/-- One event takes the replicas on exactly when it meets the condition. -/
theorem survive_step_iff {s s' : State} {e : Event} (hd : AllDecided s)
    (hs : (replay s.log).isSome) (h : clusterStep s e = some s') :
    KeepsMirrored s e ↔ (replay s'.log).isSome := by
  rcases clusterStep_cases h with ⟨_, _, _, _, _, rfl, -, -, -, rfl⟩ |
    ⟨i, leader, sub, rfl, hsub, rfl⟩ | ⟨_, rfl, rfl⟩ | ⟨entry, hne, he, rfl⟩
  · exact iff_of_true trivial hs
  · obtain ⟨db, hdb⟩ := Option.isSome_iff_exists.mp hs
    have hdec := hd sub (List.mem_of_getElem? hsub)
    rw [replay_commit_isSome hdb leader sub.actions]
    constructor
    · intro hg
      have ⟨_, now, dbR, _, hact⟩ := hdec
      refine transaction_isSome hact db.toTrees ?_
      intro k id d hreq
      obtain ⟨-, dbR, o, hR, ho, -⟩ := mirror_saw_record hdec hreq
      exact (mirrored_record_iff hdb hR ho).mpr (hg sub k id d dbR o hsub hreq hR ho)
    · intro hacts sub' k id d dbR o hsub' hreq hR ho
      obtain rfl : sub = sub' := Option.some.inj (hsub.symm.trans hsub')
      obtain ⟨now, -, -, -, -, hactions⟩ := mirror_saw_record hdec hreq
      rw [hactions] at hacts
      exact (mirrored_record_iff hdb hR ho).mp ((mirror_isSome_iff _ _ _ _ _ _).mp hacts)
  · exact iff_of_true trivial hs
  · refine iff_of_true ?_ (replay_idle_isSome hs he)
    cases e with
    | commit i leader => exact absurd rfl (hne i leader)
    | _ => trivial

/-- NO CRASH, exactly: the replicas can apply every entry that a run commits if and only if every
    mirror transaction that commits finds the record that the mirror read not removed in between. -/
theorem replicas_survive_iff (es : List Event) (s : State)
    (h : cluster.run cluster.init es = some s) :
    (replay s.log).isSome ↔ cluster.Meets KeepsMirrored cluster.init es := by
  rw [← cluster.meets_iff_run_inv (A := fun _ _ => True) (P := fun t => (replay t.log).isSome)
    (fun t e t' hd _ ht => allDecided_step t e t' hd ht)
    (fun t e t' hd hs _ ht => survive_step_iff hd hs ht) allDecided_init rfl
    (cluster.meets_true es _) h]
  constructor
  · intro hsome xs ys t hes ht
    rw [hes] at h
    obtain ⟨t', ht', hrest⟩ := cluster.run_append_some h
    obtain rfl : t = t' := Option.some.inj (ht.symm.trans ht')
    exact replay_prefix_isSome (run_log_grows hrest) hsome
  · intro hall
    exact hall es [] s (List.append_nil _).symm h

/-! ### An undisturbed mirror and a race -/

/-- The mirror of node 1 fetches the blob; nothing else happens. -/
def mirrorRun : List Event :=
  uploadRun ++ [.submit (.mirror .blob 1 helloDigest) (ticking 20) 2, .commit 0 ⟨1, 2⟩]

/-- While the mirror of node 1 fetches the blob, a client deletes it and the collector of node 2
    drops it. -/
def raceRun : List Event :=
  uploadRun ++
    [.submit (.mirror .blob 1 helloDigest) (ticking 20) 2,
     .submit (.delete .blob ⟨"library/a"⟩ helloDigest "alice") (ticking 30) 2, .commit 1 ⟨1, 2⟩,
     .submit (.phase2 (plainSweep 40) 2) (ticking 40) 3, .commit 1 ⟨1, 2⟩,
     .commit 0 ⟨1, 2⟩]

/-- The undisturbed mirror keeps to the condition. -/
theorem replicas_survive_iff_mirrorRun :
    ∃ s, cluster.run cluster.init mirrorRun = some s ∧ (replay s.log).isSome ∧
      cluster.Meets KeepsMirrored cluster.init mirrorRun := by
  obtain ⟨s, h⟩ := Option.isSome_iff_exists.mp
    (show (cluster.run cluster.init mirrorRun).isSome by decide)
  have hsome : ((cluster.run cluster.init mirrorRun).bind fun s => replay s.log).isSome := by decide
  rw [h] at hsome
  exact ⟨s, h, hsome, (replicas_survive_iff mirrorRun s h).mp hsome⟩

/-- The race ends with an entry that no replica can apply. -/
theorem raceRun_panics :
    ∃ s, cluster.run cluster.init raceRun = some s ∧ replay s.log = none := by
  obtain ⟨s, h⟩ := Option.isSome_iff_exists.mp
    (show (cluster.run cluster.init raceRun).isSome by decide +kernel)
  have hnone : ((cluster.run cluster.init raceRun).bind fun s => replay s.log) = none := by
    decide +kernel
  rw [h] at hnone
  exact ⟨s, h, hnone⟩

end Distribd.Cluster
