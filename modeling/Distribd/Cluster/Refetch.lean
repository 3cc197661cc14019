import Distribd.Cluster.Crash

/-! Collector against mirror. When the collector of node `n` has removed a file it announces
    `Unstored(d, n)`, and the record goes with its last location. If another node still has the
    object, the record stays, and applying the announcement puts `d` among the digests that `n` has
    to download: the object is stored somewhere, and not on `n`. Whether it is mounted anywhere plays
    no part. So the mirror of `n` may fetch back what its collector has just removed, as long as some
    other node has not collected the object yet (`collectFirstRun_refetches`). Once no other node
    stores it, it does not come back (`not_refetched`). -/

namespace Distribd.Cluster
open Schemes Store

/-! ### Without clients -/

/-- The requests that a cluster makes on its own. -/
def Request.isBackground : Request → Bool
  | .mirror .. | .phase1 _ | .phase2 _ _ => true
  | _ => false

/-- No client sends a request. -/
def Event.isBackground : Event → Bool
  | .submit r _ _ => r.isBackground
  | _ => true

theorem background_no_mount {now : Clock} {db : Db} {req : Request} {actions : List RegistryAction}
    (h : req.transaction now db = some actions) (hreq : req.isBackground) (k : Kind) :
    ∀ op ∈ halves k actions, ∀ ts d r, op ≠ .mounted ts d r := by
  rcases transaction_cases h with ⟨_, _, _, _, _, rfl, -⟩ | ⟨_, _, _, _, rfl, -⟩ |
    ⟨_, _, _, _, _, _, _, rfl, -⟩ | ⟨_, _, _, _, rfl | ⟨_, rfl⟩, -⟩ | ⟨k', id, d, -, -, rfl⟩ |
    ⟨w, -, rfl⟩ | ⟨w, id, -, rfl⟩
  all_goals first | cases hreq | skip
  · intro op hop ts e r
    obtain ⟨a, ha, hk⟩ := List.mem_filterMap.mp hop
    cases List.mem_singleton.mp ha
    cases k <;> cases k' <;> cases hk <;> simp
  · intro op hop ts e r
    obtain ⟨a, ha, hk⟩ := List.mem_filterMap.mp hop
    obtain ⟨k', d, o, r', -, -, -, -, rfl⟩ := mem_phase1 ha
    rw [unmountedAction_half] at hk
    split at hk <;> cases hk
    simp
  · intro op hop ts e r
    obtain ⟨a, ha, hk⟩ := List.mem_filterMap.mp hop
    obtain ⟨k', d, -, rfl⟩ := mem_phase2 ha
    rw [unstoredAction_half] at hk
    split at hk <;> cases hk
    simp

/-- Without a mount a record that is not there does not come back. -/
theorem none_of_no_mount {s s' : Trees} {actions : List RegistryAction}
    (h : applyActions s actions = some s') {k : Kind} {d : Digest}
    (hops : ∀ op ∈ halves k actions, ∀ ts e r, op ≠ .mounted ts e r)
    (hs : (s.tree k)[d]? = none) : (s'.tree k)[d]? = none := by
  refine record_inv h k d (P := (· = none)) hops hs ?_
  rintro o op rfl hmount hd hp
  cases op with
  | stored ts e l => exact absurd rfl (hp ts l (by rw [← hd]; rfl))
  | mounted ts e r => exact absurd rfl (hmount ts e r)
  | _ => rfl

/-! ### What a pass of phase 2 leaves -/

/-- Announcements of one node for one digest take its location away, and the record with it if there
    is no other. -/
theorem foldl_unstored {d : Digest} {n : RegistryNodeId} {ops : List ObjectAction} (hne : ops ≠ [])
    (hops : ∀ op ∈ ops, ∃ ts, op = .unstored ts d n) (o : Option Object) :
    locationsOf (ops.foldl act o) = (locationsOf o).erase n ∧
      (ops.foldl act o = none ↔ (locationsOf o).erase n = ∅) := by
  induction ops using List.reverseRecOn with
  | nil => exact absurd rfl hne
  | append_singleton ops op ih =>
    obtain ⟨ts, rfl⟩ := hops op (List.mem_append_right _ (List.mem_singleton_self op))
    rw [List.foldl_append, List.foldl_cons, List.foldl_nil]
    -- erasing a location twice is erasing it once
    have hprev : (locationsOf (ops.foldl act o)).erase n = (locationsOf o).erase n := by
      rcases eq_or_ne ops [] with rfl | hnil
      · rfl
      · rw [(ih hnil fun q hq => hops q (List.mem_append_left _ hq)).1, Finset.erase_idem]
    rw [← hprev]
    cases ops.foldl act o with
    | none => simp [act, locationsOf]
    | some x =>
      by_cases hx : x.locations.erase n = ∅
      · simp [act, locationsOf, hx]
      · simp [act, locationsOf, hx]

/-- The transaction of a phase 2 on `n` that announces `d` removes the record exactly if no other node
    stores the object. -/
theorem phase2_applied {s s' t : Trees} {w : Sweep} {n : RegistryNodeId}
    (h : applyActions s (w.phase2 t n) = some s') {k : Kind} {d : Digest} {ts : DateTime}
    (hd : .unstored ts d n ∈ halves k (w.phase2 t n)) :
    (s'.tree k)[d]? = none ↔ (locationsOf (s.tree k)[d]?).erase n = ∅ := by
  rw [applyActions_get h k d]
  refine (foldl_unstored (d := d) ?_ ?_ _).2
  · exact List.ne_nil_of_mem (List.mem_filter.mpr ⟨hd, by simp [ObjectAction.digest]⟩)
  · intro op hop
    obtain ⟨hop, hdig⟩ := List.mem_filter.mp hop
    obtain ⟨a, ha, hk⟩ := List.mem_filterMap.mp hop
    obtain ⟨k', e, -, rfl⟩ := mem_phase2 ha
    rw [unstoredAction_half] at hk
    split at hk
    case isTrue =>
      obtain rfl := Option.some.inj hk
      obtain rfl : e = d := of_decide_eq_true hdig
      exact ⟨_, rfl⟩
    case isFalse => cases hk

/-! ### Once the record is gone -/

/-- The record is gone, and nothing under way will mount it. -/
def Gone (k : Kind) (d : Digest) (s : State) : Prop :=
  AllDecided s ∧ (∀ sub ∈ s.underWay, sub.request.isBackground) ∧
    ∀ db, replay s.log = some db → (db.tree k)[d]? = none

theorem background_underWay {s s' : State} {e : Event} (h : clusterStep s e = some s')
    (he : e.isBackground) (hs : ∀ sub ∈ s.underWay, sub.request.isBackground) :
    ∀ sub ∈ s'.underWay, sub.request.isBackground := by
  rcases clusterStep_cases h with ⟨request, now, readAt, db, actions, rfl, -, -, -, rfl⟩ |
    ⟨i, leader, sub, -, -, rfl⟩ | ⟨i, -, rfl⟩ | ⟨entry, -, -, rfl⟩
  · intro sub hsub
    rcases List.mem_append.mp hsub with hsub | hsub
    · exact hs sub hsub
    · obtain rfl := List.mem_singleton.mp hsub
      exact he
  · exact fun sub hsub => hs sub (List.mem_of_mem_eraseIdx hsub)
  · exact fun sub hsub => hs sub (List.mem_of_mem_eraseIdx hsub)
  · exact hs

theorem gone_step {k : Kind} {d : Digest} (s : State) (e : Event) (s' : State) (hg : Gone k d s)
    (he : e.isBackground) (h : clusterStep s e = some s') : Gone k d s' := by
  obtain ⟨hd, hback, hnone⟩ := hg
  refine ⟨allDecided_step s e s' hd h, background_underWay h he hback, ?_⟩
  intro db' hdb'
  obtain ⟨db, hdb, ⟨i, leader, sub, rfl, hsub, -, hacts, -⟩ | ⟨_, _, -, htrees, -⟩ |
    ⟨-, -, htrees, -⟩⟩ := clusterStep_replay h hdb'
  · obtain ⟨-, now, dbR, -, hact⟩ := hd sub (List.mem_of_getElem? hsub)
    exact none_of_no_mount hacts (background_no_mount hact (hback sub (List.mem_of_getElem? hsub)) k)
      (hnone db hdb)
  · rw [htrees]
    exact hnone db hdb
  · rw [htrees]
    exact hnone db hdb

/-! ### Collected, and not fetched back -/

/-- NOT FETCHED BACK: in a cluster without client requests, from the point on where an `Unstored(d, n)`
    of node `n`'s collector is applied while no other node stores `d`, no state has `n` among the
    locations of `d` again, whatever mirrors, collectors and raft do. -/
theorem not_refetched (es : List Event) (s s' : State) (db : Db)
    (hrun : cluster.run cluster.init es = some s) (hdb : replay s.log = some db)
    (hback : ∀ sub ∈ s.underWay, sub.request.isBackground) (i : ℕ) (leader : LeaderId)
    (sub : Submission) (w : Sweep) (n : RegistryNodeId) (hsub : s.underWay[i]? = some sub)
    (hreq : sub.request = .phase2 w n) (hstep : clusterStep s (.commit i leader) = some s')
    (k : Kind) (d : Digest) (ts : DateTime) (hd : .unstored ts d n ∈ halves k sub.actions)
    (hlast : (locationsOf (db.tree k)[d]?).erase n = ∅) (fs : List Event) (t : State) (db' : Db)
    (hfs : ∀ e ∈ fs, e.isBackground) (ht : cluster.run s' fs = some t)
    (hdb' : replay t.log = some db') : n ∉ locationsOf (db'.tree k)[d]? := by
  have hall := run_allDecided hrun
  obtain ⟨-, now, dbR, -, hact⟩ := hall sub (List.mem_of_getElem? hsub)
  rw [hreq] at hact
  have hactions : sub.actions = w.phase2 dbR.toTrees n := nonempty_eq_some hact
  rw [hactions] at hd
  obtain ⟨db₁, hdb₁, hacts⟩ := commit_applies hall hsub (by simp [hreq]) hstep hdb
  rw [hactions] at hacts
  have hstart : Gone k d s' := by
    refine ⟨allDecided_step s _ s' hall hstep, background_underWay hstep rfl hback, ?_⟩
    intro db₂ hdb₂
    obtain rfl : db₁ = db₂ := Option.some.inj (hdb₁.symm.trans hdb₂)
    exact (phase2_applied hacts hd).mpr hlast
  have hend := cluster.run_inv_of_meets gone_step hstart (cluster.meets_of_forall hfs) ht
  rw [hend.2.2 db' hdb']
  exact Finset.notMem_empty n

/-! ### One node and two nodes -/

/-- A client deletes the blob of node 2, and the collector of node 2 removes it. -/
def collectRun : List Event :=
  uploadRun ++
    [.submit (.delete .blob ⟨"library/a"⟩ helloDigest "alice") (ticking 30) 2, .commit 0 ⟨1, 2⟩,
     .submit (.phase2 (plainSweep 40) 2) (ticking 40) 3]

/-- The mirror of node 1 has the blob too when the client deletes it, and the collector of node 1
    removes it first. -/
def collectFirstRun : List Event :=
  mirrorRun ++
    [.submit (.delete .blob ⟨"library/a"⟩ helloDigest "alice") (ticking 30) 3, .commit 0 ⟨1, 2⟩,
     .submit (.phase2 (plainSweep 40) 1) (ticking 40) 4]

/-- The node of a phase 2 and its pass. -/
def Request.phase2? : Request → Option (Sweep × RegistryNodeId)
  | .phase2 w n => some (w, n)
  | _ => none

theorem phase2?_eq_some {r : Request} {w : Sweep} {n : RegistryNodeId}
    (h : r.phase2? = some (w, n)) : r = .phase2 w n := by
  cases r <;> cases h
  rfl

/-- Only node 2 had the blob: it does not come back to node 2. -/
theorem not_refetched_collectRun :
    ∃ s s', cluster.run cluster.init collectRun = some s ∧
      clusterStep s (.commit 0 ⟨1, 2⟩) = some s' ∧
      ∀ fs t db', (∀ e ∈ fs, e.isBackground) → cluster.run s' fs = some t →
        replay t.log = some db' → 2 ∉ locationsOf (db'.tree .blob)[helloDigest]? := by
  have hfacts : ((cluster.run cluster.init collectRun).bind fun s => (replay s.log).bind fun db =>
      s.underWay[0]?.bind fun sub => (clusterStep s (.commit 0 ⟨1, 2⟩)).bind fun _ =>
        sub.request.phase2?.map fun p =>
          (p.2, decide (locationsOf (db.tree .blob)[helloDigest]? = {2} ∧
            halves .blob sub.actions = [.unstored 40 helloDigest 2] ∧
            ∀ sub ∈ s.underWay, sub.request.isBackground))) = some (2, true) := by
    decide +kernel
  simp only [Option.bind_eq_some_iff, Option.map_eq_some_iff, Prod.mk.injEq, Prod.exists,
    decide_eq_true_eq] at hfacts
  obtain ⟨s, h, db, hdb, sub, hsub, s', hs', w, n, hp, rfl, hloc, hops, hback⟩ := hfacts
  refine ⟨s, s', h, hs', ?_⟩
  exact not_refetched collectRun s s' db h hdb hback 0 ⟨1, 2⟩ sub w 2 hsub (phase2?_eq_some hp) hs'
    .blob helloDigest 40 (by simp [hops]) (by rw [hloc]; rfl)

/-- Node 2 still has the blob when node 1 has removed its own: the mirror of node 1 fetches it
    back. -/
theorem collectFirstRun_refetches :
    ∃ s s' t db', cluster.run cluster.init collectFirstRun = some s ∧
      (∀ sub ∈ s.underWay, sub.request.isBackground) ∧
      (s.underWay[0]?.map fun sub => halves .blob sub.actions) =
        some [.unstored 40 helloDigest 1] ∧
      clusterStep s (.commit 0 ⟨1, 2⟩) = some s' ∧
      cluster.run s' [.submit (.mirror .blob 1 helloDigest) (ticking 50) 5, .commit 0 ⟨1, 2⟩]
        = some t ∧
      replay t.log = some db' ∧ 1 ∈ locationsOf (db'.tree .blob)[helloDigest]? := by
  have hfacts : ((cluster.run cluster.init collectFirstRun).bind fun s =>
      (clusterStep s (.commit 0 ⟨1, 2⟩)).bind fun s' =>
        (cluster.run s' [.submit (.mirror .blob 1 helloDigest) (ticking 50) 5,
          .commit 0 ⟨1, 2⟩]).bind fun t => (replay t.log).map fun db' =>
            decide ((∀ sub ∈ s.underWay, sub.request.isBackground) ∧
              (s.underWay[0]?.map fun sub => halves .blob sub.actions) =
                some [.unstored 40 helloDigest 1] ∧
              1 ∈ locationsOf (db'.tree .blob)[helloDigest]?)) = some true := by
    decide +kernel
  simp only [Option.bind_eq_some_iff, Option.map_eq_some_iff, decide_eq_true_eq] at hfacts
  obtain ⟨s, h, s', hs', t, ht, db', hdb', hback, hops, hin⟩ := hfacts
  exact ⟨s, s', t, db', h, hback, by simpa using hops, hs', ht, hdb', hin⟩

end Distribd.Cluster
