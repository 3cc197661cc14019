import Distribd.Store.Holders

/-! The life of one node between snapshots, and its sets of pending downloads. The sets are computed
    from scratch at start-up and then kept up to date from the actions of each batch, each judged
    against the final state of the batch. The incremental update never loses work
    (`pending_complete`, in every reachable state). It does keep stale work in one case: an action
    whose record is gone at the end of the batch is skipped, so a digest that was pending stays
    pending when the batch removes its last location (`pending_exact_iff` says exactly when). -/

namespace Distribd.Store
open Schemes

/-! ### The life of a node -/

/-- What happens to a store between snapshots. -/
inductive NodeEvent where
  /-- `apply_to_state_machine` completes. -/
  | batch (entries : List Entry)
  /-- The batch is committed, the process dies before the in-memory update ends and starts again. -/
  | interrupted (entries : List Entry)
  /-- The process starts again: `RegistryStore::new` on the same database. -/
  | restart
  /-- `wait_for_blob` / `wait_for_manifest` registers the request `id`. -/
  | wait (kind : Kind) (digest : Digest) (id : ℕ)
  /-- The request `id` is cancelled: its receiver is dropped. -/
  | cancel (id : ℕ)

/-- `entry(digest).or_default().push(tx)`. -/
def pushWaiter (waiters : Waiters) (digest : Digest) (id : ℕ) : Waiters :=
  waiters.insert digest (waiters.getD digest [] ++ [⟨id, true⟩])

/-- The receiver of request `id` is gone. -/
def dropReceiver (waiters : Waiters) (id : ℕ) : Waiters :=
  waiters.map fun _ ws => ws.map fun w => if w.id = id then { w with alive := false } else w

/-- One event in the life of a node. -/
def nodeStep (st : RegistryStore) : NodeEvent → Option RegistryStore
  | .batch entries => (st.applyToStateMachine entries).map Prod.fst
  | .interrupted entries => (replica.run st.db entries).map fun db => .new db st.id
  | .restart => some (.new st.db st.id)
  | .wait .blob d id =>
    some { st with stateMachine.blobWaiters := pushWaiter st.stateMachine.blobWaiters d id }
  | .wait .manifest d id =>
    some { st with stateMachine.manifestWaiters := pushWaiter st.stateMachine.manifestWaiters d id }
  | .cancel id =>
    some { st with
      stateMachine.blobWaiters := dropReceiver st.stateMachine.blobWaiters id
      stateMachine.manifestWaiters := dropReceiver st.stateMachine.manifestWaiters id }

/-- The node `id`, started on a new database. -/
def node (id : RegistryNodeId) : Machine RegistryStore NodeEvent := ⟨.new .new id, nodeStep⟩

/-! ### The pending sets after a batch -/

/-- The digest whose pending mark an action refreshes: only `Stored` and `Unstored` do. -/
def refreshed : ObjectAction → Option Digest
  | .stored _ d _ => some d
  | .unstored _ d _ => some d
  | _ => none

/-- Some action of the journal refreshes the pending mark of `d`. -/
def Refreshes (ops : List ObjectAction) (d : Digest) : Prop := ∃ a ∈ ops, refreshed a = some d

theorem mem_refresh {id : RegistryNodeId} {t : ObjectTree} {e d : Digest} {p : Finset Digest} :
    d ∈ refresh id t e p ↔ match t[d]? with
      | some o => if e = d then needs id o = true else d ∈ p
      | none => d ∈ p := by
  unfold refresh
  by_cases hd : e = d
  · subst hd
    cases t[e]? with
    | none => rfl
    | some o => cases hn : needs id o <;> simp [hn]
  · have hne : d ≠ e := fun h => hd h.symm
    cases t[e]? with
    | none => cases t[d]? <;> simp [hd]
    | some o => cases hn : needs id o <;> cases t[d]? <;> simp [hn, hd, hne]

/-- One action of the loop after the commit, seen from the pending set of a kind. -/
theorem announce_pending {id : RegistryNodeId} {t : Trees} {sm sm' : RegistryStateMachine}
    {a : RegistryAction} (h : announce id t sm a = some sm') (k : Kind) :
    sm'.pending k = match (a.half k).bind refreshed with
      | some e => refresh id (t.tree k) e (sm.pending k)
      | none => sm.pending k := by
  cases a <;> simp only [announce, Option.some.injEq] at h
  case blobStored ts d l u =>
    split at h
    · obtain ⟨⟨w, ids⟩, -, rfl⟩ := Option.map_eq_some_iff.mp h
      cases k <;> rfl
    · obtain rfl := Option.some.inj h
      cases k <;> rfl
  case manifestStored ts d l u =>
    split at h
    · obtain ⟨⟨w, ids⟩, -, rfl⟩ := Option.map_eq_some_iff.mp h
      cases k <;> rfl
    · obtain rfl := Option.some.inj h
      cases k <;> rfl
  all_goals subst h; cases k <;> rfl

/-- The pending set after the loop: refreshed digests are judged by the final record, if there is
    one, and everything else is as before. -/
theorem bookkeeping_pending {id : RegistryNodeId} {t : Trees} {actions : List RegistryAction}
    {sm sm' : RegistryStateMachine} (h : (bookkeeping id t).run sm actions = some sm') (k : Kind)
    (d : Digest) :
    d ∈ sm'.pending k ↔ match (t.tree k)[d]? with
      | some o => (Refreshes (halves k actions) d ∧ needs id o = true) ∨
          (¬ Refreshes (halves k actions) d ∧ d ∈ sm.pending k)
      | none => d ∈ sm.pending k := by
  induction actions generalizing sm with
  | nil =>
    obtain rfl := Option.some.inj h
    cases (t.tree k)[d]? <;> simp [Refreshes, halves]
  | cons a as ih =>
    obtain ⟨m, hm, hrest⟩ := (bookkeeping id t).run_cons_some h
    have hstep := announce_pending hm k
    rw [ih hrest]
    cases hk : (a.half k).bind refreshed with
    | none =>
      have hsame : Refreshes (halves k (a :: as)) d ↔ Refreshes (halves k as) d := by
        cases ha : a.half k with
        | none => simp [halves, ha]
        | some oa =>
          have hoa : refreshed oa = none := by simpa [ha] using hk
          simp [halves, ha, Refreshes, hoa]
      rw [hk] at hstep
      simp only [hstep, hsame]
    | some e =>
      obtain ⟨oa, ha, hoa⟩ := Option.bind_eq_some_iff.mp hk
      have hcons : Refreshes (halves k (a :: as)) d ↔ e = d ∨ Refreshes (halves k as) d := by
        simp [halves, ha, Refreshes, hoa]
      rw [hk] at hstep
      simp only [hstep, mem_refresh, hcons]
      cases ho : (t.tree k)[d]? with
      | none => rfl
      | some o => by_cases he : e = d <;> simp [he]; tauto

/-! ### The locations after a batch -/

/-- The record exists and this node still has to download the object. -/
def Needed (id : RegistryNodeId) (o : Option Object) : Prop := ∃ x, o = some x ∧ needs id x = true

theorem needed_iff {id : RegistryNodeId} {o : Option Object} :
    Needed id o ↔ id ∉ locationsOf o ∧ locationsOf o ≠ ∅ := by
  cases o <;> simp [Needed, needs, locationsOf]

/-- Without a refresh of `d` its holders stay the same. -/
theorem holdersAfter_of_not_refreshes {d : Digest} {ops : List ObjectAction}
    (h : ¬ Refreshes ops d) (holders : Finset RegistryNodeId) :
    holdersAfter d holders ops = holders := by
  induction ops generalizing holders with
  | nil => rfl
  | cons a as ih =>
    have ha : refreshed a ≠ some d := fun ha => h ⟨a, List.mem_cons_self .., ha⟩
    have has : ¬ Refreshes as d := fun ⟨b, hb, hr⟩ => h ⟨b, List.mem_cons_of_mem _ hb, hr⟩
    have hmove : moveHolder d holders a = holders := by
      cases a <;> simp_all [moveHolder, refreshed]
    change holdersAfter d (moveHolder d holders a) as = holders
    rw [hmove, ih has]

/-! ### No work is lost -/

theorem mem_pendingOf {id : RegistryNodeId} {t : ObjectTree} {d : Digest} :
    d ∈ pendingOf id t ↔ Needed id t[d]? := by
  rw [pendingOf, List.mem_toFinset, Std.ExtTreeMap.mem_keys,
    Std.ExtTreeMap.mem_iff_isSome_getElem?, Std.ExtTreeMap.getElem?_filter',
    Option.isSome_iff_exists]
  simp [Needed, Option.filter_eq_some_iff]

theorem mem_pending_new {db : Db} {id : RegistryNodeId} {k : Kind} {d : Digest} :
    d ∈ (RegistryStore.new db id).stateMachine.pending k ↔ Needed id (db.tree k)[d]? := by
  cases k <;> exact mem_pendingOf

/-- Everything a completed batch does to the pending mark of one digest. -/
theorem batch_pending {st st' : RegistryStore} {entries : List Entry}
    {res : List RegistryResponse} (h : st.applyToStateMachine entries = some (st', res)) (k : Kind)
    (d : Digest) :
    (Needed st.id (st'.db.tree k)[d]? ∧ Refreshes (halves k (actionsOf entries)) d →
      d ∈ st'.stateMachine.pending k) ∧
    (d ∈ st'.stateMachine.pending k → (st'.db.tree k)[d]? ≠ none →
      Refreshes (halves k (actionsOf entries)) d → Needed st.id (st'.db.tree k)[d]?) ∧
    (¬ Refreshes (halves k (actionsOf entries)) d ∨ (st'.db.tree k)[d]? = none →
      (d ∈ st'.stateMachine.pending k ↔ d ∈ st.stateMachine.pending k)) := by
  obtain ⟨-, -, hsm, -⟩ := applyToStateMachine_cases h
  have hmem := bookkeeping_pending hsm k d
  cases ho : (st'.db.tree k)[d]? with
  | none => simp_all [Needed]
  | some o =>
    simp only [ho] at hmem
    by_cases hr : Refreshes (halves k (actionsOf entries)) d <;> simp_all [Needed]

/-- A digest that a batch does not refresh is needed after it exactly if it was before. -/
theorem batch_needed {st st' : RegistryStore} {entries : List Entry}
    {res : List RegistryResponse} (h : st.applyToStateMachine entries = some (st', res)) (k : Kind)
    (d : Digest) (hr : ¬ Refreshes (halves k (actionsOf entries)) d) :
    Needed st.id (st'.db.tree k)[d]? ↔ Needed st.id (st.db.tree k)[d]? := by
  obtain ⟨-, hrun, -, -⟩ := applyToStateMachine_cases h
  have hloc := applyActions_locations (replica_run_trees hrun) k d
  rw [holdersAfter_of_not_refreshes hr] at hloc
  rw [needed_iff, needed_iff, hloc]

/-- Everything needed is pending. -/
def Complete (id : RegistryNodeId) (st : RegistryStore) : Prop :=
  st.id = id ∧ ∀ k d, Needed id (st.db.tree k)[d]? → d ∈ st.stateMachine.pending k

theorem complete_new (db : Db) (id : RegistryNodeId) : Complete id (.new db id) :=
  ⟨rfl, fun _ _ h => mem_pending_new.mpr h⟩

theorem complete_step {id : RegistryNodeId} (st : RegistryStore) (e : NodeEvent)
    (st' : RegistryStore) (hc : Complete id st) (h : nodeStep st e = some st') :
    Complete id st' := by
  obtain ⟨rfl, hc⟩ := hc
  cases e with
  | batch entries =>
    obtain ⟨⟨st₁, res⟩, hb, rfl⟩ := Option.map_eq_some_iff.mp h
    obtain ⟨hid, -⟩ := applyToStateMachine_cases hb
    refine ⟨hid, ?_⟩
    intro k d hn
    obtain ⟨hin, -, hsame⟩ := batch_pending hb k d
    by_cases hr : Refreshes (halves k (actionsOf entries)) d
    · exact hin ⟨hn, hr⟩
    · exact (hsame (.inl hr)).mpr (hc k d ((batch_needed hb k d hr).mp hn))
  | interrupted entries =>
    obtain ⟨db, -, rfl⟩ := Option.map_eq_some_iff.mp h
    exact complete_new db st.id
  | restart =>
    obtain rfl := Option.some.inj h
    exact complete_new st.db st.id
  | wait k d id =>
    cases k <;> obtain rfl := Option.some.inj h <;>
      exact ⟨rfl, fun k d hn => by simpa [RegistryStateMachine.pending] using hc k d hn⟩
  | cancel id =>
    obtain rfl := Option.some.inj h
    exact ⟨rfl, fun k d hn => by simpa [RegistryStateMachine.pending] using hc k d hn⟩

/-- NO WORK IS LOST: in every state a node can reach, every object that is stored somewhere but not
    on this node is in its pending set. -/
theorem pending_complete (id : RegistryNodeId) (es : List NodeEvent) (st : RegistryStore)
    (h : (node id).run (node id).init es = some st) (k : Kind) (d : Digest) (o : Object)
    (ho : (st.db.tree k)[d]? = some o) (hne : o.locations ≠ ∅) (hid : id ∉ o.locations) :
    d ∈ st.stateMachine.pending k := by
  have hc := (node id).run_inv complete_step (complete_new .new id) h
  exact hc.2 k d ⟨o, ho, by simp [needs, hne, hid]⟩

/-- Node 1 applies the upload of node 2 and restarts; the blob is pending. -/
theorem pending_complete_uploadOnTwo :
    ∃ st, (node 1).run (node 1).init [.batch [uploadOnTwo], .restart] = some st ∧
      helloDigest ∈ st.stateMachine.pending .blob := by
  obtain ⟨st, h⟩ := Option.isSome_iff_exists.mp
    (show ((node 1).run (node 1).init [.batch [uploadOnTwo], .restart]).isSome by decide)
  have hget : ((node 1).run (node 1).init [.batch [uploadOnTwo], .restart]).bind
      (fun st => (st.db.tree .blob)[helloDigest]?) =
      some ⟨some 12, none, some [], {⟨"library/a"⟩}, {2}, 10, 12⟩ := by decide
  rw [h] at hget
  exact ⟨st, h, pending_complete 1 _ st h .blob helloDigest _ hget (by decide) (by decide)⟩

/-! ### When no stale work is kept -/

/-- No batch removes the record of an object that, before the batch, is stored on other nodes
    only: each such removal is followed by a mount in the same batch. -/
def KeepsNeeded (st : RegistryStore) : NodeEvent → Prop
  | .batch entries => ∀ k d o, (st.db.tree k)[d]? = some o → o.locations ≠ ∅ → st.id ∉ o.locations →
      ¬ Removed d o.locations (halves k (actionsOf entries))
  | _ => True

/-- Everything pending is needed. -/
def Exact (id : RegistryNodeId) (st : RegistryStore) : Prop :=
  st.id = id ∧ ∀ k d, d ∈ st.stateMachine.pending k → Needed id (st.db.tree k)[d]?

theorem exact_new (db : Db) (id : RegistryNodeId) : Exact id (.new db id) :=
  ⟨rfl, fun _ _ h => mem_pending_new.mp h⟩

theorem exact_step {id : RegistryNodeId} (st : RegistryStore) (e : NodeEvent) (st' : RegistryStore)
    (hx : Exact id st) (hg : KeepsNeeded st e) (h : nodeStep st e = some st') : Exact id st' := by
  obtain ⟨rfl, hx⟩ := hx
  cases e with
  | batch entries =>
    obtain ⟨⟨st₁, res⟩, hb, rfl⟩ := Option.map_eq_some_iff.mp h
    obtain ⟨hid, hrun, -⟩ := applyToStateMachine_cases hb
    refine ⟨hid, ?_⟩
    intro k d hp
    obtain ⟨-, hout, hsame⟩ := batch_pending hb k d
    by_cases hnone : (st₁.db.tree k)[d]? = none
    · -- the mark is as before, so the record was there and the batch removed it
      obtain ⟨o, ho, hn⟩ := hx k d ((hsame (.inr hnone)).mp hp)
      have hs : (st.db.tree k)[d]? ≠ none := by simp [ho]
      have hrem := (applyActions_eq_none (replica_run_trees hrun) k d hs).mp hnone
      rw [ho] at hrem
      simp only [needs, Bool.and_eq_true, decide_eq_true_eq] at hn
      exact absurd hrem (hg k d o ho hn.2 hn.1)
    · by_cases hr : Refreshes (halves k (actionsOf entries)) d
      · exact hout hp hnone hr
      · exact (batch_needed hb k d hr).mpr (hx k d ((hsame (.inl hr)).mp hp))
  | interrupted entries =>
    obtain ⟨db, -, rfl⟩ := Option.map_eq_some_iff.mp h
    exact exact_new db st.id
  | restart =>
    obtain rfl := Option.some.inj h
    exact exact_new st.db st.id
  | wait k d id =>
    cases k <;> obtain rfl := Option.some.inj h <;>
      exact ⟨rfl, fun k d hn => hx k d (by simpa [RegistryStateMachine.pending] using hn)⟩
  | cancel id =>
    obtain rfl := Option.some.inj h
    exact ⟨rfl, fun k d hn => hx k d (by simpa [RegistryStateMachine.pending] using hn)⟩

/-- A batch that removes a needed record leaves its digest pending. -/
theorem stale_of_removed {st st' : RegistryStore} {entries : List Entry}
    {res : List RegistryResponse} (hc : Complete st.id st)
    (h : st.applyToStateMachine entries = some (st', res)) {k : Kind} {d : Digest} {o : Object}
    (ho : (st.db.tree k)[d]? = some o) (hne : o.locations ≠ ∅) (hid : st.id ∉ o.locations)
    (hrem : Removed d o.locations (halves k (actionsOf entries))) :
    d ∈ st'.stateMachine.pending k ∧ (st'.db.tree k)[d]? = none := by
  obtain ⟨-, hrun, -⟩ := applyToStateMachine_cases h
  have hs : (st.db.tree k)[d]? ≠ none := by simp [ho]
  have hnone : (st'.db.tree k)[d]? = none := by
    refine (applyActions_eq_none (replica_run_trees hrun) k d hs).mpr ?_
    rw [ho]
    exact hrem
  have hpend : d ∈ st.stateMachine.pending k := hc.2 k d ⟨o, ho, by simp [needs, hne, hid]⟩
  exact ⟨((batch_pending h k d).2.2 (.inr hnone)).mpr hpend, hnone⟩

/-- NO STALE WORK, exactly: over a whole run of a node, every digest that is pending after a
    completed batch has a record with locations, none of them this node, if and only if no batch of
    the run removes the record of an object stored on other nodes only. -/
theorem pending_exact_iff (id : RegistryNodeId) (es : List NodeEvent) (st : RegistryStore)
    (h : (node id).run (node id).init es = some st) :
    (∀ xs entries ys st₁, es = xs ++ .batch entries :: ys →
      (node id).run (node id).init (xs ++ [.batch entries]) = some st₁ →
      ∀ k d, d ∈ st₁.stateMachine.pending k →
        ∃ o, (st₁.db.tree k)[d]? = some o ∧ o.locations ≠ ∅ ∧ id ∉ o.locations) ↔
    (node id).Meets KeepsNeeded (node id).init es := by
  constructor
  · intro hexact
    refine (node id).meets_of_cuts ?_
    intro xs e ys t he ht
    cases e with
    | batch entries =>
      intro k d o ho hne hid hrem
      have hc := (node id).run_inv complete_step (complete_new .new id) ht
      obtain rfl := hc.1
      rw [he] at h
      obtain ⟨m, hm, hrest⟩ := (node t.id).run_append_some h
      obtain rfl : t = m := Option.some.inj (ht.symm.trans hm)
      obtain ⟨t', hstep, -⟩ := (node t.id).run_cons_some hrest
      obtain ⟨⟨t₁, res⟩, hb, rfl⟩ := Option.map_eq_some_iff.mp hstep
      obtain ⟨hmem, hnone⟩ := stale_of_removed hc hb ho hne hid hrem
      have hcut : (node t.id).run (node t.id).init (xs ++ [.batch entries]) = some t₁ := by
        rw [(node t.id).run_append, ht]
        simpa using hstep
      obtain ⟨o', ho', -⟩ := hexact xs entries ys t₁ he hcut k d hmem
      rw [hnone] at ho'
      cases ho'
    | _ => trivial
  · rintro hmeets xs entries ys st₁ rfl hrun k d hp
    have hpre : (node id).Meets KeepsNeeded (node id).init (xs ++ [.batch entries]) := by
      rw [List.append_cons] at hmeets
      exact (node id).meets_of_append hmeets
    have hx := (node id).run_inv_of_meets exact_step (exact_new .new id) hpre hrun
    obtain ⟨o, ho, hn⟩ := hx.2 k d hp
    simp only [needs, Bool.and_eq_true, decide_eq_true_eq] at hn
    exact ⟨o, ho, hn.2, hn.1⟩

/-- A batch on a new database removes nothing, so what node 1 keeps pending is needed. -/
theorem pending_exact_iff_uploadOnTwo :
    ∃ st, (node 1).run (node 1).init [.batch [uploadOnTwo]] = some st ∧
      ∀ k d, d ∈ st.stateMachine.pending k →
        ∃ o, (st.db.tree k)[d]? = some o ∧ o.locations ≠ ∅ ∧ 1 ∉ o.locations := by
  obtain ⟨st, h⟩ := Option.isSome_iff_exists.mp
    (show ((node 1).run (node 1).init [.batch [uploadOnTwo]]).isSome by decide)
  refine ⟨st, h, (pending_exact_iff 1 [.batch [uploadOnTwo]] st h).mpr ?_
    [] [uploadOnTwo] [] st rfl h⟩
  refine ⟨?_, fun _ _ => trivial⟩
  intro k d o ho
  cases k <;> simp [node, RegistryStore.new, Db.new, Trees.tree, Trees.empty] at ho

/-- The upload of node 2 and the drop of node 2 in two batches: node 1 keeps a digest pending whose
    record is gone and which a restart would not compute. -/
theorem pending_stale_dropOnTwo :
    ∃ st, (node 1).run (node 1).init [.batch [uploadOnTwo], .batch [dropOnTwo]] = some st ∧
      helloDigest ∈ st.stateMachine.pending .blob ∧ (st.db.tree .blob)[helloDigest]? = none ∧
      helloDigest ∉ (RegistryStore.new st.db 1).stateMachine.pending .blob := by
  obtain ⟨st, h⟩ := Option.isSome_iff_exists.mp (show ((node 1).run (node 1).init
    [.batch [uploadOnTwo], .batch [dropOnTwo]]).isSome by decide)
  have hall : ((node 1).run (node 1).init [.batch [uploadOnTwo], .batch [dropOnTwo]]).all
      (fun st => helloDigest ∈ st.stateMachine.pending .blob ∧
        (st.db.tree .blob)[helloDigest]? = none ∧
        helloDigest ∉ (RegistryStore.new st.db 1).stateMachine.pending .blob) = true := by decide
  rw [h] at hall
  exact ⟨st, h, by simpa using hall⟩

end Distribd.Store
