import Distribd.Store.Waiters

/-! Pulls against arrivals. A GET or HEAD reads the record, sees that the object is on other nodes
    only, and then leaves its sender in the state machine; a batch is committed and then announced.
    These are four steps of two parties, and `serving` is the machine of their interleavings: any
    number of requests between their look and their registration, and one batch between its commit
    and its notifications. An announcement wakes whoever is registered and is made once, so a
    registration on an outdated look sleeps on. -/

namespace Distribd.Store
open Schemes

/-- A request that has looked and not yet registered. -/
structure Pull where
  kind : Kind
  digest : Digest
  request : ℕ
  deriving DecidableEq

/-- A node that serves pulls: the store, the batch that is committed and not yet announced, and the
    requests between look and registration. -/
structure Serving where
  store : RegistryStore
  inProgress : Option (List Entry)
  looked : List Pull

/-- The steps of requests and batches. -/
inductive ServingEvent where
  /-- A request finds the record in its repository, and this node not among the locations. -/
  | look (kind : Kind) (repository : RepositoryName) (digest : Digest) (request : ℕ)
  /-- The `i`-th of these requests goes on to `wait_for_blob` / `wait_for_manifest`. -/
  | register (i : ℕ)
  /-- The transaction of `apply_to_state_machine` is committed. -/
  | commit (entries : List Entry)
  /-- The rest of `apply_to_state_machine`, under the write lock. -/
  | notify
  /-- A request is cancelled. -/
  | cancel (request : ℕ)
  /-- The process starts again. -/
  | restart

/-- One step. Requests that find no record, or the object on this node, do not wait. -/
def servingStep (s : Serving) : ServingEvent → Option Serving
  | .look k r d req =>
    match (s.store.db.tree k)[d]? with
    | some o =>
      if r ∈ o.repositories ∧ s.store.id ∉ o.locations then
        some { s with looked := s.looked ++ [⟨k, d, req⟩] }
      else none
    | none => none
  | .register i =>
    s.looked[i]?.bind fun p =>
      (nodeStep s.store (.wait p.kind p.digest p.request)).map fun st =>
        { s with store := st, looked := s.looked.eraseIdx i }
  | .commit entries =>
    match s.inProgress with
    | none =>
      (transaction s.store.db entries []).map fun (db, _) =>
        { s with store := { s.store with db }, inProgress := some entries }
    | some _ => none
  | .notify =>
    match s.inProgress with
    | some entries =>
      ((bookkeeping s.store.id s.store.db.toTrees).run s.store.stateMachine
        (actionsOf entries)).map fun sm =>
          { s with store := { s.store with stateMachine := sm }, inProgress := none }
    | none => none
  | .cancel req =>
    (nodeStep s.store (.cancel req)).map fun st =>
      { s with store := st, looked := s.looked.filter (·.request ≠ req) }
  | .restart => some ⟨.new s.store.db s.store.id, none, []⟩

/-- The node `id`, started on a new database. -/
def serving (id : RegistryNodeId) : Machine Serving ServingEvent :=
  ⟨⟨.new .new id, none, []⟩, servingStep⟩

/-- The two steps of a batch, with nothing in between, are `apply_to_state_machine`. -/
theorem commit_notify (id : RegistryNodeId) (s : Serving) (entries : List Entry)
    (h : s.inProgress = none) :
    (serving id).run s [.commit entries, .notify] =
      (nodeStep s.store (.batch entries)).map fun st => { s with store := st } := by
  obtain ⟨st, inProgress, looked⟩ := s
  subst h
  simp only [serving, Machine.run_cons, servingStep, nodeStep, RegistryStore.applyToStateMachine]
  cases transaction st.db entries [] with
  | none => rfl
  | some r =>
    obtain ⟨db, res⟩ := r
    simp only [Option.map_some, Option.bind_some]
    cases (bookkeeping st.id db.toTrees).run st.stateMachine (actionsOf entries) with
    | none => rfl
    | some sm => rfl

/-! ### Everyone who waits will be woken -/

/-- The object is not on this node, or the batch in progress is about to announce it. -/
def Away (s : Serving) (k : Kind) (d : Digest) : Prop :=
  s.store.id ∉ locationsOf (s.store.db.tree k)[d]? ∨
    ∃ entries ∈ s.inProgress, d ∈ announced s.store.id k (actionsOf entries)

/-- A request registers only if what it has seen is still so, or is about to be announced. -/
def LooksAgain (s : Serving) : ServingEvent → Prop
  | .register i => ∀ p ∈ s.looked[i]?, Away s p.kind p.digest
  | _ => True

instance (s : Serving) (k : Kind) (d : Digest) : Decidable (Away s k d) :=
  inferInstanceAs (Decidable (_ ∨ _))

instance (s : Serving) : ∀ e, Decidable (LooksAgain s e)
  | .register i => inferInstanceAs (Decidable (∀ p ∈ s.looked[i]?, Away s p.kind p.digest))
  | .look .. | .commit _ | .notify | .cancel _ | .restart => isTrue trivial

/-- Whoever is registered waits for an object that is away. -/
def Awaited (id : RegistryNodeId) (s : Serving) : Prop :=
  s.store.id = id ∧ ∀ k d, s.store.stateMachine.senders k d ≠ [] → Away s k d

/-- A batch that brings an object to this node announces it. -/
theorem announced_of_arrived {db db' : Db} {entries : List Entry}
    (h : replica.run db entries = some db') {k : Kind} {d : Digest} {id : RegistryNodeId}
    (hout : id ∉ locationsOf (db.tree k)[d]?) (hin : id ∈ locationsOf (db'.tree k)[d]?) :
    d ∈ announced id k (actionsOf entries) := by
  rw [applyActions_locations (replica_run_trees h) k d] at hin
  exact mem_announced.mpr ((stored_of_mem_holdersAfter hin).resolve_left hout)

theorem wait_senders {st st' : RegistryStore} {k : Kind} {d : Digest} {req : ℕ}
    (h : nodeStep st (.wait k d req) = some st') :
    st'.id = st.id ∧ st'.db = st.db ∧ ∀ k' d', st'.stateMachine.senders k' d' ≠ [] →
      (k' = k ∧ d' = d) ∨ st.stateMachine.senders k' d' ≠ [] := by
  have hpush : ∀ (w : Waiters) (d' : Digest), ((pushWaiter w d req)[d']?).getD [] ≠ [] →
      d' = d ∨ (w[d']?).getD [] ≠ [] := by
    intro w d' hne
    rw [pushWaiter, Std.ExtTreeMap.getElem?_insert] at hne
    by_cases hd : d = d'
    · exact .inl hd.symm
    · exact .inr (by simpa [hd] using hne)
  cases k <;> obtain rfl := Option.some.inj h <;> refine ⟨rfl, rfl, ?_⟩ <;> intro k' d' hne <;>
    cases k'
  · exact (hpush _ d' hne).imp_left fun hd => ⟨rfl, hd⟩
  · exact .inr hne
  · exact .inr hne
  · exact (hpush _ d' hne).imp_left fun hd => ⟨rfl, hd⟩

theorem cancel_senders {st st' : RegistryStore} {req : ℕ}
    (h : nodeStep st (.cancel req) = some st') :
    st'.id = st.id ∧ st'.db = st.db ∧ ∀ k d, st'.stateMachine.senders k d ≠ [] →
      st.stateMachine.senders k d ≠ [] := by
  obtain rfl := Option.some.inj h
  refine ⟨rfl, rfl, ?_⟩
  have hdrop : ∀ (w : Waiters) (d : Digest), ((dropReceiver w req)[d]?).getD [] ≠ [] →
      (w[d]?).getD [] ≠ [] := by
    intro w d hne
    rw [dropReceiver, Std.ExtTreeMap.getElem?_map] at hne
    cases hd : w[d]? with
    | none => simp [hd] at hne
    | some ws => simpa [hd] using hne
  intro k d hne
  cases k with
  | blob => exact hdrop _ d hne
  | manifest => exact hdrop _ d hne

theorem awaited_step {id : RegistryNodeId} (s : Serving) (e : ServingEvent) (s' : Serving)
    (hw : Awaited id s) (hg : LooksAgain s e) (h : servingStep s e = some s') : Awaited id s' := by
  obtain ⟨rfl, hw⟩ := hw
  cases e with
  | look k r d req =>
    simp only [servingStep] at h
    split at h
    case h_1 o ho =>
      split at h
      · obtain rfl := Option.some.inj h
        exact ⟨rfl, hw⟩
      · cases h
    case h_2 => cases h
  | register i =>
    obtain ⟨p, hp, h⟩ := Option.bind_eq_some_iff.mp h
    obtain ⟨st, hst, rfl⟩ := Option.map_eq_some_iff.mp h
    obtain ⟨hid, hdb, hsenders⟩ := wait_senders hst
    refine ⟨hid, ?_⟩
    intro k d hne
    have hold : Away s k d := by
      rcases hsenders k d hne with ⟨rfl, rfl⟩ | hne
      · exact hg p hp
      · exact hw k d hne
    simpa only [Away, hid, hdb] using hold
  | commit entries =>
    simp only [servingStep, transaction_eq] at h
    split at h
    case h_2 => cases h
    case h_1 hquiet =>
      simp only [Option.map_map] at h
      obtain ⟨db, hdb, rfl⟩ := Option.map_eq_some_iff.mp h
      refine ⟨rfl, ?_⟩
      intro k d hne
      -- before the batch the object was away, and if the batch brings it, it will announce it
      have hout : s.store.id ∉ locationsOf (s.store.db.tree k)[d]? := by
        rcases hw k d hne with hout | ⟨entries', he, -⟩
        · exact hout
        · rw [hquiet] at he
          cases he
      by_cases hin : s.store.id ∈ locationsOf (db.tree k)[d]?
      · exact .inr ⟨entries, rfl, announced_of_arrived hdb hout hin⟩
      · exact .inl hin
  | notify =>
    simp only [servingStep] at h
    split at h
    case h_2 => cases h
    case h_1 entries hprog =>
      obtain ⟨sm, hsm, rfl⟩ := Option.map_eq_some_iff.mp h
      refine ⟨rfl, ?_⟩
      intro k d hne
      -- whoever is still registered was not announced
      rw [(bookkeeping_notified hsm).senders] at hne
      split at hne
      case isTrue => exact absurd rfl hne
      case isFalse hnot =>
        rcases hw k d hne with hout | ⟨entries', he, hd⟩
        · exact .inl hout
        · rw [hprog] at he
          obtain rfl := Option.some.inj he
          exact absurd hd hnot
  | cancel req =>
    simp only [servingStep] at h
    obtain ⟨st, hst, rfl⟩ := Option.map_eq_some_iff.mp h
    obtain ⟨hid, hdb, hsenders⟩ := cancel_senders hst
    refine ⟨hid, ?_⟩
    intro k d hne
    have hold := hw k d (hsenders k d hne)
    simpa only [Away, hid, hdb] using hold
  | restart =>
    obtain rfl := Option.some.inj h
    refine ⟨rfl, ?_⟩
    intro k d hne
    cases k <;> simp [RegistryStateMachine.senders, RegistryStateMachine.waiters,
      RegistryStore.new] at hne

theorem awaited_init (id : RegistryNodeId) : Awaited id (serving id).init := by
  refine ⟨rfl, ?_⟩
  intro k d hne
  cases k <;> simp [serving, RegistryStateMachine.senders, RegistryStateMachine.waiters,
    RegistryStore.new] at hne

/-- NO LOST WAKE-UP: in every run whose requests register only while what they saw is still so, or
    is about to be announced, in every state with no batch in progress, whoever is registered waits
    for an object that is not on this node. -/
theorem no_lost_wakeup (id : RegistryNodeId) (es : List ServingEvent) (s : Serving)
    (hrun : (serving id).run (serving id).init es = some s)
    (hlook : (serving id).Meets LooksAgain (serving id).init es) (hquiet : s.inProgress = none)
    (k : Kind) (d : Digest) (w : Waiter) (hw : w ∈ s.store.stateMachine.senders k d) :
    id ∉ locationsOf (s.store.db.tree k)[d]? := by
  obtain ⟨rfl, hall⟩ := (serving id).run_inv_of_meets awaited_step (awaited_init id) hlook hrun
  rcases hall k d (List.ne_nil_of_mem hw) with hout | ⟨entries, he, -⟩
  · exact hout
  · rw [hquiet] at he
    cases he

/-- A request on node 1 looks at the blob of node 2 and registers in time. -/
def pullRun : List ServingEvent :=
  [.commit [uploadOnTwo], .notify, .look .blob ⟨"library/a"⟩ helloDigest 7, .register 0]

/-- The blob arrives between the look of the request and its registration. -/
def latePullRun : List ServingEvent :=
  [.commit [uploadOnTwo], .notify, .look .blob ⟨"library/a"⟩ helloDigest 7,
   .commit [mirroredOnOne], .notify, .register 0]

/-- The request in time waits for an object that is not here. -/
theorem no_lost_wakeup_pullRun :
    ∃ s, (serving 1).run (serving 1).init pullRun = some s ∧
      (⟨7, true⟩ : Waiter) ∈ s.store.stateMachine.senders .blob helloDigest ∧
      1 ∉ locationsOf (s.store.db.tree .blob)[helloDigest]? := by
  have hfacts : ((serving 1).run (serving 1).init pullRun).map (fun s =>
      (s.inProgress, decide ((⟨7, true⟩ : Waiter) ∈
        s.store.stateMachine.senders .blob helloDigest))) = some (none, true) := by decide
  simp only [Option.map_eq_some_iff, Prod.mk.injEq, decide_eq_true_eq] at hfacts
  obtain ⟨s, h, hquiet, hw⟩ := hfacts
  exact ⟨s, h, hw, no_lost_wakeup 1 pullRun s h (by decide) hquiet .blob helloDigest _ hw⟩

/-- The late request waits for an object that is already here, and no batch is in progress. -/
theorem latePullRun_sleeps :
    ∃ s, (serving 1).run (serving 1).init latePullRun = some s ∧ s.inProgress = none ∧
      (⟨7, true⟩ : Waiter) ∈ s.store.stateMachine.senders .blob helloDigest ∧
      1 ∈ locationsOf (s.store.db.tree .blob)[helloDigest]? := by
  have hfacts : ((serving 1).run (serving 1).init latePullRun).map (fun s =>
      (s.inProgress,
        decide ((⟨7, true⟩ : Waiter) ∈ s.store.stateMachine.senders .blob helloDigest),
        decide (1 ∈ locationsOf (s.store.db.tree .blob)[helloDigest]?))) =
      some (none, true, true) := by decide
  simp only [Option.map_eq_some_iff, Prod.mk.injEq, decide_eq_true_eq] at hfacts
  exact hfacts

end Distribd.Store
