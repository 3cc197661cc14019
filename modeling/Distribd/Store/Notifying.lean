import Distribd.Store.Waiters

/-! Notifications, send by send. `apply_to_state_machine` commits the batch, waits for the database to
    be flushed, takes the write lock of the state machine and then goes through the actions. Until it
    has the lock, requests go on to register and to be cancelled; under the lock nobody registers,
    but a client may still go away at any moment, also between two sends. `sending` is the machine of
    these steps; `sending_batch` says that with nothing in between they are
    `apply_to_state_machine`.

    A `send` is unwrapped, so one to a dropped receiver panics, and poisons the lock under which it is
    made. `notify_survives_iff` says that this is the only thing that can go wrong. -/

namespace Distribd.Store
open Schemes

/-! ### The steps -/

/-- The loop under the lock: its copies of the pending sets, the actions it still has to go through,
    and the senders of the last one that it still has to fire. -/
structure Loop where
  pendingBlobs : Finset Digest
  pendingManifests : Finset Digest
  actions : List RegistryAction
  inHand : List Waiter
  deriving DecidableEq

/-- How far `apply_to_state_machine` has come. -/
inductive Phase where
  | idle
  | committed (entries : List Entry)
  | notifying (loop : Loop)
  | poisoned
  deriving DecidableEq

/-- A store and the call of `apply_to_state_machine` that works on it. -/
structure Sending where
  store : RegistryStore
  phase : Phase

/-- The steps of requests and of the call. -/
inductive SendingEvent where
  /-- `wait_for_blob` / `wait_for_manifest` registers the request. -/
  | wait (kind : Kind) (digest : Digest) (request : ℕ)
  /-- A request is cancelled. -/
  | cancel (request : ℕ)
  /-- The transaction of a batch is committed. -/
  | commit (entries : List Entry)
  /-- The database is flushed, and the write lock is taken; a call whose flush fails ends before. -/
  | lock
  /-- The next action. -/
  | next
  /-- `sender.send(()).unwrap()`. -/
  | send
  /-- `send_replace` of the pending sets, and the lock is released. -/
  | unlock
  /-- The process starts again. -/
  | restart

/-- One action: the pending set of its kind is refreshed, and if the object is stored on this node,
    the senders of its digest are removed from the map. -/
def takeUp (id : RegistryNodeId) (t : Trees) (sm : RegistryStateMachine) (loop : Loop) :
    RegistryAction → RegistryStateMachine × Loop
  | .blobStored _ d l _ =>
    let loop := { loop with pendingBlobs := refresh id t.blobs d loop.pendingBlobs }
    if l = id then
      ({ sm with blobWaiters := sm.blobWaiters.erase d },
       { loop with inHand := (sm.blobWaiters[d]?).getD [] })
    else (sm, loop)
  | .blobUnstored _ d _ _ =>
    (sm, { loop with pendingBlobs := refresh id t.blobs d loop.pendingBlobs })
  | .manifestStored _ d l _ =>
    let loop := { loop with pendingManifests := refresh id t.manifests d loop.pendingManifests }
    if l = id then
      ({ sm with manifestWaiters := sm.manifestWaiters.erase d },
       { loop with inHand := (sm.manifestWaiters[d]?).getD [] })
    else (sm, loop)
  | .manifestUnstored _ d _ _ =>
    (sm, { loop with pendingManifests := refresh id t.manifests d loop.pendingManifests })
  | _ => (sm, loop)

/-- The receiver of request `id` is gone. -/
def dropIn (id : ℕ) (senders : List Waiter) : List Waiter :=
  senders.map fun w => if w.id = id then { w with alive := false } else w

/-- A sender that has been taken out of the map still loses its receiver. -/
def Phase.drop (id : ℕ) : Phase → Phase
  | .notifying loop => .notifying { loop with inHand := dropIn id loop.inHand }
  | phase => phase

/-- One step. -/
def sendingStep (s : Sending) : SendingEvent → Option Sending
  | .wait k d req =>
    match s.phase with
    | .idle | .committed _ =>
      (nodeStep s.store (.wait k d req)).map fun st => { s with store := st }
    | .notifying _ | .poisoned => none
  | .cancel req =>
    (nodeStep s.store (.cancel req)).map fun st => ⟨st, s.phase.drop req⟩
  | .commit entries =>
    match s.phase with
    | .idle => (transaction s.store.db entries []).map fun (db, _) =>
        ⟨{ s.store with db }, .committed entries⟩
    | _ => none
  | .lock =>
    match s.phase with
    | .committed entries =>
      let sm := s.store.stateMachine
      some { s with
        phase := .notifying ⟨sm.pendingBlobs, sm.pendingManifests, actionsOf entries, []⟩ }
    | _ => none
  | .next =>
    match s.phase with
    | .notifying ⟨blobs, manifests, a :: actions, []⟩ =>
      let (sm, loop) := takeUp s.store.id s.store.db.toTrees s.store.stateMachine
        ⟨blobs, manifests, actions, []⟩ a
      some ⟨{ s.store with stateMachine := sm }, .notifying loop⟩
    | _ => none
  | .send =>
    match s.phase with
    | .notifying ⟨blobs, manifests, actions, w :: inHand⟩ =>
      if w.alive then
        some ⟨{ s.store with stateMachine.woken := s.store.stateMachine.woken ++ [w.id] },
          .notifying ⟨blobs, manifests, actions, inHand⟩⟩
      else some { s with phase := .poisoned }
    | _ => none
  | .unlock =>
    match s.phase with
    | .notifying ⟨blobs, manifests, [], []⟩ =>
      some ⟨{ s.store with
        stateMachine.pendingBlobs := blobs, stateMachine.pendingManifests := manifests }, .idle⟩
    | _ => none
  | .restart => some ⟨.new s.store.db s.store.id, .idle⟩

/-- The node `id`, started on a new database. -/
def sending (id : RegistryNodeId) : Machine Sending SendingEvent :=
  ⟨⟨.new .new id, .idle⟩, sendingStep⟩

/-- The steps of the loop itself. -/
def SendingEvent.isStep : SendingEvent → Bool
  | .next | .send | .unlock => true
  | _ => false

/-- What happens while the lock is held: the loop goes on, and requests are cancelled. -/
def SendingEvent.underLock : SendingEvent → Bool
  | .cancel _ => true
  | e => e.isStep

/-- The sender that a `send` would fire. -/
def Phase.next? : Phase → Option Waiter
  | .notifying loop => loop.inHand.head?
  | _ => none

/-- The receiver of the sender that a step fires is still there. -/
def ReceiverThere (s : Sending) : SendingEvent → Prop
  | .send => ∀ w ∈ s.phase.next?, w.alive
  | _ => True

instance (s : Sending) : ∀ e, Decidable (ReceiverThere s e)
  | .send => inferInstanceAs (Decidable (∀ w ∈ s.phase.next?, w.alive))
  | .wait .. | .cancel _ | .commit _ | .lock | .next | .unlock | .restart => isTrue trivial

/-! ### With nothing in between -/

/-- Senders whose receivers are there, fired one after the other. -/
theorem send_all (id : RegistryNodeId) (st : RegistryStore) (blobs manifests : Finset Digest)
    (actions : List RegistryAction) {senders : List Waiter} (h : ∀ w ∈ senders, w.alive) :
    (sending id).run ⟨st, .notifying ⟨blobs, manifests, actions, senders⟩⟩
        (List.replicate senders.length .send) =
      some ⟨{ st with stateMachine.woken := st.stateMachine.woken ++ senders.map (·.id) },
        .notifying ⟨blobs, manifests, actions, []⟩⟩ := by
  induction senders generalizing st with
  | nil => simp
  | cons w senders ih =>
    obtain ⟨hw, hall⟩ := List.forall_mem_cons.mp h
    rw [List.length_cons, List.replicate_succ, (sending id).run_cons]
    simp only [sending, sendingStep, hw, if_true, Option.bind_some]
    refine (ih _ hall).trans ?_
    simp

/-- The state machine with these pending sets. -/
def RegistryStateMachine.showing (sm : RegistryStateMachine) (blobs manifests : Finset Digest) :
    RegistryStateMachine := { sm with pendingBlobs := blobs, pendingManifests := manifests }

/-- The state of the loop in which the state machine has come to `sm`: the pending sets of `sm` are
    the copies, and those that are visible are still `blobs` and `manifests`. -/
def loopAt (st : RegistryStore) (blobs manifests : Finset Digest) (sm : RegistryStateMachine)
    (actions : List RegistryAction) : Sending :=
  ⟨{ st with stateMachine := sm.showing blobs manifests },
   .notifying ⟨sm.pendingBlobs, sm.pendingManifests, actions, []⟩⟩

/-- One action of the bookkeeping is one `next` and its sends. -/
theorem loop_announce (id : RegistryNodeId) (st : RegistryStore) (blobs manifests : Finset Digest)
    {sm sm' : RegistryStateMachine} {a : RegistryAction} (actions : List RegistryAction)
    (h : announce st.id st.db.toTrees sm a = some sm') :
    ∃ fs : List SendingEvent, (∀ e ∈ fs, e.isStep) ∧
      (sending id).run (loopAt st blobs manifests sm (a :: actions)) fs =
        some (loopAt st blobs manifests sm' actions) := by
  have hidle : takeUp st.id st.db.toTrees (sm.showing blobs manifests)
        ⟨sm.pendingBlobs, sm.pendingManifests, actions, []⟩ a =
        (sm'.showing blobs manifests, ⟨sm'.pendingBlobs, sm'.pendingManifests, actions, []⟩) →
      ∃ fs : List SendingEvent, (∀ e ∈ fs, e.isStep) ∧
        (sending id).run (loopAt st blobs manifests sm (a :: actions)) fs =
          some (loopAt st blobs manifests sm' actions) := by
    intro htake
    refine ⟨[.next], by simp [SendingEvent.isStep], ?_⟩
    rw [Machine.run_single]
    simp only [loopAt, sending, sendingStep, htake]
  cases a with
  | blobStored ts d l u =>
    simp only [announce] at h
    split at h
    case isFalse hl =>
      obtain rfl := Option.some.inj h
      refine hidle ?_
      simp only [takeUp, hl, if_false]
      rfl
    case isTrue hl =>
      rw [notify_eq] at h
      split at h
      case isFalse => cases h
      case isTrue hall =>
        obtain rfl := Option.some.inj h
        refine ⟨.next :: List.replicate ((sm.blobWaiters[d]?).getD []).length .send, ?_, ?_⟩
        · intro e he
          rcases List.mem_cons.mp he with rfl | he
          · rfl
          · rw [List.eq_of_mem_replicate he]
            rfl
        · rw [Machine.run_cons]
          simp only [loopAt, sending, sendingStep, takeUp, hl, if_true, Option.bind_some]
          exact send_all id _ _ _ _ (List.all_eq_true.mp hall)
  | manifestStored ts d l u =>
    simp only [announce] at h
    split at h
    case isFalse hl =>
      obtain rfl := Option.some.inj h
      refine hidle ?_
      simp only [takeUp, hl, if_false]
      rfl
    case isTrue hl =>
      rw [notify_eq] at h
      split at h
      case isFalse => cases h
      case isTrue hall =>
        obtain rfl := Option.some.inj h
        refine ⟨.next :: List.replicate ((sm.manifestWaiters[d]?).getD []).length .send, ?_, ?_⟩
        · intro e he
          rcases List.mem_cons.mp he with rfl | he
          · rfl
          · rw [List.eq_of_mem_replicate he]
            rfl
        · rw [Machine.run_cons]
          simp only [loopAt, sending, sendingStep, takeUp, hl, if_true, Option.bind_some]
          exact send_all id _ _ _ _ (List.all_eq_true.mp hall)
  | _ =>
    obtain rfl := Option.some.inj h
    exact hidle rfl

/-- The bookkeeping, step by step. -/
theorem loop_bookkeeping (id : RegistryNodeId) (st : RegistryStore)
    (blobs manifests : Finset Digest) {sm sm' : RegistryStateMachine}
    {actions : List RegistryAction}
    (h : (bookkeeping st.id st.db.toTrees).run sm actions = some sm') :
    ∃ fs : List SendingEvent, (∀ e ∈ fs, e.isStep) ∧
      (sending id).run (loopAt st blobs manifests sm actions) fs =
        some (loopAt st blobs manifests sm' []) := by
  induction actions generalizing sm with
  | nil =>
    obtain rfl := Option.some.inj h
    exact ⟨[], by simp, rfl⟩
  | cons a actions ih =>
    obtain ⟨m, hm, hrest⟩ := (bookkeeping st.id st.db.toTrees).run_cons_some h
    obtain ⟨fs, hfs, hrun⟩ := loop_announce id st blobs manifests actions hm
    obtain ⟨gs, hgs, hrun'⟩ := ih hrest
    refine ⟨fs ++ gs, ?_, ?_⟩
    · intro e he
      exact (List.mem_append.mp he).elim (hfs e) (hgs e)
    · rw [(sending id).run_append, hrun]
      exact hrun'

/-- With nothing in between, the steps are `apply_to_state_machine`. -/
theorem sending_batch (id : RegistryNodeId) {st st' : RegistryStore} {entries : List Entry}
    {res : List RegistryResponse} (h : st.applyToStateMachine entries = some (st', res)) :
    ∃ fs : List SendingEvent, (∀ e ∈ fs, e.isStep) ∧
      (sending id).run ⟨st, .idle⟩ (.commit entries :: .lock :: fs) = some ⟨st', .idle⟩ := by
  obtain ⟨hid, hdb, hsm, -⟩ := applyToStateMachine_cases h
  obtain ⟨fs, hfs, hrun⟩ := loop_bookkeeping id { st with db := st'.db }
    st.stateMachine.pendingBlobs st.stateMachine.pendingManifests hsm
  refine ⟨fs ++ [.unlock], ?_, ?_⟩
  · intro e he
    rcases List.mem_append.mp he with he | he
    · exact hfs e he
    · obtain rfl := List.mem_singleton.mp he
      rfl
  · have hcommit : sendingStep ⟨st, .idle⟩ (.commit entries) =
        some ⟨{ st with db := st'.db }, .committed entries⟩ := by
      simp [sendingStep, transaction_eq, hdb]
    have hlock : sendingStep ⟨{ st with db := st'.db }, .committed entries⟩ .lock =
        some (loopAt { st with db := st'.db } st.stateMachine.pendingBlobs
          st.stateMachine.pendingManifests st.stateMachine (actionsOf entries)) := rfl
    have hunlock : sendingStep (loopAt { st with db := st'.db } st.stateMachine.pendingBlobs
        st.stateMachine.pendingManifests st'.stateMachine []) .unlock =
        some ⟨{ st with db := st'.db, stateMachine := st'.stateMachine }, .idle⟩ := rfl
    have hst : { st with db := st'.db, stateMachine := st'.stateMachine } = st' := by
      cases st'
      cases hid
      rfl
    calc (sending id).run ⟨st, .idle⟩ (.commit entries :: .lock :: (fs ++ [.unlock]))
        = (sending id).run (loopAt { st with db := st'.db } st.stateMachine.pendingBlobs
            st.stateMachine.pendingManifests st.stateMachine (actionsOf entries))
            (fs ++ [.unlock]) := by
          rw [Machine.run_cons, show (sending id).step = sendingStep from rfl, hcommit,
            Option.bind_some, Machine.run_cons, show (sending id).step = sendingStep from rfl,
            hlock, Option.bind_some]
      _ = some ⟨st', .idle⟩ := by
          rw [Machine.run_append, hrun, Option.bind_some, Machine.run_single,
            show (sending id).step = sendingStep from rfl, hunlock, hst]

/-! ### Who is registered -/

/-- The requests registered for a digest; `none`: there is no entry in the map. -/
def RegistryStateMachine.registered (sm : RegistryStateMachine) (k : Kind) (d : Digest) :
    Option (List ℕ) := ((sm.waiters k)[d]?).map fun senders => senders.map (·.id)

/-- The requests to be woken: those that are registered for an announced digest. -/
def RegistryStateMachine.awaiting (sm : RegistryStateMachine) (id : RegistryNodeId) (k : Kind)
    (actions : List RegistryAction) : Multiset ℕ :=
  ∑ d ∈ announced id k actions, (((sm.registered k d).getD [] : List ℕ) : Multiset ℕ)

theorem dropIn_ids (id : ℕ) (senders : List Waiter) :
    (dropIn id senders).map (·.id) = senders.map (·.id) := by
  rw [dropIn, List.map_map]
  refine List.map_congr_left fun w _ => ?_
  simp only [Function.comp_apply]
  split <;> rfl

/-- A cancellation changes who is alive, not who is registered. -/
theorem cancel_registered {st st' : RegistryStore} {req : ℕ}
    (h : nodeStep st (.cancel req) = some st') :
    st'.id = st.id ∧ st'.db = st.db ∧ st'.stateMachine.woken = st.stateMachine.woken ∧
      ∀ k d, st'.stateMachine.registered k d = st.stateMachine.registered k d := by
  obtain rfl := Option.some.inj h
  refine ⟨rfl, rfl, rfl, ?_⟩
  have hdrop : ∀ (w : Waiters) (d : Digest),
      ((dropReceiver w req)[d]?).map (fun senders => senders.map (·.id)) =
        (w[d]?).map fun senders => senders.map (·.id) := by
    intro w d
    rw [dropReceiver, Std.ExtTreeMap.getElem?_map, Option.map_map]
    refine congrArg (Option.map · w[d]?) (funext fun senders => ?_)
    exact dropIn_ids req senders
  intro k d
  cases k with
  | blob => exact hdrop _ d
  | manifest => exact hdrop _ d

/-- A cancellation also reaches the senders in hand. -/
theorem cancelStep {u u' : Sending} {req : ℕ} (h : sendingStep u (.cancel req) = some u') :
    ∃ st, nodeStep u.store (.cancel req) = some st ∧ u' = ⟨st, u.phase.drop req⟩ := by
  simp only [sendingStep, Option.map_eq_some_iff] at h
  obtain ⟨st, hst, rfl⟩ := h
  exact ⟨st, hst, rfl⟩

/-- An action either stores an object on this node, or leaves maps and senders alone. -/
theorem takeUp_cases (id : RegistryNodeId) (t : Trees) (sm : RegistryStateMachine) (loop : Loop)
    (a : RegistryAction) :
    (takeUp id t sm loop a).1.woken = sm.woken ∧
      (takeUp id t sm loop a).2.actions = loop.actions ∧
      ((∃ k d, (a.half k).bind (storedHere id) = some d ∧
          (∀ k', (takeUp id t sm loop a).1.waiters k' =
            if k' = k then (sm.waiters k).erase d else sm.waiters k') ∧
          (takeUp id t sm loop a).2.inHand = sm.senders k d) ∨
        ((∀ k, (a.half k).bind (storedHere id) = none) ∧ (takeUp id t sm loop a).1 = sm ∧
          (takeUp id t sm loop a).2.inHand = loop.inHand)) := by
  cases a with
  | blobStored ts d l u =>
    by_cases hl : l = id
    · subst hl
      simp only [takeUp, if_true]
      refine ⟨trivial, trivial, .inl ⟨.blob, d, by simp [RegistryAction.half, storedHere], ?_, rfl⟩⟩
      intro k'
      cases k' <;> rfl
    · simp only [takeUp, hl, if_false]
      refine ⟨trivial, trivial, .inr ⟨?_, trivial, trivial⟩⟩
      intro k
      cases k <;> simp [RegistryAction.half, storedHere, hl]
  | manifestStored ts d l u =>
    by_cases hl : l = id
    · subst hl
      simp only [takeUp, if_true]
      refine ⟨trivial, trivial, .inl ⟨.manifest, d, by simp [RegistryAction.half, storedHere], ?_,
        rfl⟩⟩
      intro k'
      cases k' <;> rfl
    · simp only [takeUp, hl, if_false]
      refine ⟨trivial, trivial, .inr ⟨?_, trivial, trivial⟩⟩
      intro k
      cases k <;> simp [RegistryAction.half, storedHere, hl]
  | _ =>
    refine ⟨rfl, rfl, .inr ⟨?_, rfl, rfl⟩⟩
    intro k
    cases k <;> rfl

/-! ### What the loop has done so far -/

/-- What the loop has done after the actions `done`: whoever was registered for an announced digest
    is gone from the map and has been woken or is next, once for each registration, and the others
    are registered as before. -/
structure Done (s : RegistryStore) (entries : List Entry) (st : RegistryStore)
    (done left : List RegistryAction) (inHand : List Waiter) : Prop where
  id : st.id = s.id
  actions : actionsOf entries = done ++ left
  registered : ∀ (k : Kind) (d : Digest), st.stateMachine.registered k d =
    if d ∈ announced s.id k done then none else s.stateMachine.registered k d
  woken : ∃ signalled : List ℕ, st.stateMachine.woken = s.stateMachine.woken ++ signalled ∧
    ((signalled ++ inHand.map (·.id) : List ℕ) : Multiset ℕ) =
      s.stateMachine.awaiting s.id .blob done + s.stateMachine.awaiting s.id .manifest done

/-- Where a call that took the lock in the store `s` can be: in the loop, or through with it, or a
    `send` has panicked. -/
def Sending.Under (s : RegistryStore) (entries : List Entry) (u : Sending) : Prop :=
  match u.phase with
  | .notifying loop => ∃ done, Done s entries u.store done loop.actions loop.inHand
  | .idle => Done s entries u.store (actionsOf entries) [] []
  | .poisoned => ∃ done left inHand, Done s entries u.store done left inHand
  | .committed _ => False

theorem registered_getD (sm : RegistryStateMachine) (k : Kind) (d : Digest) :
    (sm.registered k d).getD [] = (sm.senders k d).map (·.id) := by
  rw [RegistryStateMachine.registered, RegistryStateMachine.senders]
  cases (sm.waiters k)[d]? <;> rfl

/-- What one more action adds to the requests to be woken. -/
theorem awaiting_snoc (sm : RegistryStateMachine) (id : RegistryNodeId) (k : Kind)
    (actions : List RegistryAction) (a : RegistryAction) :
    sm.awaiting id k (actions ++ [a]) = match (a.half k).bind (storedHere id) with
      | some d => if d ∈ announced id k actions then sm.awaiting id k actions
          else (((sm.registered k d).getD [] : List ℕ) : Multiset ℕ) + sm.awaiting id k actions
      | none => sm.awaiting id k actions := by
  rw [RegistryStateMachine.awaiting, announced_snoc]
  cases (a.half k).bind (storedHere id) with
  | none => rfl
  | some d =>
    simp only
    split
    case isTrue hd => rw [Finset.insert_eq_of_mem hd, RegistryStateMachine.awaiting]
    case isFalse hd => rw [Finset.sum_insert hd, RegistryStateMachine.awaiting]

/-- The next action that stores nothing here. -/
theorem Done.idle {s st st' : RegistryStore} {entries : List Entry} {done left : List RegistryAction}
    {a : RegistryAction} (h : Done s entries st done (a :: left) [])
    (ha : ∀ k, (a.half k).bind (storedHere s.id) = none) (hid : st'.id = st.id)
    (hsm : ∀ k d, st'.stateMachine.registered k d = st.stateMachine.registered k d)
    (hwoken : st'.stateMachine.woken = st.stateMachine.woken) :
    Done s entries st' (done ++ [a]) left [] where
  id := hid.trans h.id
  actions := by rw [h.actions, List.append_assoc, List.singleton_append]
  registered k d := by
    rw [hsm, h.registered, announced_snoc, ha k]
  woken := by
    have hsame : ∀ k, s.stateMachine.awaiting s.id k (done ++ [a]) =
        s.stateMachine.awaiting s.id k done := by
      intro k
      rw [awaiting_snoc, ha k]
    rw [hwoken, hsame, hsame]
    exact h.woken

/-- The next action takes the senders of its digest in hand. -/
theorem Done.take {s st st' : RegistryStore} {entries : List Entry} {done left : List RegistryAction}
    {a : RegistryAction} (h : Done s entries st done (a :: left) []) {k : Kind} {d : Digest}
    (ha : (a.half k).bind (storedHere s.id) = some d) (hid : st'.id = st.id)
    (hsm : ∀ k', st'.stateMachine.waiters k' =
      if k' = k then (st.stateMachine.waiters k).erase d else st.stateMachine.waiters k')
    (hwoken : st'.stateMachine.woken = st.stateMachine.woken) :
    Done s entries st' (done ++ [a]) left (st.stateMachine.senders k d) where
  id := hid.trans h.id
  actions := by rw [h.actions, List.append_assoc, List.singleton_append]
  registered k' e := by
    obtain ⟨oa, hoa, -⟩ := Option.bind_eq_some_iff.mp ha
    have hold := h.registered k' e
    rw [RegistryStateMachine.registered] at hold
    rw [RegistryStateMachine.registered, hsm, announced_snoc]
    rcases eq_or_ne k' k with rfl | hk
    · rw [if_pos rfl, ha, Std.ExtTreeMap.getElem?_erase]
      by_cases hed : d = e
      · simp [hed]
      · have hne : e ≠ d := fun he => hed he.symm
        simp [hed, hne, hold]
    · rw [if_neg hk, half_other hoa hk]
      exact hold
  woken := by
    obtain ⟨oa, hoa, -⟩ := Option.bind_eq_some_iff.mp ha
    obtain ⟨signalled, hw, hsum⟩ := h.woken
    refine ⟨signalled, hwoken.trans hw, ?_⟩
    have hnew : (((st.stateMachine.senders k d).map (·.id) : List ℕ) : Multiset ℕ) +
        s.stateMachine.awaiting s.id k done = s.stateMachine.awaiting s.id k (done ++ [a]) := by
      rw [awaiting_snoc, ha, ← registered_getD, h.registered]
      simp only
      split
      case isTrue => simp
      case isFalse => rfl
    have hsame : ∀ k', k' ≠ k → s.stateMachine.awaiting s.id k' (done ++ [a]) =
        s.stateMachine.awaiting s.id k' done := by
      intro k' hk
      rw [awaiting_snoc, half_other hoa hk]
      rfl
    simp only [List.map_nil, List.append_nil] at hsum
    rw [← Multiset.coe_add, hsum]
    cases k with
    | blob => rw [← hnew, hsame .manifest (by simp)]; abel
    | manifest => rw [← hnew, hsame .blob (by simp)]; abel

/-- One step under the lock. -/
theorem under_step {s : RegistryStore} {entries : List Entry} {u u' : Sending} {e : SendingEvent}
    (h : u.Under s entries) (he : e.underLock) (hstep : sendingStep u e = some u') :
    u'.Under s entries := by
  obtain ⟨st, phase⟩ := u
  cases e with
  | cancel req =>
    obtain ⟨st', hst, rfl⟩ := cancelStep hstep
    obtain ⟨hid, -, hwoken, hreg⟩ := cancel_registered hst
    have hkeep : ∀ done left inHand, Done s entries st done left inHand →
        Done s entries st' done left inHand := by
      intro done left inHand hd
      refine ⟨hid.trans hd.id, hd.actions, ?_, ?_⟩
      · intro k d
        rw [hreg, hd.registered]
      · rw [hwoken]
        exact hd.woken
    cases phase with
    | idle => exact hkeep _ _ _ h
    | committed entries' => cases h
    | poisoned =>
      obtain ⟨done, left, inHand, hd⟩ := h
      exact ⟨done, left, inHand, hkeep _ _ _ hd⟩
    | notifying loop =>
      obtain ⟨done, hd⟩ := h
      refine ⟨done, ?_⟩
      have hd' := hkeep _ _ _ hd
      refine ⟨hd'.id, hd'.actions, hd'.registered, ?_⟩
      obtain ⟨signalled, hw, hsum⟩ := hd'.woken
      refine ⟨signalled, hw, ?_⟩
      rw [← hsum]
      exact congrArg (fun ids => ((signalled ++ ids : List ℕ) : Multiset ℕ)) (dropIn_ids req _)
  | next =>
    simp only [sendingStep] at hstep
    split at hstep
    case h_2 => cases hstep
    case h_1 blobs manifests a actions =>
      obtain rfl := Option.some.inj hstep
      obtain ⟨done, hd⟩ := h
      have hid : st.id = s.id := hd.id
      obtain ⟨hwoken, hactions, ⟨k, d, ha, hw, hhand⟩ | ⟨ha, hsm, hhand⟩⟩ :=
        takeUp_cases st.id st.db.toTrees st.stateMachine ⟨blobs, manifests, actions, []⟩ a
      · refine ⟨done ++ [a], ?_⟩
        simp only [hactions, hhand]
        rw [hid] at ha
        exact hd.take ha rfl hw hwoken
      · refine ⟨done ++ [a], ?_⟩
        simp only [hactions, hhand]
        refine hd.idle (fun k => hid ▸ ha k) rfl ?_ hwoken
        intro k d
        rw [hsm]
  | send =>
    simp only [sendingStep] at hstep
    split at hstep
    case h_2 => cases hstep
    case h_1 blobs manifests actions w inHand =>
      obtain ⟨done, hd⟩ := h
      split at hstep
      case isFalse =>
        obtain rfl := Option.some.inj hstep
        exact ⟨done, actions, w :: inHand, hd⟩
      case isTrue =>
        obtain rfl := Option.some.inj hstep
        refine ⟨done, hd.id, hd.actions, ?_, ?_⟩
        · intro k d
          have hold := hd.registered k d
          cases k <;> exact hold
        · obtain ⟨signalled, hw, hsum⟩ := hd.woken
          refine ⟨signalled ++ [w.id], ?_, ?_⟩
          · change st.stateMachine.woken ++ [w.id] = _
            rw [hw, List.append_assoc]
          · rw [← hsum]
            simp
  | unlock =>
    simp only [sendingStep] at hstep
    split at hstep
    case h_2 => cases hstep
    case h_1 blobs manifests =>
      obtain rfl := Option.some.inj hstep
      obtain ⟨done, hd⟩ := h
      have hall : actionsOf entries = done := by simpa using hd.actions
      refine ⟨hd.id, by simp, ?_, ?_⟩
      · intro k d
        have hold := hd.registered k d
        rw [hall]
        cases k <;> exact hold
      · rw [hall]
        exact hd.woken
  | wait k d req => cases he
  | commit entries' => cases he
  | lock => cases he
  | restart => cases he

/-- A run under the lock. -/
theorem under_run {id : RegistryNodeId} {s : RegistryStore} {entries : List Entry} {u u' : Sending}
    {fs : List SendingEvent} (h : u.Under s entries) (hlock : ∀ e ∈ fs, e.underLock)
    (hrun : (sending id).run u fs = some u') : u'.Under s entries :=
  (sending id).run_inv_of_meets (G := fun _ e => e.underLock)
    (fun _ _ _ hu he hs => under_step hu he hs) h ((sending id).meets_of_forall hlock) hrun

/-! ### Panics -/

/-- After a panic the lock stays poisoned. -/
theorem poisoned_step {u u' : Sending} {e : SendingEvent} (h : u.phase = .poisoned)
    (he : e.underLock) (hstep : sendingStep u e = some u') : u'.phase = .poisoned := by
  obtain ⟨st, phase⟩ := u
  obtain rfl : phase = .poisoned := h
  cases e with
  | cancel req =>
    obtain ⟨st', -, rfl⟩ := cancelStep hstep
    rfl
  | next | send | unlock => cases hstep
  | wait | commit | lock | restart => cases he

/-- A step under the lock panics exactly if it fires a sender whose receiver is gone. -/
theorem poisons_iff {u u' : Sending} {e : SendingEvent} (h : u.phase ≠ .poisoned)
    (he : e.underLock) (hstep : sendingStep u e = some u') :
    u'.phase ≠ .poisoned ↔ ReceiverThere u e := by
  obtain ⟨st, phase⟩ := u
  cases e with
  | cancel req =>
    obtain ⟨st', -, rfl⟩ := cancelStep hstep
    refine iff_of_true ?_ trivial
    cases phase <;> simp_all [Phase.drop]
  | next =>
    simp only [sendingStep] at hstep
    split at hstep
    case h_2 => cases hstep
    case h_1 =>
      obtain rfl := Option.some.inj hstep
      exact iff_of_true (by simp) trivial
  | send =>
    simp only [sendingStep] at hstep
    split at hstep
    case h_2 => cases hstep
    case h_1 blobs manifests actions w inHand =>
      split at hstep
      case isTrue halive =>
        obtain rfl := Option.some.inj hstep
        exact iff_of_true (by simp) (by simpa [ReceiverThere, Phase.next?] using halive)
      case isFalse hdead =>
        obtain rfl := Option.some.inj hstep
        exact iff_of_false (by simp) (by simpa [ReceiverThere, Phase.next?] using hdead)
  | unlock =>
    simp only [sendingStep] at hstep
    split at hstep
    case h_2 => cases hstep
    case h_1 =>
      obtain rfl := Option.some.inj hstep
      exact iff_of_true (by simp) trivial
  | wait | commit | lock | restart => cases he

/-- A run under the lock panics exactly if one of its sends does. -/
theorem run_poisons_iff {id : RegistryNodeId} {u u' : Sending} {fs : List SendingEvent}
    (h : u.phase ≠ .poisoned) (hlock : ∀ e ∈ fs, e.underLock)
    (hrun : (sending id).run u fs = some u') :
    u'.phase ≠ .poisoned ↔ (sending id).Meets ReceiverThere u fs := by
  induction fs generalizing u with
  | nil =>
    obtain rfl := Option.some.inj hrun
    exact iff_of_true h trivial
  | cons e fs ih =>
    obtain ⟨he, hfs⟩ := List.forall_mem_cons.mp hlock
    obtain ⟨m, hm, hrest⟩ := (sending id).run_cons_some hrun
    have hone := poisons_iff h he hm
    constructor
    · intro hend
      have hmid : m.phase ≠ .poisoned := by
        intro hp
        exact hend ((sending id).run_inv_of_meets (G := fun _ e => e.underLock)
          (I := fun u => u.phase = .poisoned) (fun _ _ _ hu he hs => poisoned_step hu he hs) hp
          ((sending id).meets_of_forall hfs) hrest)
      refine ⟨hone.mp hmid, fun m' hm' => ?_⟩
      obtain rfl : m = m' := Option.some.inj (hm.symm.trans hm')
      exact (ih hmid hfs hrest).mp hend
    · rintro ⟨hthere, hmeets⟩
      exact (ih (hone.mpr hthere) hfs hrest).mpr (hmeets m hm)

/-! ### The loop comes to its end -/

/-- A loop that is not through can go on. -/
theorem step_possible (u : Sending) {loop : Loop} (h : u.phase = .notifying loop) :
    ∃ e, e.isStep ∧ (sendingStep u e).isSome := by
  obtain ⟨st, phase⟩ := u
  obtain rfl : phase = .notifying loop := h
  obtain ⟨blobs, manifests, actions, inHand⟩ := loop
  cases inHand with
  | cons w inHand =>
    refine ⟨.send, rfl, ?_⟩
    simp only [sendingStep]
    split <;> rfl
  | nil =>
    cases actions with
    | cons a actions => exact ⟨.next, rfl, rfl⟩
    | nil => exact ⟨.unlock, rfl, rfl⟩

/-- How far a loop over `total` actions has come: the actions it has looked at, the senders it has
    fired, and whether it is over. -/
def Sending.progress (total : ℕ) (u : Sending) : ℕ :=
  u.store.stateMachine.woken.length + match u.phase with
    | .notifying loop => total - loop.actions.length
    | _ => total + 1

theorem progress_step {total : ℕ} {u u' : Sending} {e : SendingEvent} (he : e.underLock)
    (hlen : ∀ loop, u.phase = .notifying loop → loop.actions.length ≤ total)
    (hstep : sendingStep u e = some u') :
    u.progress total + (if e.isStep then 1 else 0) ≤ u'.progress total := by
  obtain ⟨st, phase⟩ := u
  cases e with
  | cancel req =>
    obtain ⟨st', hst, rfl⟩ := cancelStep hstep
    obtain ⟨-, -, hwoken, -⟩ := cancel_registered hst
    cases phase <;> simp [Sending.progress, Phase.drop, hwoken, SendingEvent.isStep]
  | next =>
    simp only [sendingStep] at hstep
    split at hstep
    case h_2 => cases hstep
    case h_1 blobs manifests a actions =>
      obtain rfl := Option.some.inj hstep
      obtain ⟨hwoken, hactions, -⟩ :=
        takeUp_cases st.id st.db.toTrees st.stateMachine ⟨blobs, manifests, actions, []⟩ a
      have hlen' : actions.length + 1 ≤ total := hlen _ rfl
      simp only [Sending.progress, hwoken, hactions, List.length_cons, SendingEvent.isStep, if_true]
      omega
  | send =>
    simp only [sendingStep] at hstep
    split at hstep
    case h_2 => cases hstep
    case h_1 blobs manifests actions w inHand =>
      split at hstep
      case isTrue =>
        obtain rfl := Option.some.inj hstep
        simp only [Sending.progress, List.length_append, List.length_singleton,
          SendingEvent.isStep, if_true]
        omega
      case isFalse =>
        obtain rfl := Option.some.inj hstep
        simp only [Sending.progress, SendingEvent.isStep, if_true]
        omega
  | unlock =>
    simp only [sendingStep] at hstep
    split at hstep
    case h_2 => cases hstep
    case h_1 blobs manifests =>
      obtain rfl := Option.some.inj hstep
      simp only [Sending.progress, List.length_nil, SendingEvent.isStep, if_true]
      omega
  | wait | commit | lock | restart => cases he

/-- Every step of the loop takes it on. -/
theorem progress_run {id : RegistryNodeId} {s : RegistryStore} {entries : List Entry}
    {u u' : Sending} {fs : List SendingEvent} (h : u.Under s entries)
    (hlock : ∀ e ∈ fs, e.underLock) (hrun : (sending id).run u fs = some u') :
    u.progress (actionsOf entries).length + fs.countP (·.isStep) ≤
      u'.progress (actionsOf entries).length := by
  induction fs generalizing u with
  | nil =>
    obtain rfl := Option.some.inj hrun
    simp
  | cons e fs ih =>
    obtain ⟨he, hfs⟩ := List.forall_mem_cons.mp hlock
    obtain ⟨m, hm, hrest⟩ := (sending id).run_cons_some hrun
    have hlen : ∀ loop, u.phase = .notifying loop →
        loop.actions.length ≤ (actionsOf entries).length := by
      intro loop hloop
      simp only [Sending.Under, hloop] at h
      obtain ⟨done, hd⟩ := h
      rw [hd.actions, List.length_append]
      omega
    have hone := progress_step he hlen hm
    have hmore := ih (under_step h he hm) hfs hrest
    rw [List.countP_cons]
    omega

theorem awaiting_mono (sm : RegistryStateMachine) (id : RegistryNodeId) (k : Kind)
    (done left : List RegistryAction) :
    (sm.awaiting id k done).card ≤ (sm.awaiting id k (done ++ left)).card := by
  refine Multiset.card_le_card (Finset.sum_le_sum_of_subset ?_)
  intro d hd
  obtain ⟨ts, hts⟩ := mem_announced.mp hd
  refine mem_announced.mpr ⟨ts, ?_⟩
  simp only [halves, List.filterMap_append]
  exact List.mem_append_left _ hts

/-- No more senders are fired than requests were registered. -/
theorem Done.woken_le {s st : RegistryStore} {entries : List Entry}
    {done left : List RegistryAction} {inHand : List Waiter}
    (h : Done s entries st done left inHand) :
    st.stateMachine.woken.length ≤ s.stateMachine.woken.length +
      ((s.stateMachine.awaiting s.id .blob (actionsOf entries)).card +
        (s.stateMachine.awaiting s.id .manifest (actionsOf entries)).card) := by
  obtain ⟨signalled, hw, hsum⟩ := h.woken
  have hcard := congrArg Multiset.card hsum
  have hb := awaiting_mono s.stateMachine s.id .blob done left
  have hm := awaiting_mono s.stateMachine s.id .manifest done left
  rw [← h.actions] at hb hm
  simp only [Multiset.coe_card, List.length_append, List.length_map, Multiset.card_add] at hcard
  rw [hw, List.length_append]
  omega

/-! ### The whole call -/

theorem id_step {id : RegistryNodeId} (s : Sending) (e : SendingEvent) (s' : Sending)
    (h : s.store.id = id) (hstep : sendingStep s e = some s') : s'.store.id = id := by
  obtain ⟨st, phase⟩ := s
  cases e with
  | cancel req =>
    obtain ⟨st', hst, rfl⟩ := cancelStep hstep
    exact (cancel_registered hst).1.trans h
  | wait k d req =>
    simp only [sendingStep] at hstep
    split at hstep
    case h_1 | h_2 =>
      obtain ⟨st', hst, rfl⟩ := Option.map_eq_some_iff.mp hstep
      cases k <;> obtain rfl := Option.some.inj hst <;> exact h
    case h_3 | h_4 => cases hstep
  | commit entries =>
    simp only [sendingStep] at hstep
    split at hstep
    · obtain ⟨⟨db, res⟩, -, rfl⟩ := Option.map_eq_some_iff.mp hstep
      exact h
    · cases hstep
  | send =>
    simp only [sendingStep] at hstep
    split at hstep
    · split at hstep <;> obtain rfl := Option.some.inj hstep <;> exact h
    · cases hstep
  | restart =>
    obtain rfl := Option.some.inj hstep
    exact h
  | lock | next | unlock =>
    simp only [sendingStep] at hstep
    split at hstep
    · obtain rfl := Option.some.inj hstep
      exact h
    · cases hstep

/-- Where the loop starts. -/
theorem under_start (st : RegistryStore) (entries : List Entry) (blobs manifests : Finset Digest) :
    Sending.Under st entries ⟨st, .notifying ⟨blobs, manifests, actionsOf entries, []⟩⟩ := by
  refine ⟨[], rfl, rfl, ?_, [], ?_, ?_⟩
  · intro k d
    simp [announced, halves]
  · simp
  · simp [RegistryStateMachine.awaiting, announced, halves]

/-- NOTIFICATION, exactly: take any history of registrations, cancellations, batches and restarts, a
    batch that is committed, and any order of the steps of its loop and of further cancellations from
    the moment on when the lock is taken. The loop can always go on until it is over, and is over
    after a bounded number of steps. When it is over, it has not panicked, the requests registered
    for the digests announced with this node's id are gone from the maps and have each been woken
    once, and all others are registered as before, if and only if each sender that was fired still
    had its receiver. -/
theorem notify_survives_iff (id : RegistryNodeId) (es : List SendingEvent) (s : Sending)
    (hrun : (sending id).run (sending id).init es = some s) (entries : List Entry)
    (hs : s.phase = .committed entries) (fs : List SendingEvent) (u : Sending)
    (hlock : ∀ e ∈ fs, e.underLock) (hfs : (sending id).run s (.lock :: fs) = some u) :
    ((∃ loop, u.phase = .notifying loop) → ∃ e, e.isStep ∧ (sendingStep u e).isSome) ∧
    fs.countP (·.isStep) ≤ (actionsOf entries).length +
      (s.store.stateMachine.awaiting id .blob (actionsOf entries) +
        s.store.stateMachine.awaiting id .manifest (actionsOf entries)).card + 1 ∧
    ((¬ ∃ loop, u.phase = .notifying loop) →
      ((u.phase = .idle ∧
        (∀ k d, u.store.stateMachine.registered k d =
          if d ∈ announced id k (actionsOf entries) then none
          else s.store.stateMachine.registered k d) ∧
        ∃ signalled : List ℕ,
          u.store.stateMachine.woken = s.store.stateMachine.woken ++ signalled ∧
          (signalled : Multiset ℕ) = s.store.stateMachine.awaiting id .blob (actionsOf entries) +
            s.store.stateMachine.awaiting id .manifest (actionsOf entries)) ↔
      (sending id).Meets ReceiverThere s (.lock :: fs))) := by
  obtain rfl : s.store.id = id := (sending id).run_inv id_step rfl hrun
  obtain ⟨st, phase⟩ := s
  obtain rfl : phase = .committed entries := hs
  obtain ⟨m, hm, hrest⟩ := (sending st.id).run_cons_some hfs
  obtain rfl := Option.some.inj hm
  have hstart := under_start st entries st.stateMachine.pendingBlobs st.stateMachine.pendingManifests
  have hend := under_run hstart hlock hrest
  refine ⟨?_, ?_, ?_⟩
  · rintro ⟨loop, hloop⟩
    exact step_possible u hloop
  · have hcount := progress_run hstart hlock hrest
    have hwoken : u.store.stateMachine.woken.length ≤ st.stateMachine.woken.length +
        ((st.stateMachine.awaiting st.id .blob (actionsOf entries)).card +
          (st.stateMachine.awaiting st.id .manifest (actionsOf entries)).card) := by
      unfold Sending.Under at hend
      split at hend
      · exact hend.elim fun _ hd => hd.woken_le
      · exact hend.woken_le
      · exact hend.elim fun _ h => h.elim fun _ h => h.elim fun _ hd => hd.woken_le
      · cases hend
    have hover : u.progress (actionsOf entries).length ≤
        u.store.stateMachine.woken.length + ((actionsOf entries).length + 1) := by
      unfold Sending.progress
      split <;> omega
    have hfirst : st.stateMachine.woken.length ≤
        Sending.progress (actionsOf entries).length ⟨st, .notifying
          ⟨st.stateMachine.pendingBlobs, st.stateMachine.pendingManifests, actionsOf entries, []⟩⟩ :=
      Nat.le_add_right _ _
    change List.countP (·.isStep) fs ≤ (actionsOf entries).length +
      (st.stateMachine.awaiting st.id .blob (actionsOf entries) +
        st.stateMachine.awaiting st.id .manifest (actionsOf entries)).card + 1
    rw [Multiset.card_add]
    omega
  · intro hover
    have hpanic := run_poisons_iff (by simp) hlock hrest
    have hmeets : (sending st.id).Meets ReceiverThere ⟨st, .committed entries⟩ (.lock :: fs) ↔
        (sending st.id).Meets ReceiverThere ⟨st, .notifying ⟨st.stateMachine.pendingBlobs,
          st.stateMachine.pendingManifests, actionsOf entries, []⟩⟩ fs := by
      constructor
      · exact fun h => h.2 _ rfl
      · intro h
        refine ⟨trivial, fun m hm => ?_⟩
        obtain rfl := Option.some.inj hm
        exact h
    rw [hmeets, ← hpanic]
    constructor
    · rintro ⟨hidle, -⟩
      simp [hidle]
    · intro hne
      cases hphase : u.phase with
      | notifying loop => exact absurd ⟨loop, hphase⟩ hover
      | poisoned => exact absurd hphase hne
      | committed entries' =>
        simp only [Sending.Under, hphase] at hend
      | idle =>
        simp only [Sending.Under, hphase] at hend
        obtain ⟨signalled, hw, hsum⟩ := hend.woken
        exact ⟨rfl, hend.registered, signalled, hw, by simpa using hsum⟩

/-! ### Node 1 fetches what node 2 has -/

/-- The upload on node 2 is applied on node 1, and a request waits for the blob. -/
def waitingOnOne : List SendingEvent :=
  [.commit [uploadOnTwo], .lock, .next, .next, .next, .unlock, .wait .blob helloDigest 7]

/-- The request is woken when the blob has arrived; another one is cancelled just before. -/
theorem notify_survives_iff_waitingOnOne :
    ∃ s u, (sending 1).run (sending 1).init
        (waitingOnOne ++ [.wait .blob emptyDigest 8, .commit [mirroredOnOne]]) = some s ∧
      (sending 1).run s [.lock, .next, .cancel 8, .send, .unlock] = some u ∧
      u.store.stateMachine.registered .blob helloDigest = none ∧
      u.store.stateMachine.registered .blob emptyDigest =
        s.store.stateMachine.registered .blob emptyDigest := by
  have hfacts : ((sending 1).run (sending 1).init
      (waitingOnOne ++ [.wait .blob emptyDigest 8, .commit [mirroredOnOne]])).bind (fun s =>
        ((sending 1).run s [.lock, .next, .cancel 8, .send, .unlock]).map fun u =>
          decide (s.phase = .committed [mirroredOnOne] ∧ u.phase = .idle ∧
            (sending 1).Meets ReceiverThere s [.lock, .next, .cancel 8, .send, .unlock])) =
      some true := by decide +kernel
  simp only [Option.bind_eq_some_iff, Option.map_eq_some_iff, decide_eq_true_eq] at hfacts
  obtain ⟨s, h, u, hu, hs, hidle, hmeets⟩ := hfacts
  obtain ⟨-, hreg, -⟩ := ((notify_survives_iff 1 _ s h [mirroredOnOne] hs
    [.next, .cancel 8, .send, .unlock] u (by decide) hu).2.2 (by simp [hidle])).mpr hmeets
  refine ⟨s, u, h, hu, ?_, ?_⟩
  · rw [hreg, if_pos (by decide)]
  · rw [hreg, if_neg (by decide)]

/-- The client of the request goes away before the batch with the blob: its sender is fired under the
    lock, which is poisoned by the panic. -/
theorem notify_panics_waitingOnOne :
    ∃ s u, (sending 1).run (sending 1).init
        (waitingOnOne ++ [.cancel 7, .commit [mirroredOnOne]]) = some s ∧
      (sending 1).run s [.lock, .next, .send] = some u ∧ u.phase = .poisoned := by
  have hfacts : ((sending 1).run (sending 1).init
      (waitingOnOne ++ [.cancel 7, .commit [mirroredOnOne]])).bind (fun s =>
        ((sending 1).run s [.lock, .next, .send]).map fun u => u.phase) = some .poisoned := by
    decide +kernel
  simp only [Option.bind_eq_some_iff, Option.map_eq_some_iff] at hfacts
  obtain ⟨s, h, u, hu, hpanic⟩ := hfacts
  exact ⟨s, u, h, hu, hpanic⟩

end Distribd.Store
