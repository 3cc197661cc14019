import Distribd.Store.Replica
import Distribd.Store.Waiters
import Distribd.Cluster.Submit

/-! Reading one's own writes (`app.rs`, `client.rs`). `consistent_write` hands its transaction to the
    leader, on its own node or over the network, and gets back what the state machine of the leader
    has answered for the entry: the index of the entry. Then it waits until its own node reports that
    it has applied that index. For every payload `apply_to_state_machine` pushes one response with
    the index of the entry, so the wait is neither too short nor for another entry, and after it the
    node holds the replay of a prefix of the log that has the transaction in it
    (`read_your_writes`).

    Of raft the machine takes what the code relies on: committed entries have consecutive indices,
    the leader that accepted a request hands on the response for its entry, and a node reports an
    index only after `apply_to_state_machine` has returned for it. -/

namespace Distribd.Cluster
open Schemes Store

namespace Writing

/-! ### Nodes and writes -/

/-- A node: its store, and `last_applied` of `raft.metrics()`. -/
structure Node where
  store : RegistryStore
  lastApplied : Option LogId

/-- How far a `consistent_write` is. -/
inductive Stage where
  /-- `client_write` on the leader has taken the request. -/
  | accepted
  | committed (index : ℕ)
  /-- The response is back; `resp.data.value` is the target. -/
  | answered (data : RegistryResponse)
  /-- `consistent_write` has returned `true`. -/
  | returned
  deriving DecidableEq

/-- A call of `consistent_write` on the node `caller` whose request the node `via` has accepted:
    `caller` itself when it leads, else the node that it has been forwarded to. -/
structure Write where
  caller : RegistryNodeId
  via : RegistryNodeId
  actions : List RegistryAction
  stage : Stage
  deriving DecidableEq

/-- The committed log, the nodes and the writes so far. -/
structure State where
  log : List Entry
  node : RegistryNodeId → Node
  writes : List Write

/-- What can happen. -/
inductive Event where
  | submit (caller via : RegistryNodeId) (actions : List RegistryAction)
  /-- The entry of the `w`-th write is committed. -/
  | commit (w : ℕ) (leader : LeaderId)
  /-- Any other entry is committed. -/
  | commitOther (leader : LeaderId) (payload : EntryPayload)
  /-- A node applies its next `n` entries in one batch. -/
  | apply (id : RegistryNodeId) (n : ℕ)
  /-- A node publishes `last_applied`. -/
  | publish (id : RegistryNodeId)
  /-- Requests leave senders behind or drop receivers: the in-memory part changes. -/
  | touch (id : RegistryNodeId) (stateMachine : RegistryStateMachine)
  | restart (id : RegistryNodeId)
  /-- The wait of the `w`-th write ends. -/
  | finish (w : ℕ)

/-- The leader hands the response for an entry of the batch to the write that waits for it; `first`
    is the index of the first entry of the batch. -/
def Write.answer (id : RegistryNodeId) (first : ℕ) (res : List RegistryResponse) (w : Write) :
    Write :=
  match w.stage with
  | .committed i =>
    if w.via = id ∧ first ≤ i then
      match res[i - first]? with
      | some data => { w with stage := .answered data }
      | none => w
    else w
  | _ => w

/-- One node changes. -/
def State.setNode (s : State) (id : RegistryNodeId) (node : Node) : State :=
  { s with node := Function.update s.node id node }

theorem setNode_self (s : State) (id : RegistryNodeId) (node : Node) :
    (s.setNode id node).node id = node := Function.update_self ..

theorem setNode_of_ne (s : State) {id id' : RegistryNodeId} (node : Node) (h : id' ≠ id) :
    (s.setNode id node).node id' = s.node id' := Function.update_of_ne h ..

/-- One event. -/
def step (s : State) : Event → Option State
  | .submit caller via actions =>
    some { s with writes := s.writes ++ [⟨caller, via, actions, .accepted⟩] }
  | .commit w leader =>
    s.writes[w]?.bind fun write =>
      match write.stage with
      | .accepted => some { s with
          log := s.log ++ [nextEntry s.log leader (.normal (.transaction write.actions))]
          writes := s.writes.set w { write with stage := .committed s.log.length } }
      | _ => none
  | .commitOther leader payload =>
    some { s with log := s.log ++ [nextEntry s.log leader payload] }
  | .apply id n =>
    let node := s.node id
    let first := nextIndex node.store.db
    (node.store.applyToStateMachine ((s.log.drop first).take n)).map fun (store, res) =>
      { s.setNode id { node with store } with writes := s.writes.map (·.answer id first res) }
  | .publish id =>
    let node := s.node id
    some (s.setNode id { node with lastApplied := node.store.db.lastAppliedLog })
  | .touch id stateMachine =>
    let node := s.node id
    some (s.setNode id { node with store := { node.store with stateMachine } })
  | .restart id => some (s.setNode id ⟨.new (s.node id).store.db id, none⟩)
  | .finish w =>
    s.writes[w]?.bind fun write =>
      match write.stage, (s.node write.caller).lastApplied with
      | .answered data, some applied =>
        if data.value ≤ applied.index then
          some { s with writes := s.writes.set w { write with stage := .returned } }
        else none
      | _, _ => none

/-- New nodes, an empty log and no writes. -/
def system : Machine State Event where
  init := ⟨[], fun id => ⟨.new .new id, none⟩, []⟩
  step := step

/-! ### Responses -/

/-- Every payload is answered with the index of its entry. -/
theorem respond_eq (e : Entry) : respond e = ⟨e.logId.index⟩ := by
  obtain ⟨id, payload⟩ := e
  cases payload with
  | blank => rfl
  | normal req =>
    obtain ⟨actions⟩ := req
    rfl
  | membership mem => rfl

/-! ### What holds along a run -/

/-- The entry at `i` is the transaction of the write. -/
def Write.At (log : List Entry) (w : Write) (i : ℕ) : Prop :=
  ∃ e, log[i]? = some e ∧ e.payload = .normal (.transaction w.actions)

/-- What is known of a write. -/
def Write.Ok (s : State) (w : Write) : Prop :=
  match w.stage with
  | .accepted => True
  | .committed i => w.At s.log i
  | .answered data => w.At s.log data.value
  | .returned => ∃ i < nextIndex (s.node w.caller).store.db, w.At s.log i

/-- The entries are numbered, every node holds the replay of its prefix and reports no more than it
    has applied, and the writes are where they say. -/
structure Sound (s : State) : Prop where
  numbered : ∀ (i : ℕ) (e : Entry), s.log[i]? = some e → e.logId.index = i
  within : ∀ id, nextIndex (s.node id).store.db ≤ s.log.length
  replayed : ∀ id, replay (s.log.take (nextIndex (s.node id).store.db)) = some (s.node id).store.db
  applied : ∀ id logId, (s.node id).lastApplied = some logId →
    logId.index < nextIndex (s.node id).store.db
  writes : ∀ w ∈ s.writes, w.Ok s

theorem Write.At.extend {log : List Entry} {w : Write} {i : ℕ} (h : w.At log i) (e : Entry) :
    w.At (log ++ [e]) i := by
  obtain ⟨e', he', hp⟩ := h
  refine ⟨e', ?_, hp⟩
  rw [List.getElem?_append_left (List.getElem?_eq_some_iff.mp he').1]
  exact he'

/-- A write stays where it is when the log grows and the nodes go on. -/
theorem Write.Ok.mono {s s' : State} {w : Write} (h : w.Ok s)
    (hlog : ∀ w i, Write.At s.log w i → Write.At s'.log w i)
    (hnode : ∀ id, nextIndex (s.node id).store.db ≤ nextIndex (s'.node id).store.db) :
    w.Ok s' := by
  unfold Write.Ok at h ⊢
  split at h
  · trivial
  · exact hlog w _ h
  · exact hlog w _ h
  · obtain ⟨i, hi, hat⟩ := h
    exact ⟨i, hi.trans_le (hnode _), hlog w i hat⟩

/-- A new entry at the end. -/
theorem Sound.grow {s : State} (h : Sound s) (leader : LeaderId) (payload : EntryPayload)
    {writes : List Write} (hwrites : ∀ w ∈ writes, w.Ok
      { s with log := s.log ++ [nextEntry s.log leader payload] }) :
    Sound { s with log := s.log ++ [nextEntry s.log leader payload], writes } where
  numbered i e he := by
    rw [List.getElem?_append] at he
    split at he
    · exact h.numbered i e he
    · rw [List.getElem?_singleton] at he
      split at he
      · obtain rfl := Option.some.inj he
        simp only [nextEntry]
        omega
      · cases he
  within id := by
    have hle := h.within id
    simp only [List.length_append]
    omega
  replayed id := by
    rw [List.take_append_of_le_length (h.within id)]
    exact h.replayed id
  applied := h.applied
  writes := hwrites

/-- A node changes, but not its database. -/
theorem Sound.setNode {s : State} (h : Sound s) {id : RegistryNodeId} {node : Node}
    (hdb : node.store.db = (s.node id).store.db)
    (happlied : ∀ logId, node.lastApplied = some logId →
      logId.index < nextIndex (s.node id).store.db) : Sound (s.setNode id node) := by
  have hsame : ∀ id', ((s.setNode id node).node id').store.db = (s.node id').store.db := by
    intro id'
    by_cases hid : id' = id
    · rw [hid, setNode_self, hdb]
    · rw [setNode_of_ne s node hid]
  refine ⟨h.numbered, ?_, ?_, ?_, ?_⟩
  · intro id'
    rw [hsame]
    exact h.within id'
  · intro id'
    rw [hsame]
    exact h.replayed id'
  · intro id' logId hl
    rw [hsame]
    by_cases hid : id' = id
    · rw [hid, setNode_self] at hl
      rw [hid]
      exact happlied logId hl
    · rw [setNode_of_ne s node hid] at hl
      exact h.applied id' logId hl
  · intro w hw
    exact (h.writes w hw).mono (fun _ _ hat => hat) fun id' => by rw [hsame]

/-- The response that a write gets is the one for its entry. -/
theorem answer_ok {s s' : State} {id : RegistryNodeId} {first n : ℕ} {w : Write} (h : w.Ok s)
    (hnumbered : ∀ (i : ℕ) (e : Entry), s.log[i]? = some e → e.logId.index = i)
    (hlog : s'.log = s.log)
    (hnode : ∀ id, nextIndex (s.node id).store.db ≤ nextIndex (s'.node id).store.db) :
    (w.answer id first (((s.log.drop first).take n).map respond)).Ok s' := by
  have hold : w.Ok s' := h.mono (fun _ _ hat => by rwa [hlog]) hnode
  unfold Write.answer
  split
  case h_2 => exact hold
  case h_1 i hstage =>
    split
    case isFalse => exact hold
    case isTrue hvia =>
      split
      case h_2 => exact hold
      case h_1 data hdata =>
        obtain ⟨e, he, rfl⟩ : ∃ e, s.log[i]? = some e ∧ respond e = data := by
          rw [List.getElem?_map, Option.map_eq_some_iff] at hdata
          obtain ⟨e, he, hrespond⟩ := hdata
          rw [List.getElem?_take] at he
          split at he
          · rw [List.getElem?_drop, Nat.add_sub_cancel' hvia.2] at he
            exact ⟨e, he, hrespond⟩
          · cases he
        simp only [Write.Ok, hstage] at hold
        simp only [Write.Ok, respond_eq, hnumbered i e he]
        exact hold

theorem sound_step (s : State) (e : Event) (s' : State) (hs : Sound s) (h : step s e = some s') :
    Sound s' := by
  cases e with
  | submit caller via actions =>
    obtain rfl := Option.some.inj h
    refine ⟨hs.numbered, hs.within, hs.replayed, hs.applied, ?_⟩
    intro w hw
    rcases List.mem_append.mp hw with hw | hw
    · exact hs.writes w hw
    · rw [List.mem_singleton.mp hw]
      trivial
  | commit w leader =>
    obtain ⟨write, hwrite, h⟩ := Option.bind_eq_some_iff.mp h
    split at h
    case h_2 => cases h
    obtain rfl := Option.some.inj h
    refine hs.grow leader (.normal (.transaction write.actions)) ?_
    intro w' hw'
    rcases List.mem_or_eq_of_mem_set hw' with hw' | rfl
    · exact (hs.writes w' hw').mono (fun _ _ hat => hat.extend _) fun _ => le_rfl
    · exact ⟨nextEntry s.log leader (.normal (.transaction write.actions)), by simp, rfl⟩
  | commitOther leader payload =>
    obtain rfl := Option.some.inj h
    refine hs.grow leader payload ?_
    exact fun w hw => (hs.writes w hw).mono (fun _ _ hat => hat.extend _) fun _ => le_rfl
  | apply id n =>
    obtain ⟨⟨store, res⟩, happly, rfl⟩ := Option.map_eq_some_iff.mp h
    obtain ⟨-, hrun, -, rfl⟩ := applyToStateMachine_cases happly
    obtain ⟨hfaithful, hnext⟩ := faithful_batch hs.numbered
      (w := ⟨(s.node id).store.db, s.log.take (nextIndex (s.node id).store.db)⟩)
      ⟨rfl, hs.replayed id⟩ hrun
    have hnode : ∀ id', nextIndex (s.node id').store.db ≤
        nextIndex ((s.setNode id { s.node id with store }).node id').store.db := by
      intro id'
      by_cases hid : id' = id
      · have hle := hs.within id
        rw [hid, setNode_self]
        simp only [hnext]
        omega
      · rw [setNode_of_ne s _ hid]
    refine ⟨hs.numbered, ?_, ?_, ?_, ?_⟩
    · intro id'
      by_cases hid : id' = id
      · rw [hid]
        simp only [setNode_self, hnext]
        exact min_le_right _ _
      · simp only [setNode_of_ne s _ hid]
        exact hs.within id'
    · intro id'
      by_cases hid : id' = id
      · rw [hid]
        simp only [setNode_self]
        exact (congrArg replay hfaithful.effects).symm.trans hfaithful.replayed
      · simp only [setNode_of_ne s _ hid]
        exact hs.replayed id'
    · intro id' logId hl
      refine lt_of_lt_of_le (hs.applied id' logId ?_) (hnode id')
      by_cases hid : id' = id
      · rw [hid] at hl ⊢
        simpa only [setNode_self] using hl
      · simpa only [setNode_of_ne s _ hid] using hl
    · intro w' hw'
      obtain ⟨w, hw, rfl⟩ := List.mem_map.mp hw'
      exact answer_ok (hs.writes w hw) hs.numbered rfl hnode
  | publish id =>
    obtain rfl := Option.some.inj h
    refine hs.setNode rfl ?_
    intro logId hl
    simp only at hl
    simp only [nextIndex, hl]
    omega
  | touch id stateMachine =>
    obtain rfl := Option.some.inj h
    exact hs.setNode rfl (hs.applied id)
  | restart id =>
    obtain rfl := Option.some.inj h
    exact hs.setNode rfl (by simp)
  | finish w =>
    obtain ⟨write, hwrite, h⟩ := Option.bind_eq_some_iff.mp h
    split at h
    case h_2 => cases h
    case h_1 data applied hstage happlied =>
      split at h
      case isFalse => cases h
      case isTrue hle =>
        obtain rfl := Option.some.inj h
        refine ⟨hs.numbered, hs.within, hs.replayed, hs.applied, ?_⟩
        intro w' hw'
        rcases List.mem_or_eq_of_mem_set hw' with hw' | rfl
        · exact hs.writes w' hw'
        · have hok := hs.writes write (List.mem_of_getElem? hwrite)
          simp only [Write.Ok, hstage] at hok
          have hlt := hs.applied write.caller applied happlied
          exact ⟨data.value, lt_of_le_of_lt hle hlt, hok⟩

theorem sound_init : Sound system.init := by
  refine ⟨by simp [system], ?_, ?_, by simp [system], by simp [system]⟩
  · intro id
    rfl
  · intro id
    rfl

end Writing

/-- `apply_to_state_machine` gets to its end when no entry panics and no request that waits for what
    the batch stores here has been cancelled. -/
theorem applyToStateMachine_isSome {st : RegistryStore} {entries : List Entry}
    (hrun : (replica.run st.db entries).isSome)
    (halive : ∀ k, ∀ d ∈ announced st.id k (actionsOf entries),
      ∀ w ∈ st.stateMachine.senders k d, w.alive) : (st.applyToStateMachine entries).isSome := by
  obtain ⟨db, hdb⟩ := Option.isSome_iff_exists.mp hrun
  obtain ⟨sm, hsm⟩ := Option.isSome_iff_exists.mp
    (bookkeeping_isSome_of_alive st.id db.toTrees halive)
  simp [RegistryStore.applyToStateMachine, transaction_eq, hdb, hsm]

open Writing in
/-- READ YOUR OWN WRITES: for every batch of entries of any payloads, `apply_to_state_machine`
    returns one response for each entry, in order, with the index of the entry (it returns if no
    entry panics and no request that waits for an object of the batch has been cancelled); and in
    every state of every run, the node on which a `consistent_write` has returned `true` holds the
    replay of a prefix of the log that has the transaction of the write in it. -/
theorem read_your_writes :
    (∀ (st : RegistryStore) (entries : List Entry),
      (∀ st' res, st.applyToStateMachine entries = some (st', res) →
        res = entries.map fun e => ⟨e.logId.index⟩) ∧
      ((replica.run st.db entries).isSome → (∀ k, ∀ d ∈ announced st.id k (actionsOf entries),
        ∀ w ∈ st.stateMachine.senders k d, w.alive) → (st.applyToStateMachine entries).isSome)) ∧
    ∀ (es : List Writing.Event) (s : Writing.State), system.run system.init es = some s →
      ∀ w ∈ s.writes, w.stage = .returned →
        ∃ k, replay (s.log.take k) = some (s.node w.caller).store.db ∧
          ∃ i < k, ∃ e, s.log[i]? = some e ∧ e.payload = .normal (.transaction w.actions) := by
  constructor
  · intro st entries
    refine ⟨?_, applyToStateMachine_isSome⟩
    intro st' res h
    obtain ⟨-, -, -, rfl⟩ := applyToStateMachine_cases h
    exact List.map_congr_left fun e _ => respond_eq e
  · intro es s h w hw hstage
    have hsound := system.run_inv sound_step sound_init h
    have hok := hsound.writes w hw
    simp only [Write.Ok, hstage] at hok
    exact ⟨_, hsound.replayed w.caller, hok⟩

/-- An upload on node 1, which is not the leader: node 2 commits and answers it, and node 1 waits
    until it has applied the entry itself. -/
def Writing.forwardedRun : List Writing.Event :=
  [.commitOther ⟨1, 2⟩ (.membership twoNodes),
   .submit 1 2 (uploadActions (ticking 10) 1 ⟨"library/a"⟩ helloDigest 12 "alice"),
   .commit 0 ⟨1, 2⟩, .commitOther ⟨1, 2⟩ .blank, .apply 2 3, .publish 2, .apply 1 1, .publish 1,
   .apply 1 1, .publish 1, .finish 0]

open Writing in
/-- When the forwarded write returns, node 1 has not applied the whole log, but a prefix with the
    upload in it. -/
theorem read_your_writes_forwardedRun :
    ∃ s w, system.run system.init forwardedRun = some s ∧ s.writes = [w] ∧ w.caller = 1 ∧
      nextIndex (s.node 1).store.db = 2 ∧ s.log.length = 3 ∧
      ∃ k, replay (s.log.take k) = some (s.node 1).store.db ∧
        ∃ i < k, ∃ e, s.log[i]? = some e ∧ e.payload = .normal (.transaction w.actions) := by
  have hfacts : ((system.run system.init forwardedRun).bind fun s => (s.writes[0]?).map fun w =>
      decide (s.writes = [w] ∧ w.stage = .returned ∧ w.caller = 1 ∧
        nextIndex (s.node 1).store.db = 2 ∧ s.log.length = 3)) = some true := by
    decide +kernel
  simp only [Option.bind_eq_some_iff, Option.map_eq_some_iff, decide_eq_true_eq] at hfacts
  obtain ⟨s, h, w, -, hw, hstage, hcaller, hnext, hlen⟩ := hfacts
  have hprefix := read_your_writes.2 forwardedRun s h w (by rw [hw]; simp) hstage
  rw [hcaller] at hprefix
  exact ⟨s, w, h, hw, hcaller, hnext, hlen, hprefix⟩

end Distribd.Cluster
