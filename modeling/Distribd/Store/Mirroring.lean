import Distribd.Store.Subscribers

/-! The two loops of `do_miroring` (`mirror.rs`), which are the same but for the kind of object. A
    loop waits in `join_next` for a change of its channel or for a timer, takes up the current set of
    pending digests, tries to download each of them, and waits again. A download that fails is tried
    again when the timer fires. The timer is started before the loop if the first set is not empty,
    and after that only when a timer has fired on a set that is not empty: once it is lost it never
    comes back, and a set that arrives with a change is then tried once. A loop whose timer is armed
    whenever a change brings it work always parks with a retry ahead (`retry_armed`). -/

namespace Distribd.Store
open Schemes

variable {Bytes : Type*}

/-! ### One transfer -/

/-- `MirrorResult`. -/
inductive MirrorResult where
  | retry
  | success (action : RegistryAction)
  | none
  deriving DecidableEq

/-- `MirrorRequest::success`: the action that announces the download. -/
def storedAction (kind : Kind) (timestamp : DateTime) (digest : Digest)
    (location : RegistryNodeId) : RegistryAction :=
  match kind with
  | .blob => .blobStored timestamp digest location "$internal"
  | .manifest => .manifestStored timestamp digest location "$internal"

/-- `do_transfer` on node `id`. `fetched` says whether the request to the member that was picked
    succeeds, all of the body arrives and is on disk, has the right digest and is renamed into
    place; every failure on the way is a `Retry`. -/
def doTransfer (id : RegistryNodeId) (db : Db) (kind : Kind) (digest : Digest) (now : DateTime)
    (fetched : Bool) : MirrorResult :=
  match (db.tree kind)[digest]? with
  | some object =>
    if id ∈ object.locations then .none
    else if object.locations = ∅ then .none
    -- no member of the cluster has it: `urls.choose` finds nothing
    else if ∀ nid ∈ db.getLastMembership.membership.nodes.keys, nid ∉ object.locations then .none
    else if fetched then .success (storedAction kind now digest id)
    else .retry
  | none => .none

/-! ### The loops -/

/-- The tasks in the `JoinSet` of a loop. -/
inductive MirrorTask where
  | waitForChange (subscriber : Receiver)
  | waitForTime
  deriving DecidableEq

/-- Where a loop is. -/
inductive LoopPoint where
  /-- `do_miroring` has spawned it, and it has not run yet. -/
  | spawned
  /-- It waits in `join_next`. -/
  | joinNext
  /-- It was woken by `state` and has these digests of the set left to do. -/
  | transferring (state : MirrorState) (left : Finset Digest)
  /-- It has left its loop. -/
  | ended
  deriving DecidableEq

/-- The locals of a loop, and the calls of `submit_write` it has made with what they returned. -/
structure MirrorLoop where
  pending : Finset Digest
  waiters : List MirrorTask
  point : LoopPoint
  submitted : List (RegistryAction × Bool)
  deriving DecidableEq

/-- A node and its two loops. -/
structure Mirroring (Bytes : Type*) where
  node : MirroredNode Bytes
  loop : Kind → MirrorLoop

namespace Mirroring

/-- The value of the channel that the loop of a kind listens to. -/
def current (m : Mirroring Bytes) (k : Kind) : Finset Digest :=
  (m.node.channels.borrow (m.node.subscriber k).channel).getD ∅

/-- The loop of one kind changes. -/
def setLoop (m : Mirroring Bytes) (k : Kind) (l : MirrorLoop) : Mirroring Bytes :=
  { m with loop := fun k' => if k' = k then l else m.loop k' }

/-- `subscriber.borrow_and_update()`. -/
def look (m : Mirroring Bytes) (k : Kind) : Mirroring Bytes :=
  { m with node.subscriber := fun k' =>
      if k' = k then m.node.channels.subscribe (m.node.subscriber k').channel
      else m.node.subscriber k' }

/-- What the loop does before its first `join_next`; it subscribes to the channel of the state
    machine of that moment. -/
def start (m : Mirroring Bytes) (k : Kind) : Mirroring Bytes :=
  let receiver := m.node.channels.subscribe (m.node.sender k)
  let subscriber := fun k' => if k' = k then receiver else m.node.subscriber k'
  let m : Mirroring Bytes := { m with node.subscriber := subscriber }
  let timer := if m.current k = ∅ then [] else [.waitForTime]
  m.setLoop k { m.loop k with
    pending := m.current k, waiters := .waitForChange receiver :: timer, point := .joinNext }

/-- What a task returns, if it can be done: a timer may fire at any time. -/
def result (m : Mirroring Bytes) : MirrorTask → Option MirrorState
  | .waitForTime => some .timeout
  | .waitForChange subscriber =>
    match m.node.channels.changed subscriber with
    | .changed => some .changed
    | .closed => some .close
    | .pending => none

/-- The end of a turn of the loop: the task that was joined is started again, a timer only if there
    was something to do. -/
def rearm (m : Mirroring Bytes) (k : Kind) (state : MirrorState) : Mirroring Bytes :=
  let l := m.loop k
  let again := match state with
    | .changed => [.waitForChange (m.node.subscriber k)]
    | .timeout => if l.pending = ∅ then [] else [.waitForTime]
    | .close => []
  m.setLoop k { l with waiters := l.waiters ++ again, point := .joinNext }

/-- The rest of a turn: the next transfer, or `join_next`. -/
def proceed (m : Mirroring Bytes) (k : Kind) (state : MirrorState) (left : Finset Digest) :
    Mirroring Bytes :=
  if left = ∅ then m.rearm k state
  else m.setLoop k { m.loop k with point := .transferring state left }

/-- `join_next` returns the task at place `i`. -/
def join (m : Mirroring Bytes) (k : Kind) (i : ℕ) : Option (Mirroring Bytes) :=
  match (m.loop k).point, (m.loop k).waiters[i]? with
  | .joinNext, some task =>
    let joined := { m.loop k with waiters := (m.loop k).waiters.eraseIdx i }
    match m.result task with
    | some .close => some (m.setLoop k { joined with point := .ended })
    | some state =>
      let pending := m.current k
      some (((m.look k).setLoop k { joined with pending }).proceed k state pending)
    | none => none
  | _, _ => none

/-- The transfer of one digest of the set, in whatever order the set is iterated; `logged` is the
    answer of `submit_write`. -/
def transfer (m : Mirroring Bytes) (k : Kind) (digest : Digest) (now : DateTime)
    (fetched logged : Bool) : Option (Mirroring Bytes) :=
  match (m.loop k).point with
  | .transferring state left =>
    if digest ∈ left then
      let store := m.node.store.store
      let submitted := match doTransfer store.id store.db k digest now fetched with
        | .success action => [(action, logged)]
        | _ => []
      let l := m.loop k
      some ((m.setLoop k { l with submitted := l.submitted ++ submitted }).proceed k state
        (left.erase digest))
    else none
  | _ => none

end Mirroring

/-- What happens to a node with its loops. -/
inductive MirroringEvent (Bytes : Type*) where
  /-- `apply_to_state_machine` completes. -/
  | batch (entries : List Entry)
  /-- `install_snapshot` makes this many of its durable writes. -/
  | install (snapshot : RegistrySnapshot Bytes) (writes : ℕ)
  /-- A loop begins. -/
  | begin (kind : Kind)
  /-- `join_next` of a loop returns a task. -/
  | join (kind : Kind) (task : ℕ)
  /-- A loop is done with one digest of its set. -/
  | transfer (kind : Kind) (digest : Digest) (now : DateTime) (fetched logged : Bool)

/-- One event. -/
def mirroringStep (codec : SnapshotCodec Bytes) (m : Mirroring Bytes) :
    MirroringEvent Bytes → Option (Mirroring Bytes)
  | .batch entries => (mirroredStep codec m.node (.batch entries)).map ({ m with node := · })
  | .install snapshot writes =>
    (mirroredStep codec m.node (.install snapshot writes)).map ({ m with node := · })
  | .begin k => if (m.loop k).point = .spawned then some (m.start k) else none
  | .join k i => m.join k i
  | .transfer k digest now fetched logged => m.transfer k digest now fetched logged

/-- A node from its start on, with its loops. -/
def mirroring (codec : SnapshotCodec Bytes) (st : SnapshotStore Bytes) :
    Machine (Mirroring Bytes) (MirroringEvent Bytes) where
  init := ⟨.start st, fun _ => ⟨∅, [], .spawned, []⟩⟩
  step := mirroringStep codec

/-! ### A loop that waits -/

/-- The node still needs the object: it is stored somewhere, but not here. -/
def StillNeeded (m : Mirroring Bytes) (k : Kind) (d : Digest) : Prop :=
  ∃ o ∈ (m.node.store.store.db.tree k)[d]?, needs m.node.store.store.id o = true

instance (m : Mirroring Bytes) (k : Kind) (d : Digest) : Decidable (StillNeeded m k d) :=
  inferInstanceAs (Decidable (∃ o ∈ (m.node.store.store.db.tree k)[d]?,
    needs m.node.store.store.id o = true))

/-- A loop in `join_next` that has something left to do from its last set has a timer. -/
def RetryArmed (m : Mirroring Bytes) (k : Kind) : Prop :=
  (m.loop k).point = .joinNext → (∃ d ∈ (m.loop k).pending, StillNeeded m k d) →
    .waitForTime ∈ (m.loop k).waiters

/-- The condition: a change that brings work finds a timer armed. -/
def Timed (m : Mirroring Bytes) : MirroringEvent Bytes → Prop
  | .join k i => ∀ task ∈ (m.loop k).waiters[i]?, m.result task = some .changed →
      m.current k ≠ ∅ → .waitForTime ∈ (m.loop k).waiters
  | _ => True

instance (m : Mirroring Bytes) : ∀ e, Decidable (Timed m e)
  | .join k i => inferInstanceAs (Decidable (∀ task ∈ (m.loop k).waiters[i]?,
      m.result task = some .changed → m.current k ≠ ∅ → .waitForTime ∈ (m.loop k).waiters))
  | .batch _ | .install _ _ | .begin _ | .transfer _ _ _ _ _ => isTrue trivial

/-- What carries the timer through a turn: a loop that a change has woken has it all along, a loop
    that a timer has woken has work, and so will start a new one. -/
def Ahead (l : MirrorLoop) : Prop :=
  match l.point with
  | .joinNext => l.pending ≠ ∅ → .waitForTime ∈ l.waiters
  | .transferring state _ =>
    state ≠ .close ∧ l.pending ≠ ∅ ∧ (state = .changed → .waitForTime ∈ l.waiters)
  | .spawned | .ended => True

namespace Mirroring

@[simp] theorem setLoop_loop (m : Mirroring Bytes) (k k' : Kind) (l : MirrorLoop) :
    (m.setLoop k l).loop k' = if k' = k then l else m.loop k' := rfl

/-- A loop changes, and the others stay ahead. -/
theorem ahead_setLoop {m : Mirroring Bytes} (h : ∀ k, Ahead (m.loop k)) {k : Kind} {l : MirrorLoop}
    (hl : Ahead l) : ∀ k', Ahead ((m.setLoop k l).loop k') := by
  intro k'
  rw [setLoop_loop]
  split
  · exact hl
  · exact h k'

/-- The rest of a turn, with a timer if a change began it. -/
theorem ahead_proceed {m : Mirroring Bytes} {k : Kind} {state : MirrorState} {left : Finset Digest}
    (h : ∀ k', k' ≠ k → Ahead (m.loop k')) (hclose : state ≠ .close)
    (hleft : left ≠ ∅ → (m.loop k).pending ≠ ∅)
    (hstate : state = .changed → (m.loop k).pending ≠ ∅ → .waitForTime ∈ (m.loop k).waiters) :
    ∀ k', Ahead ((m.proceed k state left).loop k') := by
  intro k'
  unfold proceed rearm
  split
  · rw [setLoop_loop]
    split
    · intro hwork
      cases state with
      | timeout => simp [if_neg hwork]
      | changed => exact List.mem_append_left _ (hstate rfl hwork)
      | close => exact absurd rfl hclose
    · rename_i hne
      exact h k' hne
  · rename_i hwork
    rw [setLoop_loop]
    split
    · exact ⟨hclose, hleft hwork, fun hc => hstate hc (hleft hwork)⟩
    · rename_i hne
      exact h k' hne

theorem ahead_join {m m' : Mirroring Bytes} {k : Kind} {i : ℕ} (h : ∀ k, Ahead (m.loop k))
    (htimed : Timed m (.join k i)) (hs : m.join k i = some m') : ∀ k, Ahead (m'.loop k) := by
  unfold join at hs
  split at hs
  case h_2 => cases hs
  case h_1 task _ htask =>
    split at hs
    · obtain rfl := Option.some.inj hs
      exact ahead_setLoop h trivial
    · rename_i state hclose hresult
      obtain rfl := Option.some.inj hs
      refine ahead_proceed ?_ hclose ?_ ?_
      · intro k' hne
        rw [setLoop_loop, if_neg hne]
        exact h k'
      · intro hwork
        rwa [setLoop_loop, if_pos rfl]
      · rintro rfl
        rw [setLoop_loop, if_pos rfl]
        intro hwork
        -- the task that was joined is not the timer
        have harmed := htimed task htask hresult hwork
        obtain ⟨j, hj⟩ := List.mem_iff_getElem?.mp harmed
        refine List.mem_eraseIdx_iff_getElem?.mpr ⟨j, ?_, hj⟩
        rintro rfl
        obtain rfl := Option.some.inj (htask.symm.trans hj)
        cases hresult
    · cases hs

theorem ahead_transfer {m m' : Mirroring Bytes} {k : Kind} {d : Digest} {now : DateTime}
    {fetched logged : Bool} (h : ∀ k, Ahead (m.loop k))
    (hs : m.transfer k d now fetched logged = some m') : ∀ k, Ahead (m'.loop k) := by
  unfold transfer at hs
  split at hs
  case h_2 => cases hs
  case h_1 state left hpoint =>
    obtain ⟨hclose, hpending, harmed⟩ : state ≠ .close ∧ (m.loop k).pending ≠ ∅ ∧
        (state = .changed → .waitForTime ∈ (m.loop k).waiters) := by
      simpa only [Ahead, hpoint] using h k
    split at hs
    · obtain rfl := Option.some.inj hs
      refine ahead_proceed ?_ hclose ?_ ?_
      · intro k' hne
        rw [setLoop_loop, if_neg hne]
        exact h k'
      · intro _
        rwa [setLoop_loop, if_pos rfl]
      · intro hc _
        rw [setLoop_loop, if_pos rfl]
        exact harmed hc
    · cases hs

theorem ahead_start {m : Mirroring Bytes} {k : Kind} (h : ∀ k, Ahead (m.loop k)) :
    ∀ k', Ahead ((m.start k).loop k') := by
  unfold start
  refine ahead_setLoop h ?_
  intro hwork
  simp [if_neg hwork]

end Mirroring

theorem ahead_step {codec : SnapshotCodec Bytes} {m m' : Mirroring Bytes} {e : MirroringEvent Bytes}
    (h : ∀ k, Ahead (m.loop k)) (htimed : Timed m e) (hs : mirroringStep codec m e = some m') :
    ∀ k, Ahead (m'.loop k) := by
  cases e with
  | batch entries =>
    obtain ⟨node, -, rfl⟩ := Option.map_eq_some_iff.mp hs
    exact h
  | install snapshot writes =>
    obtain ⟨node, -, rfl⟩ := Option.map_eq_some_iff.mp hs
    exact h
  | begin k =>
    simp only [mirroringStep] at hs
    split at hs
    · obtain rfl := Option.some.inj hs
      exact Mirroring.ahead_start h
    · cases hs
  | join k i => exact Mirroring.ahead_join h htimed hs
  | transfer k d now fetched logged => exact Mirroring.ahead_transfer h hs

/-- A RETRY IS AHEAD: in every state of a run in which a change that brings work always finds a timer
    armed, a loop that waits with something left to do has a timer armed. -/
theorem retry_armed {codec : SnapshotCodec Bytes} {st : SnapshotStore Bytes}
    {es : List (MirroringEvent Bytes)}
    (hes : (mirroring codec st).Meets Timed (mirroring codec st).init es) :
    ∀ xs ys m, es = xs ++ ys → (mirroring codec st).run (mirroring codec st).init xs = some m →
      ∀ k, RetryArmed m k := by
  rintro xs ys m rfl hm k hpoint ⟨d, hd, -⟩
  have hinit : ∀ k, Ahead ((mirroring codec st).init.loop k) := fun _ => trivial
  have hahead : ∀ k, Ahead (m.loop k) :=
    (mirroring codec st).run_inv_of_meets (I := fun m => ∀ k, Ahead (m.loop k))
      (fun _ _ _ => ahead_step) hinit (Machine.meets_of_append _ hes) hm
  have hk : (m.loop k).pending ≠ ∅ → .waitForTime ∈ (m.loop k).waiters := by
    simpa only [Ahead, hpoint] using hahead k
  exact hk (Finset.ne_empty_of_mem hd)

/-! ### A failed download, with and without a timer -/

/-- The cluster of nodes 1 and 2. -/
def twoMembers : Entry :=
  ⟨⟨⟨1, 2⟩, 0⟩, .membership ⟨[{1, 2}],
    Std.ExtTreeMap.empty.insert 1 ⟨"10.0.0.1:9080"⟩ |>.insert 2 ⟨"10.0.0.2:9080"⟩⟩⟩

/-- Node 1, with a blob of node 2 to download when it starts. -/
def behindOne : SnapshotStore SerializableRegistryStateMachine :=
  storeAfter 1 [twoMembers, uploadOnTwo]

/-- A second blob is uploaded on node 2. -/
def secondOnTwo : Entry :=
  ⟨⟨⟨1, 2⟩, 1⟩, .normal (.transaction
    [.blobMounted 13 emptyDigest ⟨"library/a"⟩ "alice", .blobStat 14 emptyDigest 0,
     .blobStored 15 emptyDigest 2 "alice"])⟩

/-- Node 1 starts with a timer. A change brings a second blob, and both downloads fail. -/
def timedRun : List (MirroringEvent SerializableRegistryStateMachine) :=
  [.begin .blob, .batch [secondOnTwo], .join .blob 0,
   .transfer .blob helloDigest 20 false false, .transfer .blob emptyDigest 21 false false]

theorem retry_armed_timedRun :
    ∃ m, (mirroring plainCodec behindOne).run (mirroring plainCodec behindOne).init timedRun =
        some m ∧ (m.loop .blob).point = .joinNext ∧
      (m.loop .blob).pending = {helloDigest, emptyDigest} ∧ StillNeeded m .blob helloDigest ∧
      .waitForTime ∈ (m.loop .blob).waiters := by
  have hfacts : ((mirroring plainCodec behindOne).run (mirroring plainCodec behindOne).init
      timedRun).map (fun m => decide ((m.loop .blob).point = .joinNext ∧
        (m.loop .blob).pending = {helloDigest, emptyDigest} ∧
        StillNeeded m .blob helloDigest)) = some true := by
    decide +kernel
  obtain ⟨m, hm, hmfacts⟩ := Option.map_eq_some_iff.mp hfacts
  obtain ⟨hpoint, hpending, hneeded⟩ := of_decide_eq_true hmfacts
  have hmeets : (mirroring plainCodec behindOne).Meets Timed
      (mirroring plainCodec behindOne).init timedRun := by decide +kernel
  have hmem : helloDigest ∈ (m.loop .blob).pending := by
    rw [hpending]
    exact Finset.mem_insert_self _ _
  exact ⟨m, hm, hpoint, hpending, hneeded, retry_armed hmeets timedRun [] m
    (List.append_nil _).symm hm .blob hpoint ⟨helloDigest, hmem, hneeded⟩⟩

/-- Node 1 starts with nothing to do, and so without a timer. Then the blob is uploaded to node 2,
    and the download fails. -/
def untimedRun : List (MirroringEvent SerializableRegistryStateMachine) :=
  [.begin .blob, .batch [twoMembers, uploadOnTwo], .join .blob 0,
   .transfer .blob helloDigest 20 false false]

/-- The loop waits for the next change of the registry, with the blob still to download. -/
theorem untimedRun_idle :
    ∃ m, (mirroring plainCodec (storeAfter 1 [])).run (mirroring plainCodec (storeAfter 1 [])).init
        untimedRun = some m ∧ (m.loop .blob).pending = {helloDigest} ∧ ¬ RetryArmed m .blob := by
  have hfacts : ((mirroring plainCodec (storeAfter 1 [])).run
      (mirroring plainCodec (storeAfter 1 [])).init untimedRun).map (fun m => decide (
        (m.loop .blob).point = .joinNext ∧ (m.loop .blob).pending = {helloDigest} ∧
        StillNeeded m .blob helloDigest ∧ .waitForTime ∉ (m.loop .blob).waiters)) = some true := by
    decide +kernel
  obtain ⟨m, hm, hmfacts⟩ := Option.map_eq_some_iff.mp hfacts
  obtain ⟨hpoint, hpending, hneeded, hno⟩ := of_decide_eq_true hmfacts
  refine ⟨m, hm, hpending, fun harmed => hno (harmed hpoint ⟨helloDigest, ?_, hneeded⟩)⟩
  rw [hpending]
  exact Finset.mem_singleton_self _

end Distribd.Store
