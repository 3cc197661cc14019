import Distribd.Schemes.Watch
import Distribd.Store.Install

/-! The mirror worker and the channels it listens to (`store/mod.rs`, `mirror.rs`). The state
    machine owns two watch channels with the digests that this node still has to download. Each loop
    of `do_miroring` subscribes to one of them when the process starts and keeps that receiver for
    good. `apply_to_state_machine` sends every new set down the same channels. `install_snapshot`
    does not: it puts a new state machine with channels of its own in the place of the old one,
    whose senders are dropped with it. From then on the loops watch channels that nobody will ever
    write to, and the next wait for a change tells them to stop (`worker_follows_iff`). -/

namespace Distribd.Store
open Schemes

variable {Bytes : Type*}

/-! ### A node with its worker -/

/-- A running node: the store, the channels of the process, the senders that the state machine holds
    and the receivers of the two mirror loops. -/
structure MirroredNode (Bytes : Type*) where
  store : SnapshotStore Bytes
  channels : Channels (Finset Digest)
  sender : Kind → ℕ
  subscriber : Kind → Receiver

/-- The two channels that a new state machine comes with. -/
def freshChannels (cs : Channels (Finset Digest)) (sm : RegistryStateMachine) :
    Channels (Finset Digest) := (cs.create sm.pendingBlobs).create sm.pendingManifests

/-- The senders of these two channels. -/
def freshSender (cs : Channels (Finset Digest)) : Kind → ℕ
  | .blob => cs.length
  | .manifest => cs.length + 1

/-- The process starts, and the loops of `do_miroring` subscribe. -/
def MirroredNode.start (st : SnapshotStore Bytes) : MirroredNode Bytes where
  store := st.restart
  channels := freshChannels [] st.restart.store.stateMachine
  sender := freshSender []
  subscriber k := (freshChannels [] st.restart.store.stateMachine).subscribe (freshSender [] k)

/-- The two `send_replace` at the end of `apply_to_state_machine`. -/
def MirroredNode.publish (n : MirroredNode Bytes) (sm : RegistryStateMachine) :
    Channels (Finset Digest) :=
  (n.channels.sendReplace (n.sender .blob) sm.pendingBlobs).sendReplace (n.sender .manifest)
    sm.pendingManifests

/-- An install replaces the state machine: its document decodes and the five writes of
    `from_serializable` succeed. -/
def replacesStateMachine (codec : SnapshotCodec Bytes) (snapshot : RegistrySnapshot Bytes)
    (writes : ℕ) : Bool := (codec.fromSlice snapshot.data).isSome && decide (5 ≤ writes)

/-- What happens to a running node. -/
inductive MirroredEvent (Bytes : Type*) where
  /-- `apply_to_state_machine` completes. -/
  | batch (entries : List Entry)
  /-- `install_snapshot` makes this many of its six durable writes, and then fails or is done. -/
  | install (snapshot : RegistrySnapshot Bytes) (writes : ℕ)
  /-- A mirror loop takes up the current set (`borrow_and_update`). -/
  | look (kind : Kind)

/-- One event. -/
def mirroredStep (codec : SnapshotCodec Bytes) (n : MirroredNode Bytes) :
    MirroredEvent Bytes → Option (MirroredNode Bytes)
  | .batch entries =>
    (n.store.store.applyToStateMachine entries).map fun (st, _) =>
      { n with store := { n.store with store := st }, channels := n.publish st.stateMachine }
  | .install snapshot writes =>
    let store := n.store.installUpTo codec snapshot writes
    if replacesStateMachine codec snapshot writes then
      -- the new state machine is assigned, and the old one is dropped with its senders
      some { n with
        store
        channels := ((freshChannels n.channels store.store.stateMachine).dropSender
          (n.sender .blob)).dropSender (n.sender .manifest)
        sender := freshSender n.channels }
    else some { n with store }
  | .look kind =>
    some { n with subscriber := fun k =>
      if k = kind then n.channels.subscribe (n.subscriber k).channel else n.subscriber k }

/-- A node from its start on. -/
def mirroredNode (codec : SnapshotCodec Bytes) (st : SnapshotStore Bytes) :
    Machine (MirroredNode Bytes) (MirroredEvent Bytes) := ⟨.start st, mirroredStep codec⟩

/-- `MirrorState`. -/
inductive MirrorState where | changed | timeout | close
  deriving DecidableEq, Repr

/-- `wait_for_change`; `none`: it goes on waiting. -/
def MirroredNode.waitForChange (n : MirroredNode Bytes) (k : Kind) : Option MirrorState :=
  match n.channels.changed (n.subscriber k) with
  | .changed => some .changed
  | .closed => some .close
  | .pending => none

/-- The loop of a kind sees the pending set of the store, and its channel is open. -/
def MirroredNode.Follows (n : MirroredNode Bytes) (k : Kind) : Prop :=
  n.channels.borrow (n.subscriber k).channel = some (n.store.store.stateMachine.pending k) ∧
    n.channels.isOpen (n.subscriber k).channel

/-! ### Senders and receivers -/

/-- The senders of the state machine: two open channels with the pending sets. A loop listens to one
    of them or to a channel that is closed. -/
structure MirroredNode.Wired (n : MirroredNode Bytes) : Prop where
  distinct : n.sender .blob ≠ n.sender .manifest
  isOpen : ∀ k, n.channels.isOpen (n.sender k)
  value : ∀ k, n.channels.borrow (n.sender k) = some (n.store.store.stateMachine.pending k)
  known : ∀ k, (n.subscriber k).channel < n.channels.length
  subscriber : ∀ k, n.channels.isOpen (n.subscriber k).channel →
    (n.subscriber k).channel = n.sender k

theorem freshChannels_length (cs : Channels (Finset Digest)) (sm : RegistryStateMachine) :
    (freshChannels cs sm).length = cs.length + 2 := by
  simp [freshChannels, Channels.create]

theorem freshChannels_borrow (cs : Channels (Finset Digest)) (sm : RegistryStateMachine)
    (k : Kind) : (freshChannels cs sm).borrow (freshSender cs k) = some (sm.pending k) := by
  have hlen : (cs.create sm.pendingBlobs).length = cs.length + 1 := by simp [Channels.create]
  cases k with
  | blob =>
    rw [freshChannels, freshSender, Channels.borrow_create, hlen, if_neg (by omega),
      Channels.borrow_create, if_pos rfl]
    rfl
  | manifest =>
    rw [freshChannels, freshSender, Channels.borrow_create, hlen, if_pos rfl]
    rfl

theorem freshChannels_isOpen {cs : Channels (Finset Digest)} {sm : RegistryStateMachine} {i : ℕ} :
    (freshChannels cs sm).isOpen i ↔ i = cs.length + 1 ∨ i = cs.length ∨ cs.isOpen i := by
  have hlen : (cs.create sm.pendingBlobs).length = cs.length + 1 := by simp [Channels.create]
  rw [freshChannels, Channels.isOpen_create, hlen, Channels.isOpen_create]

theorem wired_start (st : SnapshotStore Bytes) : (MirroredNode.start st).Wired where
  distinct := by simp [MirroredNode.start, freshSender]
  isOpen k := by
    rw [MirroredNode.start, freshChannels_isOpen]
    cases k <;> simp [freshSender]
  value k := freshChannels_borrow [] _ k
  known k := by cases k <;> simp [MirroredNode.start, Channels.subscribe, freshSender,
    freshChannels_length]
  subscriber k _ := rfl

/-- What a batch sends is what the senders then hold. -/
theorem publish_borrow {n : MirroredNode Bytes} (h : n.Wired) (sm : RegistryStateMachine)
    (k : Kind) : (n.publish sm).borrow (n.sender k) = some (sm.pending k) := by
  have hne := h.distinct
  rw [MirroredNode.publish, Channels.borrow_sendReplace, Channels.borrow_sendReplace]
  cases k with
  | blob =>
    rw [if_neg hne.symm, if_pos rfl, h.value]
    rfl
  | manifest =>
    rw [if_pos rfl, if_neg hne, h.value]
    rfl

theorem wired_batch {n : MirroredNode Bytes} (h : n.Wired) (st : RegistryStore) :
    ({ n with store := { n.store with store := st },
              channels := n.publish st.stateMachine } : MirroredNode Bytes).Wired where
  distinct := h.distinct
  isOpen k := by simpa [MirroredNode.publish] using h.isOpen k
  value k := publish_borrow h st.stateMachine k
  known k := by simpa [MirroredNode.publish, Channels.sendReplace] using h.known k
  subscriber k hk := h.subscriber k (by simpa [MirroredNode.publish] using hk)

/-- After a replacement no loop listens to an open channel. -/
theorem replaced_closed {n : MirroredNode Bytes} (h : n.Wired) (sm : RegistryStateMachine)
    (k : Kind) :
    ¬ (((freshChannels n.channels sm).dropSender (n.sender .blob)).dropSender
      (n.sender .manifest)).isOpen (n.subscriber k).channel := by
  rw [Channels.isOpen_dropSender, Channels.isOpen_dropSender, freshChannels_isOpen]
  rintro ⟨hm, hb, hlast | hlast | hopen⟩
  · have := h.known k
    omega
  · have := h.known k
    omega
  · have hsame := h.subscriber k hopen
    cases k with
    | blob => exact hb hsame.symm
    | manifest => exact hm hsame.symm

theorem wired_replace {n : MirroredNode Bytes} (h : n.Wired) (store : SnapshotStore Bytes) :
    ({ n with
        store
        channels := ((freshChannels n.channels store.store.stateMachine).dropSender
          (n.sender .blob)).dropSender (n.sender .manifest)
        sender := freshSender n.channels } : MirroredNode Bytes).Wired where
  distinct := by simp [freshSender]
  isOpen k := by
    have hb := Channels.lt_of_isOpen (h.isOpen .blob)
    have hm := Channels.lt_of_isOpen (h.isOpen .manifest)
    rw [Channels.isOpen_dropSender, Channels.isOpen_dropSender, freshChannels_isOpen]
    cases k with
    | blob =>
      refine ⟨?_, ?_, .inr (.inl rfl)⟩
      · simp only [freshSender]
        omega
      · simp only [freshSender]
        omega
    | manifest =>
      refine ⟨?_, ?_, .inl rfl⟩
      · simp only [freshSender]
        omega
      · simp only [freshSender]
        omega
  value k := by
    rw [Channels.borrow_dropSender, Channels.borrow_dropSender]
    exact freshChannels_borrow _ _ k
  known k := by
    have hk := h.known k
    simp only [Channels.dropSender, List.length_modify, freshChannels_length]
    omega
  subscriber k hk := absurd hk (replaced_closed h _ k)

/-- An install that does not get to the replacement leaves the pending sets alone. -/
theorem installUpTo_pending {codec : SnapshotCodec Bytes} (st : SnapshotStore Bytes)
    {snapshot : RegistrySnapshot Bytes} {writes : ℕ}
    (h : ¬ replacesStateMachine codec snapshot writes) :
    (st.installUpTo codec snapshot writes).store.stateMachine = st.store.stateMachine := by
  unfold SnapshotStore.installUpTo
  split
  case h_1 => rfl
  case h_2 sm hsm =>
    have hlt : writes < 5 := by simpa [replacesStateMachine, hsm] using h
    have hlen : ¬ (installWrites sm).length ≤ writes := by simpa [installWrites] using hlt
    simp only [if_neg hlen]

/-- The event replaces the state machine. -/
def Replaces (codec : SnapshotCodec Bytes) : MirroredEvent Bytes → Prop
  | .install snapshot writes => replacesStateMachine codec snapshot writes = true
  | _ => False

/-- Everything one event does to the wiring. -/
theorem wired_step {codec : SnapshotCodec Bytes} {n n' : MirroredNode Bytes}
    {e : MirroredEvent Bytes} (h : n.Wired) (hs : mirroredStep codec n e = some n') :
    n'.Wired ∧ (∀ k, (n'.subscriber k).channel = (n.subscriber k).channel) ∧
      (¬ Replaces codec e → n'.sender = n.sender) ∧
      (Replaces codec e → ∀ k, ¬ n'.channels.isOpen (n'.subscriber k).channel) := by
  cases e with
  | batch entries =>
    obtain ⟨⟨st, res⟩, -, rfl⟩ := Option.map_eq_some_iff.mp hs
    exact ⟨wired_batch h st, fun _ => rfl, fun _ => rfl, fun hr => hr.elim⟩
  | install snapshot writes =>
    simp only [mirroredStep] at hs
    split at hs
    case isTrue hr =>
      obtain rfl := Option.some.inj hs
      exact ⟨wired_replace h _, fun _ => rfl, fun hn => absurd hr hn, fun _ => replaced_closed h _⟩
    case isFalse hr =>
      obtain rfl := Option.some.inj hs
      refine ⟨⟨h.distinct, h.isOpen, ?_, h.known, h.subscriber⟩, fun _ => rfl, fun _ => rfl,
        fun hr' => absurd hr' hr⟩
      intro k
      have hsame := installUpTo_pending n.store hr
      simpa only [hsame] using h.value k
  | look kind =>
    obtain rfl := Option.some.inj hs
    have hchannel : ∀ k, (if k = kind then n.channels.subscribe (n.subscriber k).channel
        else n.subscriber k).channel = (n.subscriber k).channel := by
      intro k
      split <;> rfl
    refine ⟨⟨h.distinct, h.isOpen, h.value, ?_, ?_⟩, hchannel, fun _ => rfl, fun hr => hr.elim⟩
    · intro k
      rw [hchannel k]
      exact h.known k
    · intro k
      rw [hchannel k]
      exact h.subscriber k

theorem MirroredNode.Wired.follows {n : MirroredNode Bytes} (h : n.Wired) {k : Kind}
    (hk : (n.subscriber k).channel = n.sender k) : n.Follows k := by
  refine ⟨?_, ?_⟩
  · rw [hk]
    exact h.value k
  · rw [hk]
    exact h.isOpen k

/-! ### Runs -/

theorem run_wired {codec : SnapshotCodec Bytes} {st : SnapshotStore Bytes}
    {es : List (MirroredEvent Bytes)} {n : MirroredNode Bytes}
    (h : (mirroredNode codec st).run (.start st) es = some n) : n.Wired :=
  (mirroredNode codec st).run_inv (fun _ _ _ hw hs => (wired_step hw hs).1) (wired_start st) h

/-- A run without replacements keeps every loop on the channel of the store. -/
theorem run_listens {codec : SnapshotCodec Bytes} {st : SnapshotStore Bytes}
    {es : List (MirroredEvent Bytes)} {n : MirroredNode Bytes}
    (h : (mirroredNode codec st).run (.start st) es = some n)
    (hes : ∀ e ∈ es, ¬ Replaces codec e) : ∀ k, (n.subscriber k).channel = n.sender k := by
  induction es using List.reverseRecOn generalizing n with
  | nil =>
    obtain rfl := Option.some.inj h
    exact fun _ => rfl
  | append_singleton es e ih =>
    obtain ⟨m, hm, hstep⟩ := (mirroredNode codec st).run_snoc_some h
    have hrest := ih hm fun f hf => hes f (List.mem_append_left _ hf)
    obtain ⟨-, hsub, hsend, -⟩ := wired_step (run_wired hm) hstep
    intro k
    rw [hsub k, hrest k, hsend (hes e (List.mem_append_right _ (List.mem_singleton_self e)))]

/-- THE WORKER FOLLOWS, exactly: over a whole run of a node, after every event each mirror loop sees
    the current pending set of the store on a channel that is open, if and only if no install of the
    run replaces the state machine. -/
theorem worker_follows_iff (codec : SnapshotCodec Bytes) (st : SnapshotStore Bytes)
    (es : List (MirroredEvent Bytes)) (n : MirroredNode Bytes)
    (h : (mirroredNode codec st).run (.start st) es = some n) :
    (∀ xs ys m, es = xs ++ ys → (mirroredNode codec st).run (.start st) xs = some m →
      ∀ k, m.Follows k) ↔
    ∀ e ∈ es, ¬ Replaces codec e := by
  constructor
  · intro hall e he hr
    obtain ⟨xs, ys, rfl⟩ := List.append_of_mem he
    have hcut : xs ++ e :: ys = (xs ++ [e]) ++ ys := by simp
    rw [hcut] at h
    obtain ⟨m, hm, -⟩ := (mirroredNode codec st).run_append_some h
    obtain ⟨m₀, hm₀, hstep⟩ := (mirroredNode codec st).run_snoc_some hm
    obtain ⟨-, -, -, hclosed⟩ := wired_step (run_wired hm₀) hstep
    exact hclosed hr .blob (hall (xs ++ [e]) ys m hcut hm .blob).2
  · rintro hes xs ys m rfl hm k
    have hxs : ∀ e ∈ xs, ¬ Replaces codec e := fun e he => hes e (List.mem_append_left _ he)
    exact (run_wired hm).follows (run_listens hm hxs k)

/-- A batch and a look: node 1 applies the upload of node 2 and its blob loop takes it up. -/
theorem worker_follows_iff_uploadOnTwo :
    ∃ n, (mirroredNode plainCodec (storeAfter 1 [])).run (.start (storeAfter 1 []))
        [.batch [uploadOnTwo], .look .blob] = some n ∧ n.Follows .blob := by
  obtain ⟨n, h⟩ := Option.isSome_iff_exists.mp
    (show ((mirroredNode plainCodec (storeAfter 1 [])).run (.start (storeAfter 1 []))
      [.batch [uploadOnTwo], .look .blob]).isSome by decide)
  refine ⟨n, h, (worker_follows_iff plainCodec _ _ n h).mpr ?_ _ [] n (List.append_nil _).symm h
    .blob⟩
  intro e he
  rcases List.mem_cons.mp he with rfl | he
  · exact id
  · rcases List.mem_cons.mp he with rfl | he
    · exact id
    · cases he

/-- Node 1 is new and installs the snapshot of node 2: the store has the blob of node 2 to download,
    the blob loop still sees nothing to do, and its next wait tells it to stop. -/
theorem worker_stops_uploadOnTwo :
    ∃ n, (mirroredNode plainCodec (storeAfter 1 [])).run (.start (storeAfter 1 []))
        [.install ((storeAfter 2 [uploadOnTwo]).buildSnapshot plainCodec).2 6] = some n ∧
      n.store.store.stateMachine.pending .blob = {helloDigest} ∧
      n.channels.borrow (n.subscriber .blob).channel = some ∅ ∧
      n.channels.isOpen (n.subscriber .blob).channel = false ∧
      n.waitForChange .blob = some .close ∧ ¬ n.Follows .blob := by
  refine ⟨_, rfl, by decide +kernel, by decide +kernel, by decide, by decide, ?_⟩
  rintro ⟨-, hopen⟩
  revert hopen
  decide

end Distribd.Store
