import Distribd.Cluster.Fixpoint

/-! The collector at work (`do_garbage_collect`, `garbage.rs`). Every node goes through the same loop:
    a turn of the leader is a phase 1 and a phase 2, a turn of a follower is a phase 2, and the other
    nodes do nothing. How many turns does a quiet cluster need until the garbage is gone?

    One turn of the leader and one of every voter after it are not enough: what the untagged
    manifests still name is not orphaned before they have gone. Two of each are, in whatever order
    the voters take them, and they take nothing else: what is left are the tagged manifests and the
    blobs below them, as they were (`two_rounds`). -/

namespace Distribd.Cluster
open Schemes Store

/-! ### Turns -/

/-- One pass over the store. -/
inductive CollectPhase where
  | phase1 (sweep : Sweep)
  | phase2 (sweep : Sweep) (id : RegistryNodeId)

/-- The transaction of a pass. -/
def CollectPhase.actions (s : Trees) : CollectPhase → List RegistryAction
  | .phase1 w => w.phase1 s
  | .phase2 w id => w.phase2 s id

/-- The request of a pass. -/
def CollectPhase.request : CollectPhase → Request
  | .phase1 w => .phase1 w
  | .phase2 w id => .phase2 w id

/-- `openraft::ServerState`. -/
inductive ServerState where | learner | follower | candidate | leader | shutdown
  deriving DecidableEq, Repr

/-- One turn of the loop on a node, with what its two phases meet. -/
structure Turn where
  state : ServerState
  id : RegistryNodeId
  first : Sweep
  second : Sweep

/-- The phases of a turn; a node that shuts down makes none, and leaves the loop. -/
def Turn.phases (t : Turn) : List CollectPhase :=
  (if t.state = .leader then [.phase1 t.first] else []) ++
  (if t.state = .leader ∨ t.state = .follower then [.phase2 t.second t.id] else [])

/-- Passes over the trees, each applied before the next one looks. -/
def collector : Machine Trees CollectPhase := ⟨.empty, fun s p => applyActions s (p.actions s)⟩

/-- The same in the cluster: a pass that finds nothing sends nothing, and the transaction of another
    one commits before anything else does. -/
def quiet (leader : LeaderId) : Machine State CollectPhase where
  init := cluster.init
  step s p := (replay s.log).bind fun db =>
    if p.actions db.toTrees = [] then some s
    else cluster.run s [.submit p.request (fun _ => 0) s.log.length,
      .commit s.underWay.length leader]

/-! ### What phases do to the trees -/

/-- A record that phases have been at: some of its mounts and locations may be gone, not all of its
    locations. -/
structure Shrunk (o o' : Object) : Prop where
  created : o'.created = o.created
  dependencies : o'.dependencies = o.dependencies
  repositories : o'.repositories ⊆ o.repositories
  locations : o'.locations ⊆ o.locations
  held : o.locations ≠ ∅ → o'.locations ≠ ∅

theorem Shrunk.refl (o : Object) : Shrunk o o := ⟨rfl, rfl, subset_rfl, subset_rfl, id⟩

theorem Shrunk.trans {o o' o'' : Object} (h : Shrunk o o') (h' : Shrunk o' o'') : Shrunk o o'' :=
  ⟨h'.created.trans h.created, h'.dependencies.trans h.dependencies,
   h'.repositories.trans h.repositories, h'.locations.trans h.locations,
   fun hne => h'.held (h.held hne)⟩

/-- The tags are the same, and every record is an old one that has shrunk. -/
structure Shrinks (s s' : Trees) : Prop where
  tags : s'.tags = s.tags
  records : ∀ (k : Kind) (d : Digest) (o' : Object), (s'.tree k)[d]? = some o' →
    ∃ o, (s.tree k)[d]? = some o ∧ Shrunk o o'

theorem Shrinks.refl (s : Trees) : Shrinks s s := ⟨rfl, fun _ _ o ho => ⟨o, ho, .refl o⟩⟩

theorem Shrinks.trans {s s' s'' : Trees} (h : Shrinks s s') (h' : Shrinks s' s'') :
    Shrinks s s'' := by
  refine ⟨h'.tags.trans h.tags, ?_⟩
  intro k d o'' ho''
  obtain ⟨o', ho', hshrunk'⟩ := h'.records k d o'' ho''
  obtain ⟨o, ho, hshrunk⟩ := h.records k d o' ho'
  exact ⟨o, ho, hshrunk.trans hshrunk'⟩

/-- The actions of phases. -/
def Dropping (op : ObjectAction) : Prop :=
  (∃ ts d r, op = .unmounted ts d r) ∨ ∃ ts d l, op = .unstored ts d l

theorem shrunk_act {o o' : Object} {op : ObjectAction} (hop : Dropping op)
    (h : act (some o) op = some o') : Shrunk o o' := by
  rcases hop with ⟨ts, d, r, rfl⟩ | ⟨ts, d, l, rfl⟩
  · obtain rfl := Option.some.inj h
    exact ⟨rfl, rfl, Finset.erase_subset r _, subset_rfl, id⟩
  · simp only [act, Option.bind_some] at h
    split at h
    · cases h
    · rename_i hne
      obtain rfl := Option.some.inj h
      exact ⟨rfl, rfl, subset_rfl, Finset.erase_subset l _, fun _ => hne⟩

theorem dropping_of_mem {s : Trees} {p : CollectPhase} {a : RegistryAction} (ha : a ∈ p.actions s)
    {k : Kind} {op : ObjectAction} (hop : a.half k = some op) :
    Dropping op ∧ Drops a k op.digest := by
  cases p with
  | phase1 w =>
    obtain ⟨k', d, o, r, -, -, -, -, rfl⟩ := mem_phase1 ha
    rw [unmountedAction_half] at hop
    split at hop
    · rename_i hk
      obtain rfl := Option.some.inj hop
      refine ⟨.inl ⟨_, d, r, rfl⟩, .inl ⟨w.actionNow k' d r, r, ?_⟩⟩
      rw [unmountedAction_half, if_pos hk]
      rfl
    · cases hop
  | phase2 w id =>
    obtain ⟨k', d, -, rfl⟩ := mem_phase2 ha
    rw [unstoredAction_half] at hop
    split at hop
    · rename_i hk
      obtain rfl := Option.some.inj hop
      refine ⟨.inr ⟨_, d, id, rfl⟩, .inr ⟨w.objectNow k' d, id, ?_⟩⟩
      rw [unstoredAction_half, if_pos hk]
      rfl
    · cases hop

/-- A pass drops only what is not live. -/
theorem pass_drops {s : Trees} {p : CollectPhase} {a : RegistryAction} (ha : a ∈ p.actions s)
    {k : Kind} {d : Digest} (h : Drops a k d) : ¬ Live s d k := by
  cases p with
  | phase1 w => exact phase1_drops ha h
  | phase2 w id => exact phase2_drops ha h

/-- A pass always goes through. -/
theorem collector_step_isSome (s : Trees) (p : CollectPhase) : (collector.step s p).isSome := by
  refine applyActions_isSome ?_ s
  intro a ha k ts d l hstored
  rcases (dropping_of_mem ha hstored).1 with ⟨_, _, _, h⟩ | ⟨_, _, _, h⟩ <;> cases h

/-- STEP: a pass only takes away. -/
theorem shrinks_step {s s' : Trees} {p : CollectPhase} (h : collector.step s p = some s') :
    Shrinks s s' := by
  refine ⟨applyActions_tags_of_untagging h ?_, ?_⟩
  · intro a ha ts d r t u heq
    subst heq
    cases p with
    | phase1 w =>
      obtain ⟨k, _, _, _, -, -, -, -, heq⟩ := mem_phase1 ha
      cases k <;> cases heq
    | phase2 w id =>
      obtain ⟨k, _, -, heq⟩ := mem_phase2 ha
      cases k <;> cases heq
  · intro k d o' ho'
    have hinv := record_inv h k d (Q := Dropping)
      (P := fun x => ∀ o', x = some o' → ∃ o, (s.tree k)[d]? = some o ∧ Shrunk o o') ?_
      (fun o ho => ⟨o, ho, .refl o⟩) ?_
    · exact hinv o' ho'
    · intro op hop
      obtain ⟨a, ha, hk⟩ := List.mem_filterMap.mp hop
      exact (dropping_of_mem ha hk).1
    · intro x op hx hop _ _ o' ho'
      cases x with
      | none => rcases hop with ⟨_, _, _, rfl⟩ | ⟨_, _, _, rfl⟩ <;> cases ho'
      | some m =>
        obtain ⟨o, ho, hshrunk⟩ := hx m rfl
        exact ⟨o, ho, hshrunk.trans (shrunk_act hop ho')⟩

/-- RUN: so do many. -/
theorem shrinks_run {s s' : Trees} {phases : List CollectPhase}
    (h : collector.run s phases = some s') : Shrinks s s' :=
  collector.run_inv (I := Shrinks s) (fun _ _ _ hs hstep => hs.trans (shrinks_step hstep))
    (.refl s) h

/-! ### What stays -/

/-- What the tags keep: the tagged manifests, and the blobs that paths lead to from one of them. -/
def Retained (s : Trees) (d : Digest) : Kind → Prop
  | .manifest => Tagged s d
  | .blob => ∃ m r, Tagged s m ∧ r ∈ dependenciesOf s.manifests[m]? ∧
      Relation.ReflTransGen (fun a b => b ∈ dependenciesOf s.blobs[a]?) r d

theorem retained_live {s : Trees} {k : Kind} {d : Digest} (h : Retained s d k) : Live s d k := by
  cases k with
  | manifest => exact h
  | blob =>
    obtain ⟨m, r, -, hr, hpath⟩ := h
    exact ⟨r, mem_allDependencies.mpr ⟨m, hr⟩, hpath⟩

/-- A pass leaves the record of a live object alone. -/
theorem record_of_live {s s' : Trees} {p : CollectPhase} (h : collector.step s p = some s')
    {k : Kind} {d : Digest} (hlive : Live s d k) : (s'.tree k)[d]? = (s.tree k)[d]? := by
  have hnone : about d (halves k (p.actions s)) = [] := by
    refine List.filter_eq_nil_iff.mpr ?_
    intro op hop
    obtain ⟨a, ha, hk⟩ := List.mem_filterMap.mp hop
    simp only [decide_eq_true_eq]
    rintro rfl
    exact pass_drops ha (dropping_of_mem ha hk).2 hlive
  rw [applyActions_get h k d, hnone]
  rfl

theorem retained_step {s s' : Trees} {p : CollectPhase} (h : collector.step s p = some s') {k : Kind}
    {d : Digest} (hkept : Retained s d k) : Retained s' d k := by
  have htagged : ∀ m, Tagged s m → Tagged s' m := by
    rintro m ⟨key, hkey⟩
    exact ⟨key, by rw [(shrinks_step h).tags, hkey]⟩
  cases k with
  | manifest => exact htagged d hkept
  | blob =>
    obtain ⟨m, r, hm, hr, hpath⟩ := hkept
    have hmanifest : s'.manifests[m]? = s.manifests[m]? := record_of_live h (k := .manifest) hm
    refine ⟨m, r, htagged m hm, by rwa [hmanifest], ?_⟩
    -- every blob on the path is kept, and keeps its dependencies
    induction hpath with
    | refl => exact .refl
    | @tail x y hrx hxy ih =>
      refine ih.tail ?_
      have hx : Live s x .blob := retained_live (k := .blob) ⟨m, r, hm, hr, hrx⟩
      have hblob : s'.blobs[x]? = s.blobs[x]? := record_of_live h (k := .blob) hx
      rwa [hblob]

/-- What is kept stays as it is. -/
theorem retained_run {s s' : Trees} {phases : List CollectPhase}
    (h : collector.run s phases = some s') {k : Kind} {d : Digest} (hkept : Retained s d k) :
    Retained s' d k ∧ (s'.tree k)[d]? = (s.tree k)[d]? := by
  refine collector.run_inv (I := fun t => Retained t d k ∧ (t.tree k)[d]? = (s.tree k)[d]?) ?_
    ⟨hkept, rfl⟩ h
  rintro t p t' ⟨ht, hsame⟩ hstep
  exact ⟨retained_step hstep ht, (record_of_live hstep (retained_live ht)).trans hsame⟩

/-! ### What goes -/

theorem Shrinks.dependencies {s s' : Trees} (h : Shrinks s s') (k : Kind) {d x : Digest}
    (hx : x ∈ dependenciesOf (s'.tree k)[d]?) : x ∈ dependenciesOf (s.tree k)[d]? := by
  cases ho' : (s'.tree k)[d]? with
  | none => simp [ho', dependenciesOf] at hx
  | some o' =>
    obtain ⟨o, ho, hshrunk⟩ := h.records k d o' ho'
    rw [ho'] at hx
    rw [ho]
    simpa [dependenciesOf, hshrunk.dependencies] using hx

theorem Shrinks.tagged {s s' : Trees} (h : Shrinks s s') {d : Digest} (hd : Tagged s' d) :
    Tagged s d := by
  obtain ⟨key, hkey⟩ := hd
  exact ⟨key, by rw [← h.tags, hkey]⟩

/-- Passes make nothing live. -/
theorem Shrinks.live {s s' : Trees} (h : Shrinks s s') {k : Kind} {d : Digest}
    (hd : Live s' d k) : Live s d k := by
  cases k with
  | manifest => exact h.tagged hd
  | blob =>
    obtain ⟨r, hr, hpath⟩ := hd
    obtain ⟨m, hm⟩ := mem_allDependencies.mp hr
    exact ⟨r, mem_allDependencies.mpr ⟨m, h.dependencies .manifest hm⟩,
      Relation.ReflTransGen.mono (fun _ _ hxy => h.dependencies .blob hxy) _ _ hpath⟩

theorem Shrinks.retained {s s' : Trees} (h : Shrinks s s') {d : Digest} (hd : Retained s' d .blob) :
    Retained s d .blob := by
  obtain ⟨m, r, hm, hr, hpath⟩ := hd
  exact ⟨m, r, h.tagged hm, h.dependencies .manifest hr,
    Relation.ReflTransGen.mono (fun _ _ hxy => h.dependencies .blob hxy) _ _ hpath⟩

/-- Every record is old enough for the pass. -/
def Aged (w : Sweep) (s : Trees) : Prop :=
  ∀ (k : Kind) (d : Digest) (o : Object), (s.tree k)[d]? = some o →
    minimumGarbageAge ≤ w.objectNow k d - o.created

theorem Aged.shrinks {w : Sweep} {s s' : Trees} (h : Aged w s) (hs : Shrinks s s') :
    Aged w s' := by
  intro k d o' ho'
  obtain ⟨o, ho, hshrunk⟩ := hs.records k d o' ho'
  rw [hshrunk.created]
  exact h k d o ho

/-- What the actions of a pass have dropped is gone. -/
theorem dropped {s s' : Trees} {p : CollectPhase} (h : collector.step s p = some s') {k : Kind}
    {d : Digest} {o' : Object} (ho' : (s'.tree k)[d]? = some o') :
    (∀ ts r, .unmounted ts d r ∈ halves k (p.actions s) → r ∉ o'.repositories) ∧
      ∀ ts l, .unstored ts d l ∈ halves k (p.actions s) → l ∉ o'.locations := by
  refine record_induction h k d (P := fun ops x => (∀ op ∈ ops, Dropping op) →
    ∀ o', x = some o' → (∀ ts r, .unmounted ts d r ∈ ops → r ∉ o'.repositories) ∧
      ∀ ts l, .unstored ts d l ∈ ops → l ∉ o'.locations) (by simp) ?_ ?_ ?_ o' ho'
  · intro ops x op ih hne hops o ho
    obtain ⟨hr, hl⟩ := ih (fun op hop => hops op (List.mem_append_left _ hop)) o ho
    refine ⟨fun ts r hmem => hr ts r ?_, fun ts l hmem => hl ts l ?_⟩
    all_goals
      rcases List.mem_append.mp hmem with hmem | hmem
      · exact hmem
      · exact absurd (by rw [← List.mem_singleton.mp hmem]; rfl) hne
  · intro ops x op ih hd _ hops o ho
    have hop : Dropping op := hops op (List.mem_append_right _ (List.mem_singleton_self op))
    cases x with
    | none => rcases hop with ⟨_, _, _, rfl⟩ | ⟨_, _, _, rfl⟩ <;> cases ho
    | some m =>
      obtain ⟨hr, hl⟩ := ih (fun op hop => hops op (List.mem_append_left _ hop)) m rfl
      have hshrunk := shrunk_act hop ho
      refine ⟨fun ts r hmem => ?_, fun ts l hmem => ?_⟩
      · rcases List.mem_append.mp hmem with hmem | hmem
        · exact fun hin => hr ts r hmem (hshrunk.repositories hin)
        · obtain rfl := List.mem_singleton.mp hmem
          obtain rfl := Option.some.inj ho
          exact Finset.notMem_erase r _
      · rcases List.mem_append.mp hmem with hmem | hmem
        · exact fun hin => hl ts l hmem (hshrunk.locations hin)
        · obtain rfl := List.mem_singleton.mp hmem
          simp only [act, Option.bind_some] at ho
          split at ho
          · cases ho
          · obtain rfl := Option.some.inj ho
            exact Finset.notMem_erase l _
  · intro op hop
    obtain ⟨a, ha, hk⟩ := List.mem_filterMap.mp hop
    exact (dropping_of_mem ha hk).1

/-- CollectPhase 1 leaves no mount of an orphan that is old enough. -/
theorem unmounted_of_phase1 {s s' : Trees} {w : Sweep}
    (h : collector.step s (.phase1 w) = some s') (hold : Aged w s) {k : Kind} {d : Digest}
    (hlive : ¬ Live s d k) {o' : Object} (ho' : (s'.tree k)[d]? = some o') :
    o'.repositories = ∅ := by
  refine Finset.eq_empty_of_forall_notMem ?_
  intro r hr
  obtain ⟨o, ho, hshrunk⟩ := (shrinks_step h).records k d o' ho'
  have hmem := mem_phase1_of_orphan ho hlive (hold k d o ho) (hshrunk.repositories hr)
  refine (dropped h ho').1 (w.actionNow k d r) r (List.mem_filterMap.mpr ⟨_, hmem, ?_⟩) hr
  rw [unmountedAction_half, if_pos rfl]

/-- CollectPhase 2 takes an unmounted orphan off its node, if its file can be removed. -/
theorem unstored_of_phase2 {s s' : Trees} {w : Sweep} {id : RegistryNodeId}
    (h : collector.step s (.phase2 w id) = some s') {k : Kind} {d : Digest}
    (hclean : w.cleanup k d = true) (hlive : ¬ Live s d k) {o : Object}
    (ho : (s.tree k)[d]? = some o) (hr : o.repositories = ∅) {o' : Object}
    (ho' : (s'.tree k)[d]? = some o') : id ∉ o'.locations := by
  intro hid
  obtain ⟨o₁, ho₁, hshrunk⟩ := (shrinks_step h).records k d o' ho'
  obtain rfl : o = o₁ := Option.some.inj (ho.symm.trans ho₁)
  have hdoomed : d ∈ w.doomed s k id :=
    mem_doomed.mpr ⟨o, ho, hlive, hshrunk.locations hid, hr⟩
  have hmem : unstoredAction (w.objectNow k d) d id "$system" k ∈ w.unstores s k id :=
    List.mem_map.mpr ⟨d, List.mem_filter.mpr ⟨hdoomed, hclean⟩, rfl⟩
  have hpass : unstoredAction (w.objectNow k d) d id "$system" k ∈ w.phase2 s id := by
    cases k with
    | blob => exact List.mem_append_right _ hmem
    | manifest => exact List.mem_append_left _ hmem
  refine (dropped h ho').2 (w.objectNow k d) id (List.mem_filterMap.mpr ⟨_, hpass, ?_⟩) hid
  rw [unstoredAction_half, if_pos rfl]

/-- These nodes go through a phase 2 in which they can remove what they have to. -/
def Covers (phases : List CollectPhase) (voters : Finset RegistryNodeId) : Prop :=
  ∀ n ∈ voters, ∃ w, .phase2 w n ∈ phases ∧ ∀ k d, w.cleanup k d = true

/-- An unmounted orphan is gone after a phase 2 of each node that may have it. -/
theorem gone_of_covers {s s' : Trees} {phases : List CollectPhase} {voters : Finset RegistryNodeId}
    (h : collector.run s phases = some s') (hcovers : Covers phases voters) {k : Kind} {d : Digest}
    (hheld : HeldBy voters (s.tree k)[d]?) (hlive : ¬ Live s d k)
    (hrepos : ∀ o, (s.tree k)[d]? = some o → o.repositories = ∅) : (s'.tree k)[d]? = none := by
  cases ho' : (s'.tree k)[d]? with
  | none => rfl
  | some o' =>
    exfalso
    obtain ⟨o, ho, hshrunk⟩ := (shrinks_run h).records k d o' ho'
    obtain ⟨hne, hsub⟩ := hheld o ho
    refine hshrunk.held hne (Finset.eq_empty_of_forall_notMem ?_)
    intro n hn
    obtain ⟨w, hmem, hclean⟩ := hcovers n (hsub (hshrunk.locations hn))
    -- the pass of the node, and the state that it looks at
    obtain ⟨before, after, rfl⟩ := List.append_of_mem hmem
    obtain ⟨u, hu, hrest⟩ := collector.run_append_some h
    obtain ⟨v, hv, hafter⟩ := collector.run_cons_some hrest
    obtain ⟨ov, hov, hlater⟩ := (shrinks_run hafter).records k d o' ho'
    obtain ⟨ou, hou, -⟩ := (shrinks_step hv).records k d ov hov
    obtain ⟨o₁, ho₁, hearlier⟩ := (shrinks_run hu).records k d ou hou
    have hempty : ou.repositories = ∅ :=
      Finset.subset_empty.mp (hrepos o₁ ho₁ ▸ hearlier.repositories)
    have hdead : ¬ Live u d k := fun hu' => hlive ((shrinks_run hu).live hu')
    exact unstored_of_phase2 hv (hclean k d) hdead hou hempty hov (hlater.locations hn)

theorem heldBy_shrinks {s s' : Trees} (h : Shrinks s s') {voters : Finset RegistryNodeId}
    {k : Kind} {d : Digest} (hs : HeldBy voters (s.tree k)[d]?) :
    HeldBy voters (s'.tree k)[d]? := by
  intro o' ho'
  obtain ⟨o, ho, hshrunk⟩ := h.records k d o' ho'
  exact ⟨hshrunk.held (hs o ho).1, hshrunk.locations.trans (hs o ho).2⟩

/-- One phase 1 of the leader, and then a phase 2 of every node. -/
theorem gone_of_round {s s' : Trees} {w : Sweep} {phases : List CollectPhase}
    {voters : Finset RegistryNodeId} (h : collector.run s (.phase1 w :: phases) = some s')
    (hold : Aged w s) (hcovers : Covers phases voters) {k : Kind} {d : Digest}
    (hheld : HeldBy voters (s.tree k)[d]?) (hlive : ¬ Live s d k) : (s'.tree k)[d]? = none := by
  obtain ⟨m, hm, hrest⟩ := collector.run_cons_some h
  have hshrinks := shrinks_step hm
  refine gone_of_covers hrest hcovers (heldBy_shrinks hshrinks hheld)
    (fun hlive' => hlive (hshrinks.live hlive')) ?_
  exact fun o ho => unmounted_of_phase1 hm hold hlive ho

/-- When all manifests are tagged, the live blobs are the kept ones. -/
theorem live_kept {s : Trees} (hall : ∀ m : Digest, s.manifests[m]? ≠ none → Tagged s m)
    {k : Kind} {d : Digest} (h : Live s d k) : Retained s d k := by
  cases k with
  | manifest => exact h
  | blob =>
    obtain ⟨r, hr, hpath⟩ := h
    obtain ⟨m, hm⟩ := mem_allDependencies.mp hr
    refine ⟨m, r, hall m ?_, hm, hpath⟩
    intro hnone
    simp [hnone, dependenciesOf] at hm

/-- Two rounds over the trees. -/
theorem collected {s s' : Trees} {w₁ w₂ : Sweep} {pre between post : List CollectPhase}
    {voters : Finset RegistryNodeId}
    (h : collector.run s (pre ++ .phase1 w₁ :: (between ++ .phase1 w₂ :: post)) = some s')
    (hold₁ : Aged w₁ s) (hold₂ : Aged w₂ s) (hcovers₁ : Covers between voters)
    (hcovers₂ : Covers post voters)
    (hheld : ∀ (k : Kind) (d : Digest), HeldBy voters (s.tree k)[d]?) (k : Kind) (d : Digest)
    (o : Object) : (s'.tree k)[d]? = some o ↔ (s.tree k)[d]? = some o ∧ Retained s d k := by
  constructor
  case mpr =>
    rintro ⟨ho, hkept⟩
    rw [(retained_run h hkept).2, ho]
  case mp =>
    intro ho
    suffices hkept : Retained s d k by
      exact ⟨by rw [← (retained_run h hkept).2, ho], hkept⟩
    obtain ⟨a, ha, hrest⟩ := collector.run_append_some h
    have hfirst := shrinks_run ha
    rw [← List.cons_append] at hrest
    obtain ⟨c, hc, hlast⟩ := collector.run_append_some hrest
    have hshrinks := hfirst.trans (shrinks_run hc)
    -- after the first round no untagged manifest is left
    have hall : ∀ m : Digest, c.manifests[m]? ≠ none → Tagged c m := by
      intro m hm
      by_contra hnot
      have htags : ∀ m, Tagged a m → Tagged c m := by
        rintro m ⟨key, hkey⟩
        exact ⟨key, by rw [(shrinks_run hc).tags, hkey]⟩
      exact hm (gone_of_round hc (hold₁.shrinks hfirst) hcovers₁ (k := .manifest)
        (heldBy_shrinks hfirst (hheld .manifest m)) fun hlive => hnot (htags m hlive))
    by_contra hnot
    have hdead : ¬ Live c d k := by
      intro hlive
      have hkept := live_kept hall hlive
      cases k with
      | manifest => exact hnot (hshrinks.tagged hkept)
      | blob => exact hnot (hshrinks.retained hkept)
    rw [gone_of_round hlast (hold₂.shrinks hshrinks) hcovers₂
      (heldBy_shrinks hshrinks (hheld k d)) hdead] at ho
    cases ho

/-! ### In the cluster -/

theorem request_transaction (p : CollectPhase) (now : Clock) (db : Db) :
    p.request.transaction now db = nonempty (p.actions db.toTrees) := by
  cases p <;> rfl

/-- A pass in the cluster is a pass over the trees that the log stands for. -/
theorem quiet_step {leader : LeaderId} {s : State} {db : Db} (hdb : replay s.log = some db)
    (p : CollectPhase) : ∃ s' db', (quiet leader).step s p = some s' ∧ replay s'.log = some db' ∧
      collector.step db.toTrees p = some db'.toTrees := by
  by_cases hnil : p.actions db.toTrees = []
  · refine ⟨s, db, ?_, hdb, ?_⟩
    · simp [quiet, hdb, hnil]
    · simp [collector, hnil, applyActions]
  · obtain ⟨trees, htrees⟩ := Option.isSome_iff_exists.mp (collector_step_isSome db.toTrees p)
    have hsubmit : clusterStep s (.submit p.request (fun _ => 0) s.log.length) =
        some ⟨s.log, s.underWay ++ [⟨p.request, s.log.length, p.actions db.toTrees⟩]⟩ := by
      simp [clusterStep, hdb, request_transaction, nonempty, hnil]
    have hcommit : clusterStep
        ⟨s.log, s.underWay ++ [⟨p.request, s.log.length, p.actions db.toTrees⟩]⟩
          (.commit s.underWay.length leader) =
        some ⟨s.log ++ [nextEntry s.log leader (.normal (.transaction (p.actions db.toTrees)))],
          s.underWay⟩ := by
      simp [clusterStep, List.eraseIdx_append_of_length_le]
    refine ⟨⟨s.log ++ [nextEntry s.log leader (.normal (.transaction (p.actions db.toTrees)))],
      s.underWay⟩, { db with toTrees := trees, lastAppliedLog := some ⟨leader, s.log.length⟩ },
      ?_, ?_, htrees⟩
    · simp only [quiet, hdb, Option.bind_some, if_neg hnil]
      rw [Machine.run_cons, show cluster.step = clusterStep from rfl, hsubmit, Option.bind_some,
        Machine.run_single]
      exact hcommit
    · have happly : applyActions db.toTrees (p.actions db.toTrees) = some trees := htrees
      simp [replay_snoc, hdb, applyEntry, nextEntry, happly]

theorem quiet_run {leader : LeaderId} {s : State} {db : Db} (hdb : replay s.log = some db)
    (phases : List CollectPhase) : ∃ s' db', (quiet leader).run s phases = some s' ∧
      replay s'.log = some db' ∧ collector.run db.toTrees phases = some db'.toTrees := by
  induction phases generalizing s db with
  | nil => exact ⟨s, db, rfl, hdb, rfl⟩
  | cons p phases ih =>
    obtain ⟨m, dbm, hm, hdbm, hstep⟩ := @quiet_step leader _ _ hdb p
    obtain ⟨s', db', hs', hdb', hrun⟩ := ih hdbm
    refine ⟨s', db', ?_, hdb', ?_⟩
    · rw [Machine.run_cons, hm]
      exact hs'
    · rw [Machine.run_cons, hstep]
      exact hrun

/-- The node takes a turn in which it can remove the files that it has to. -/
def TakesTurn (turns : List Turn) (n : RegistryNodeId) : Prop :=
  ∃ t ∈ turns, t.id = n ∧ (t.state = .leader ∨ t.state = .follower) ∧
    ∀ k d, t.second.cleanup k d = true

theorem covers_of_turns {l : Turn} {turns : List Turn} {voters : Finset RegistryNodeId}
    (hl : l.state = .leader) (h : ∀ n ∈ voters, TakesTurn (l :: turns) n) :
    Covers (.phase2 l.second l.id :: turns.flatMap Turn.phases) voters := by
  intro n hn
  obtain ⟨t, ht, rfl, hstate, hclean⟩ := h n hn
  refine ⟨t.second, ?_, hclean⟩
  rcases List.mem_cons.mp ht with rfl | ht
  · exact List.mem_cons_self ..
  · refine List.mem_cons_of_mem _ (List.mem_flatMap.mpr ⟨t, ht, ?_⟩)
    simp [Turn.phases, hstate]

/-- A pass over live records finds nothing. -/
theorem actions_of_live {s : Trees} (h : ∀ (k : Kind) (d : Digest) (o : Object),
    (s.tree k)[d]? = some o → Live s d k) (p : CollectPhase) : p.actions s = [] := by
  refine List.eq_nil_iff_forall_not_mem.mpr ?_
  intro a ha
  cases p with
  | phase1 w =>
    obtain ⟨k, d, o, r, ho, hlive, -⟩ := mem_phase1 ha
    exact hlive (h k d o ho)
  | phase2 w id =>
    obtain ⟨k, d, hd, -⟩ := mem_phase2 ha
    obtain ⟨o, ho, hlive, -⟩ := mem_doomed.mp hd
    exact hlive (h k d o ho)

/-- TWO ROUNDS: in every state that a run reaches in which mounts find their records, storing nodes
    are voters and membership changes keep the nodes that store something, when nothing but the
    collector commits from there on, two turns of the leader on records that are old enough, each
    followed by a turn of every voter (which may be the leader's own) before the next, whatever other
    turns there are, leave the tags as they were, of the records exactly those of the tagged
    manifests and of the blobs below them, unchanged, and nothing to do for any later pass. -/
theorem two_rounds (es : List Event) (s : State) (db : Db)
    (hrun : cluster.run cluster.init es = some s)
    (hkeep : cluster.Meets KeepsSettled cluster.init es) (hdb : replay s.log = some db)
    (leader : LeaderId) (earlier between later : List Turn) (l₁ l₂ : Turn)
    (hl₁ : l₁.state = .leader) (hl₂ : l₂.state = .leader)
    (hold₁ : Aged l₁.first db.toTrees) (hold₂ : Aged l₂.first db.toTrees)
    (hround₁ : ∀ n ∈ votersOf db, TakesTurn (l₁ :: between) n)
    (hround₂ : ∀ n ∈ votersOf db, TakesTurn (l₂ :: later) n) :
    ∃ s' db', (quiet leader).run s
        ((earlier ++ l₁ :: between ++ l₂ :: later).flatMap Turn.phases) = some s' ∧
      replay s'.log = some db' ∧ db'.tags = db.tags ∧
      (∀ (d : Digest) (o : Object), db'.manifests[d]? = some o ↔
        db.manifests[d]? = some o ∧ Tagged db.toTrees d) ∧
      (∀ (d : Digest) (o : Object), db'.blobs[d]? = some o ↔
        db.blobs[d]? = some o ∧ ∃ m r, Tagged db.toTrees m ∧ r ∈ dependenciesOf db.manifests[m]? ∧
          Relation.ReflTransGen (fun a b => b ∈ dependenciesOf db.blobs[a]?) r d) ∧
      ∀ p : CollectPhase, p.actions db'.toTrees = [] := by
  have hsettled := (cluster.run_inv_of_meets holdsSettled_step holdsSettled_init hkeep hrun).2 db hdb
  have hpasses : (earlier ++ l₁ :: between ++ l₂ :: later).flatMap Turn.phases =
      earlier.flatMap Turn.phases ++
        .phase1 l₁.first :: ((.phase2 l₁.second l₁.id :: between.flatMap Turn.phases) ++
          .phase1 l₂.first :: .phase2 l₂.second l₂.id :: later.flatMap Turn.phases) := by
    simp [Turn.phases, hl₁, hl₂]
  obtain ⟨s', db', hs', hdb', hcollect⟩ := @quiet_run leader _ _ hdb
    ((earlier ++ l₁ :: between ++ l₂ :: later).flatMap Turn.phases)
  have htags := (shrinks_run hcollect).tags
  rw [hpasses] at hcollect
  have hexact := collected hcollect hold₁ hold₂ (covers_of_turns hl₁ hround₁)
    (covers_of_turns hl₂ hround₂) hsettled
  refine ⟨s', db', hs', hdb', htags, hexact .manifest, hexact .blob, ?_⟩
  refine actions_of_live ?_
  intro k d o ho
  exact retained_live (retained_run hcollect ((hexact k d o).mp ho).2).1

/-- A turn of node 2, the leader, and of node 1, a follower, thirteen hours after the start. -/
def leaderTurn : Turn := ⟨.leader, 2, plainSweep thirteenHours, plainSweep thirteenHours⟩

def followerTurn : Turn := ⟨.follower, 1, plainSweep thirteenHours, plainSweep thirteenHours⟩

/-- The push of `library/a:latest` on node 2 and another blob, which nothing names. -/
def strayRun : List Event :=
  uploadRun ++ [pushBlob, .commit 0 ⟨1, 2⟩,
    .submit (.upload 1 ⟨"library/b"⟩ emptyDigest 0 "bob") (ticking 40) 3, .commit 0 ⟨1, 2⟩]

/-- The stray blob goes, and what the tag needs stays. -/
theorem two_rounds_strayRun :
    ∃ s db s' db', cluster.run cluster.init strayRun = some s ∧ replay s.log = some db ∧
      (quiet ⟨1, 2⟩).run s (([] ++ leaderTurn :: [followerTurn] ++
        leaderTurn :: [followerTurn]).flatMap Turn.phases) = some s' ∧
      replay s'.log = some db' ∧ db.blobs[emptyDigest]?.isSome ∧ db'.blobs[emptyDigest]? = none ∧
      db'.manifests[emptyDigest]?.isSome ∧ db'.blobs[helloDigest]?.isSome := by
  have hfacts : ((cluster.run cluster.init strayRun).bind fun s => (replay s.log).map fun db =>
      decide (db.blobs[emptyDigest]?.isSome ∧ db.manifests[emptyDigest]?.isSome ∧
        db.blobs[helloDigest]?.isSome ∧
        db.tags[(⟨⟨"library/a"⟩, "latest"⟩ : TagKey)]? = some emptyDigest ∧
        helloDigest ∈ dependenciesOf db.manifests[emptyDigest]? ∧
        ((plainSweep 0).orphans db.toTrees .blob)[emptyDigest]?.isSome ∧
        votersOf db = {1, 2} ∧
        ((∀ p ∈ db.blobs.toList, minimumGarbageAge ≤ thirteenHours - p.2.created) ∧
          ∀ p ∈ db.manifests.toList, minimumGarbageAge ≤ thirteenHours - p.2.created))) =
            some true := by
    decide +kernel
  simp only [Option.bind_eq_some_iff, Option.map_eq_some_iff, decide_eq_true_eq] at hfacts
  obtain ⟨s, h, db, hdb, hstray, hm, hb, htag, hdep, horphan, hvoters, hold⟩ := hfacts
  have haged : Aged (plainSweep thirteenHours) db.toTrees :=
    (forall_records_iff (P := fun o => minimumGarbageAge ≤ thirteenHours - o.created)).mpr hold
  have hround : ∀ n ∈ votersOf db, TakesTurn (leaderTurn :: [followerTurn]) n := by
    intro n hn
    rw [hvoters] at hn
    rcases Finset.mem_insert.mp hn with rfl | hn
    · exact ⟨followerTurn, by simp, rfl, .inr rfl, fun _ _ => rfl⟩
    · obtain rfl := Finset.mem_singleton.mp hn
      exact ⟨leaderTurn, by simp, rfl, .inl rfl, fun _ _ => rfl⟩
  obtain ⟨s', db', hs', hdb', -, hmanifests, hblobs, -⟩ := two_rounds strayRun s db h
    (by decide +kernel) hdb ⟨1, 2⟩ [] [followerTurn] [followerTurn] leaderTurn leaderTurn rfl rfl
    haged haged hround hround
  refine ⟨s, db, s', db', h, hdb, hs', hdb', hstray, ?_, ?_, ?_⟩
  · cases ho : db'.blobs[emptyDigest]? with
    | none => rfl
    | some o =>
      obtain ⟨x, hx⟩ := Option.isSome_iff_exists.mp horphan
      obtain ⟨-, m, r, -, hr, hpath⟩ := (hblobs emptyDigest o).mp ho
      exact absurd ⟨r, mem_allDependencies.mpr ⟨m, hr⟩, hpath⟩
        ((orphans_get _ _ .blob _ _).mp hx).2
  · obtain ⟨o, ho⟩ := Option.isSome_iff_exists.mp hm
    exact Option.isSome_iff_exists.mpr ⟨o, (hmanifests _ o).mpr ⟨ho, _, htag⟩⟩
  · obtain ⟨o, ho⟩ := Option.isSome_iff_exists.mp hb
    exact Option.isSome_iff_exists.mpr
      ⟨o, (hblobs _ o).mpr ⟨ho, emptyDigest, helloDigest, ⟨_, htag⟩, hdep, .refl⟩⟩

end Distribd.Cluster
