import Distribd.Cluster.Effects
import Distribd.Cluster.Collect

/-! Is the collector complete? Phase 1 unmounts orphans on the leader, phase 2 drops the locations of
    unmounted orphans, each node its own, and a record goes with its last location. So when no pass
    has anything left to do, an orphan can only be a record that no running node answers for: one
    without locations, or with the locations of nodes that are no longer voters. Neither is prevented
    by the code: a mount that commits after the last location has left creates a record with none,
    and nothing touches the locations of a node that is taken out of the membership. Orphans that a
    voter holds are all collected, and a run in which neither happens has no others
    (`fixpoint_complete_iff`). -/

namespace Distribd.Cluster
open Schemes Store

/-! ### Records that somebody answers for -/

/-- `Membership::voter_ids`: the nodes that are leader or follower, on which phase 2 runs. -/
def voterIds (mem : Membership) : Finset RegistryNodeId := mem.configs.foldr (· ∪ ·) ∅

/-- The voters that a database knows of. -/
def votersOf (db : Db) : Finset RegistryNodeId := voterIds db.getLastMembership.membership

/-- The record, if there is one, has a location, and voters only. -/
def HeldBy (voters : Finset RegistryNodeId) (o : Option Object) : Prop :=
  ∀ x, o = some x → x.locations ≠ ∅ ∧ x.locations ⊆ voters

/-- Every record has a location, and voters only. -/
def Settled (db : Db) : Prop := ∀ (k : Kind) (d : Digest), HeldBy (votersOf db) (db.tree k)[d]?

/-- What a request must find when its transaction commits: a node that stores is a voter, and the
    record that a mount goes to is still there. -/
def Request.Settles (db : Db) : Request → Prop
  | .upload id .. | .put id .. | .mirror _ id _ => id ∈ votersOf db
  | .mount _ _ d _ => db.blobs[d]? ≠ none
  | _ => True

/-- The condition at an event; a new membership must keep every node that stores something. -/
def KeepsSettled (s : State) : Event → Prop
  | .commit i _ => ∀ sub ∈ s.underWay[i]?, ∀ db ∈ replay s.log, sub.request.Settles db
  | .membership _ mem => ∀ db ∈ replay s.log, ∀ (k : Kind) (d : Digest) (o : Object),
      (db.tree k)[d]? = some o → o.locations ⊆ voterIds mem
  | _ => True

instance (db : Db) : ∀ r : Request, Decidable (r.Settles db)
  | .upload id .. | .put id .. | .mirror _ id _ => inferInstanceAs (Decidable (id ∈ votersOf db))
  | .mount _ _ d _ => inferInstanceAs (Decidable (db.blobs[d]? ≠ none))
  | .delete .. | .deleteTag .. | .phase1 _ | .phase2 _ _ => isTrue trivial

/-- A property of all records can be checked by going through the two trees. -/
theorem forall_records_iff {s : Trees} {P : Object → Prop} :
    (∀ (k : Kind) (d : Digest) (o : Object), (s.tree k)[d]? = some o → P o) ↔
      (∀ p ∈ s.blobs.toList, P p.2) ∧ ∀ p ∈ s.manifests.toList, P p.2 := by
  simp only [Prod.forall, Std.ExtTreeMap.mem_toList_iff_getElem?_eq_some]
  refine ⟨fun h => ⟨h .blob, h .manifest⟩, ?_⟩
  rintro ⟨hb, hm⟩ k
  cases k with
  | blob => exact hb
  | manifest => exact hm

instance (s : State) : ∀ e, Decidable (KeepsSettled s e)
  | .commit i _ => inferInstanceAs
      (Decidable (∀ sub ∈ s.underWay[i]?, ∀ db ∈ replay s.log, sub.request.Settles db))
  | .membership _ mem => decidable_of_iff (∀ db ∈ replay s.log,
      (∀ p ∈ db.blobs.toList, p.2.locations ⊆ voterIds mem) ∧
      (∀ p ∈ db.manifests.toList, p.2.locations ⊆ voterIds mem))
      (forall_congr' fun _ => imp_congr_right fun _ => Iff.symm
        (forall_records_iff (P := fun o => o.locations ⊆ voterIds mem)))
  | .submit .. | .lose _ | .blank _ => isTrue trivial

/-! ### One transaction -/

/-- The action mounts nothing and stores on voters only. -/
def StoresOnVoters (voters : Finset RegistryNodeId) (op : ObjectAction) : Prop :=
  (∀ ts d r, op ≠ .mounted ts d r) ∧ ∀ ts d l, op = .stored ts d l → l ∈ voters

theorem heldBy_act {voters : Finset RegistryNodeId} {o : Option Object} {op : ObjectAction}
    (h : HeldBy voters o) (hop : StoresOnVoters voters op) : HeldBy voters (act o op) := by
  intro x' hx'
  cases op with
  | mounted ts e r => exact absurd rfl (hop.1 ts e r)
  | stored ts e l =>
    obtain ⟨x, hx, rfl⟩ := Option.map_eq_some_iff.mp hx'
    have hl : l ∈ voters := hop.2 ts e l rfl
    exact ⟨Finset.insert_ne_empty l _, Finset.insert_subset hl (h x hx).2⟩
  | unstored ts e l =>
    obtain ⟨x, hx, hx'⟩ := Option.bind_eq_some_iff.mp hx'
    split at hx'
    case isTrue => cases hx'
    case isFalse hne =>
      obtain rfl := Option.some.inj hx'
      exact ⟨hne, (Finset.erase_subset l _).trans (h x hx).2⟩
  | unmounted ts e r =>
    obtain ⟨x, hx, rfl⟩ := Option.map_eq_some_iff.mp hx'
    exact h x hx
  | info ts e ds ct =>
    obtain ⟨x, hx, rfl⟩ := Option.map_eq_some_iff.mp hx'
    exact h x hx
  | stat ts e n =>
    obtain ⟨x, hx, rfl⟩ := Option.map_eq_some_iff.mp hx'
    exact h x hx

/-- A transaction that mounts nothing and stores on voters only keeps every record held. -/
theorem heldBy_after {s s' : Trees} {actions : List RegistryAction}
    (h : applyActions s actions = some s') {k : Kind} {d : Digest} {voters : Finset RegistryNodeId}
    (hs : HeldBy voters (s.tree k)[d]?) (hops : ∀ op ∈ halves k actions, StoresOnVoters voters op) :
    HeldBy voters (s'.tree k)[d]? := by
  refine record_inv h k d (P := HeldBy voters) hops hs ?_
  intro o op hheld hop _ _
  exact heldBy_act hheld hop

theorem storesOnVoters_unmounted (voters : Finset RegistryNodeId) (now : DateTime) (d : Digest)
    (r : RepositoryName) (u : String) (k k' : Kind) :
    ∀ op ∈ (unmountedAction now d r u k).half k', StoresOnVoters voters op := by
  intro op hop
  rw [unmountedAction_half] at hop
  split at hop <;> cases hop
  exact ⟨by simp, by simp⟩

theorem storesOnVoters_unstored (voters : Finset RegistryNodeId) (now : DateTime) (d : Digest)
    (l : RegistryNodeId) (u : String) (k k' : Kind) :
    ∀ op ∈ (unstoredAction now d l u k).half k', StoresOnVoters voters op := by
  intro op hop
  rw [unstoredAction_half] at hop
  split at hop <;> cases hop
  exact ⟨by simp, by simp⟩

/-- A record that an upload or a push stores on a voter is held. -/
theorem heldBy_insert {voters : Finset RegistryNodeId} {o o' : Option Object} {id : RegistryNodeId}
    (h : HeldBy voters o) (hid : id ∈ voters) (hloc : locationsOf o' = insert id (locationsOf o)) :
    HeldBy voters o' := by
  have hold : locationsOf o ⊆ voters := by
    cases o with
    | none => exact Finset.empty_subset _
    | some x => exact (h x rfl).2
  rintro x rfl
  replace hloc : x.locations = insert id (locationsOf o) := hloc
  rw [hloc]
  exact ⟨Finset.insert_ne_empty id _, Finset.insert_subset hid hold⟩

/-- A record that no action is about stays as it is. -/
theorem heldBy_other {s s' : Trees} {actions : List RegistryAction}
    (h : applyActions s actions = some s') {k : Kind} {e : Digest} {voters : Finset RegistryNodeId}
    (hs : HeldBy voters (s.tree k)[e]?) (hops : ∀ op ∈ halves k actions, op.digest ≠ e) :
    HeldBy voters (s'.tree k)[e]? := by
  have hnone : about e (halves k actions) = [] := by
    refine List.filter_eq_nil_iff.mpr ?_
    intro op hop
    simpa using hops op hop
  rw [applyActions_get h k e, hnone]
  exact hs

theorem heldBy_upload {s s' : Trees} {now : Clock} {id : RegistryNodeId} {r : RepositoryName}
    {d : Digest} {n : ℕ} {u : String} {voters : Finset RegistryNodeId}
    (h : applyActions s (uploadActions now id r d n u) = some s') (hid : id ∈ voters)
    (hs : ∀ (k : Kind) (e : Digest), HeldBy voters (s.tree k)[e]?) (k : Kind) (e : Digest) :
    HeldBy voters (s'.tree k)[e]? := by
  cases k with
  | manifest => exact heldBy_after h (hs .manifest e) (by simp [halves, uploadActions,
      RegistryAction.half])
  | blob =>
    have hhalves : halves .blob (uploadActions now id r d n u) =
        [.mounted (now 0) d r, .stat (now 1) d n, .stored (now 2) d id] := rfl
    rcases eq_or_ne d e with rfl | hne
    · refine heldBy_insert (hs .blob d) hid ?_
      rw [applyActions_locations h .blob d, hhalves]
      simp [holdersAfter, moveHolder]
    · refine heldBy_other h (hs .blob e) ?_
      rw [hhalves]
      simpa [ObjectAction.digest] using hne

theorem heldBy_put {s s' : Trees} {now : Clock} {id : RegistryNodeId} {r : RepositoryName}
    {t : String} {d : Digest} {n : ℕ} {x : Extracted} {u : String} {voters : Finset RegistryNodeId}
    (h : applyActions s (putActions now id r t d n x u) = some s') (hid : id ∈ voters)
    (hs : ∀ (k : Kind) (e : Digest), HeldBy voters (s.tree k)[e]?) (k : Kind) (e : Digest) :
    HeldBy voters (s'.tree k)[e]? := by
  cases k with
  | manifest =>
    rcases eq_or_ne d e with rfl | hne
    · refine heldBy_insert (hs .manifest d) hid ?_
      rw [applyActions_locations h .manifest d, halves_putActions]
      simp [holdersAfter, moveHolder]
    · refine heldBy_other h (hs .manifest e) ?_
      rw [halves_putActions]
      simpa [ObjectAction.digest] using hne
  | blob =>
    refine heldBy_after h (hs .blob e) ?_
    intro op hop
    obtain ⟨a, ha, hk⟩ := List.mem_filterMap.mp hop
    simp only [putActions, Extracted.actions, List.cons_append, List.nil_append, List.mem_cons,
      List.mem_append, List.mem_mapIdx, List.not_mem_nil, or_false] at ha
    -- the only actions of a PUT about blobs are the `BlobInfo`s
    rcases ha with rfl | rfl | rfl | rfl | ⟨i, hi, rfl⟩ | rfl <;> cases hk
    exact ⟨by simp, by simp⟩

theorem heldBy_mount {s s' : Trees} {ts : DateTime} {d : Digest} {r : RepositoryName} {u : String}
    {voters : Finset RegistryNodeId} (h : applyActions s [.blobMounted ts d r u] = some s')
    (hd : s.blobs[d]? ≠ none) (hs : ∀ (k : Kind) (e : Digest), HeldBy voters (s.tree k)[e]?)
    (k : Kind) (e : Digest) : HeldBy voters (s'.tree k)[e]? := by
  cases k with
  | manifest => exact heldBy_after h (hs .manifest e) (by simp [halves, RegistryAction.half])
  | blob =>
    have hhalves : halves .blob [.blobMounted ts d r u] = [.mounted ts d r] := rfl
    rcases eq_or_ne d e with rfl | hne
    · obtain ⟨o, ho⟩ := Option.ne_none_iff_exists'.mp hd
      have hget := applyActions_get h .blob d
      have hold : (s.tree .blob)[d]? = some o := ho
      simp only [hhalves, about, ObjectAction.digest, List.filter_cons, decide_true, if_true,
        List.filter_nil, List.foldl_cons, List.foldl_nil, hold, act, Option.getD_some] at hget
      rw [hget]
      rintro _ ⟨⟩
      exact hs .blob d o ho
    · refine heldBy_other h (hs .blob e) ?_
      rw [hhalves]
      simpa [ObjectAction.digest] using hne

/-- The node that a request stores on. -/
def Request.node? : Request → Option RegistryNodeId
  | .upload id .. | .put id .. | .mirror _ id _ => some id
  | _ => none

/-- The record that a mount goes to is there. -/
def Request.FindsRecord (db : Db) : Request → Prop
  | .mount _ _ d _ => db.blobs[d]? ≠ none
  | _ => True

/-- A transaction that stores on one of the nodes, and whose mount finds its record, keeps every
    record held by them. -/
theorem heldBy_transaction {now : Clock} {dbR db : Db} {req : Request}
    {actions : List RegistryAction} (h : req.transaction now dbR = some actions)
    {nodes : Finset RegistryNodeId} (hnode : ∀ id ∈ req.node?, id ∈ nodes)
    (hfinds : req.FindsRecord db) {s' : Trees} (hacts : applyActions db.toTrees actions = some s')
    (hs : ∀ (k : Kind) (d : Digest), HeldBy nodes (db.tree k)[d]?) (k : Kind) (d : Digest) :
    HeldBy nodes (s'.tree k)[d]? := by
  rcases transaction_cases h with ⟨id, r, e, n, u, rfl, rfl⟩ | ⟨r, src, e, u, rfl, rfl⟩ |
    ⟨id, r, t, e, n, x, u, rfl, rfl⟩ | ⟨k', e, r, u, -, rfl⟩ | ⟨k', id, e, rfl, -, rfl⟩ |
    ⟨w, -, rfl⟩ | ⟨w, id, -, rfl⟩
  · exact heldBy_upload hacts (hnode id rfl) hs k d
  · exact heldBy_mount hacts hfinds hs k d
  · exact heldBy_put hacts (hnode id rfl) hs k d
  · refine heldBy_after hacts (hs k d) ?_
    intro op hop
    obtain ⟨a, ha, hk⟩ := List.mem_filterMap.mp hop
    cases List.mem_singleton.mp ha
    exact storesOnVoters_unmounted _ _ _ _ _ _ _ op hk
  · refine heldBy_after hacts (hs k d) ?_
    intro op hop
    obtain ⟨a, ha, hk⟩ := List.mem_filterMap.mp hop
    cases List.mem_singleton.mp ha
    have hid : id ∈ nodes := hnode id rfl
    cases k <;> cases k' <;> cases hk <;> refine ⟨by simp, ?_⟩ <;> rintro _ _ _ ⟨⟩ <;> exact hid
  · refine heldBy_after hacts (hs k d) ?_
    intro op hop
    obtain ⟨a, ha, hk⟩ := List.mem_filterMap.mp hop
    obtain ⟨k', e, o, r, -, -, -, -, rfl⟩ := mem_phase1 ha
    exact storesOnVoters_unmounted _ _ _ _ _ _ _ op hk
  · refine heldBy_after hacts (hs k d) ?_
    intro op hop
    obtain ⟨a, ha, hk⟩ := List.mem_filterMap.mp hop
    obtain ⟨k', e, -, rfl⟩ := mem_phase2 ha
    exact storesOnVoters_unstored _ _ _ _ _ _ _ op hk

/-- A transaction that finds what it must find keeps every record held. -/
theorem settled_transaction {now : Clock} {dbR db : Db} {req : Request}
    {actions : List RegistryAction} (h : req.transaction now dbR = some actions)
    (hset : req.Settles db) {s' : Trees} (hacts : applyActions db.toTrees actions = some s')
    (hs : Settled db) (k : Kind) (d : Digest) : HeldBy (votersOf db) (s'.tree k)[d]? := by
  refine heldBy_transaction h ?_ ?_ hacts hs k d
  · intro id hid
    cases req <;> cases hid <;> exact hset
  · cases req with
    | mount r src e u => exact hset
    | _ => trivial

/-! ### Runs -/

/-- What the replicas hold is settled. -/
def HoldsSettled (s : State) : Prop :=
  AllDecided s ∧ ∀ db, replay s.log = some db → Settled db

theorem holdsSettled_step (s : State) (e : Event) (s' : State) (hs : HoldsSettled s)
    (hg : KeepsSettled s e) (h : clusterStep s e = some s') : HoldsSettled s' := by
  refine ⟨allDecided_step s e s' hs.1 h, ?_⟩
  intro db' hdb'
  obtain ⟨db, hdb, ⟨i, leader, sub, rfl, hsub, -, hacts, hmem⟩ |
    ⟨leader, mem, rfl, htrees, hmem⟩ | ⟨-, -, htrees, hmem⟩⟩ := clusterStep_replay h hdb'
  · obtain ⟨-, now, dbR, -, hact⟩ := hs.1 sub (List.mem_of_getElem? hsub)
    intro k d
    rw [votersOf, hmem, ← votersOf]
    exact settled_transaction hact (hg sub hsub db hdb) hacts (hs.2 db hdb) k d
  · intro k d o ho
    rw [htrees] at ho
    rw [votersOf, hmem]
    exact ⟨(hs.2 db hdb k d o ho).1, hg db hdb k d o ho⟩
  · intro k d
    rw [votersOf, hmem, ← votersOf, htrees]
    exact hs.2 db hdb k d

theorem holdsSettled_init : HoldsSettled cluster.init := by
  refine ⟨allDecided_init, ?_⟩
  intro db hdb k d o ho
  obtain rfl := Option.some.inj hdb
  cases k <;> simp [Db.new, Trees.tree, Trees.empty] at ho

/-- When a transaction commits, the node that it stores on belongs to the cluster, as a voter or as a
    learner, and its mount finds its record; and a new membership keeps every node that stores
    something. -/
def KeepsHeld (s : State) : Event → Prop
  | .commit i _ => ∀ sub ∈ s.underWay[i]?, ∀ db ∈ replay s.log,
      (∀ id ∈ sub.request.node?, id ∈ memberIds db) ∧ sub.request.FindsRecord db
  | .membership _ mem => ∀ db ∈ replay s.log, ∀ (k : Kind) (d : Digest) (o : Object),
      (db.tree k)[d]? = some o → o.locations ⊆ nodeIds mem
  | _ => True

instance (db : Db) : ∀ r : Request, Decidable (r.FindsRecord db)
  | .mount _ _ d _ => inferInstanceAs (Decidable (db.blobs[d]? ≠ none))
  | .upload .. | .put .. | .delete .. | .deleteTag .. | .mirror .. | .phase1 _ | .phase2 _ _ =>
    isTrue trivial

instance (s : State) : ∀ e, Decidable (KeepsHeld s e)
  | .commit i _ => inferInstanceAs (Decidable (∀ sub ∈ s.underWay[i]?, ∀ db ∈ replay s.log,
      (∀ id ∈ sub.request.node?, id ∈ memberIds db) ∧ sub.request.FindsRecord db))
  | .membership _ mem => decidable_of_iff (∀ db ∈ replay s.log,
      (∀ p ∈ db.blobs.toList, p.2.locations ⊆ nodeIds mem) ∧
      (∀ p ∈ db.manifests.toList, p.2.locations ⊆ nodeIds mem))
      (forall_congr' fun _ => imp_congr_right fun _ => Iff.symm
        (forall_records_iff (P := fun o => o.locations ⊆ nodeIds mem)))
  | .submit .. | .lose _ | .blank _ => isTrue trivial

/-- Every record that the replicas hold has a location, and nodes of the cluster only. -/
def HoldsOnMembers (s : State) : Prop :=
  AllDecided s ∧ ∀ db, replay s.log = some db →
    ∀ (k : Kind) (d : Digest), HeldBy (memberIds db) (db.tree k)[d]?

theorem holdsOnMembers_step (s : State) (e : Event) (s' : State) (hs : HoldsOnMembers s)
    (hg : KeepsHeld s e) (h : clusterStep s e = some s') : HoldsOnMembers s' := by
  refine ⟨allDecided_step s e s' hs.1 h, ?_⟩
  intro db' hdb'
  obtain ⟨db, hdb, ⟨i, leader, sub, rfl, hsub, -, hacts, hmem⟩ |
    ⟨leader, mem, rfl, htrees, hmem⟩ | ⟨-, -, htrees, hmem⟩⟩ := clusterStep_replay h hdb'
  · obtain ⟨-, now, dbR, -, hact⟩ := hs.1 sub (List.mem_of_getElem? hsub)
    obtain ⟨hnode, hfinds⟩ := hg sub hsub db hdb
    intro k d
    rw [memberIds, hmem, ← memberIds]
    exact heldBy_transaction hact hnode hfinds hacts (hs.2 db hdb) k d
  · intro k d o ho
    rw [htrees] at ho
    rw [memberIds, hmem]
    exact ⟨(hs.2 db hdb k d o ho).1, hg db hdb k d o ho⟩
  · intro k d
    rw [memberIds, hmem, ← memberIds, htrees]
    exact hs.2 db hdb k d

theorem holdsOnMembers_init : HoldsOnMembers cluster.init := by
  refine ⟨allDecided_init, ?_⟩
  intro db hdb k d o ho
  obtain rfl := Option.some.inj hdb
  cases k <;> simp [Db.new, Trees.tree, Trees.empty] at ho

/-! ### Passes that find nothing -/

/-- An unmounted orphan gives phase 2 something to do on each of its nodes that can remove files. -/
theorem phase2_ne_nil {w : Sweep} {s : Trees} {id : RegistryNodeId} {k : Kind} {d : Digest}
    {o : Object} (ho : (s.tree k)[d]? = some o) (hlive : ¬ Live s d k) (hid : id ∈ o.locations)
    (hr : o.repositories = ∅) (hclean : w.cleanup k d = true) : w.phase2 s id ≠ [] := by
  have hdoomed : d ∈ w.doomed s k id := mem_doomed.mpr ⟨o, ho, hlive, hid, hr⟩
  have hmem : unstoredAction (w.objectNow k d) d id "$system" k ∈ w.unstores s k id :=
    List.mem_map.mpr ⟨d, List.mem_filter.mpr ⟨hdoomed, hclean⟩, rfl⟩
  intro hnil
  obtain ⟨hm, hb⟩ := List.append_eq_nil_iff.mp hnil
  cases k with
  | blob => exact List.ne_nil_of_mem hmem hb
  | manifest => exact List.ne_nil_of_mem hmem hm

/-- A voter is among the locations of every orphaned record. -/
def OrphansHeld (db : Db) : Prop :=
  ∀ (k : Kind) (d : Digest) (o : Object), (db.tree k)[d]? = some o → ¬ Live db.toTrees d k →
    ∃ n ∈ votersOf db, n ∈ o.locations

/-- COMPLETE AT THE FIXPOINT, exactly: in every reachable state in which all records are old enough,
    phase 1 finds nothing to do and phase 2, with file systems that let it remove files, finds nothing
    to do on any voter, every manifest is tagged and every blob is reachable from the dependencies of
    a manifest if and only if a voter is among the locations of every orphaned record. And this is
    so when no step of the run made a record that no node of the cluster holds, and all nodes of the
    cluster are voters now. -/
theorem fixpoint_complete_iff (es : List Event) (s : State) (db : Db)
    (hrun : cluster.run cluster.init es = some s) (hdb : replay s.log = some db)
    (w₁ : Sweep) (w₂ : RegistryNodeId → Sweep)
    (hold : ∀ (k : Kind) (d : Digest) (o : Object), (db.tree k)[d]? = some o →
      minimumGarbageAge ≤ w₁.objectNow k d - o.created)
    (hclean : ∀ n ∈ votersOf db, ∀ k d, (w₂ n).cleanup k d = true)
    (h₁ : w₁.phase1 db.toTrees = []) (h₂ : ∀ n ∈ votersOf db, (w₂ n).phase2 db.toTrees n = []) :
    (((∀ (d : Digest) (o : Object), db.manifests[d]? = some o → Tagged db.toTrees d) ∧
        ∀ (d : Digest) (o : Object), db.blobs[d]? = some o → Reachable db.toTrees d) ↔
      OrphansHeld db) ∧
    (cluster.Meets KeepsHeld cluster.init es → memberIds db ⊆ votersOf db → OrphansHeld db) := by
  refine ⟨⟨?_, ?_⟩, ?_⟩
  · rintro ⟨hmanifests, hblobs⟩ k d o ho hnot
    cases k with
    | manifest => exact absurd (hmanifests d o ho) hnot
    | blob => exact absurd (hblobs d o ho) hnot
  · intro hheld
    have hlive : ∀ (k : Kind) (d : Digest) (o : Object), (db.tree k)[d]? = some o →
        Live db.toTrees d k := by
      intro k d o ho
      by_contra hnot
      -- phase 1 has unmounted it, and one of the voters has it
      have hrepos : o.repositories = ∅ := by
        refine Finset.eq_empty_of_forall_notMem ?_
        intro r hr
        exact List.ne_nil_of_mem (mem_phase1_of_orphan ho hnot (hold k d o ho) hr) h₁
      obtain ⟨n, hn, hloc⟩ := hheld k d o ho hnot
      exact phase2_ne_nil ho hnot hloc hrepos (hclean n hn k d) (h₂ n hn)
    exact ⟨hlive .manifest, hlive .blob⟩
  · intro hkeep hvoters k d o ho _
    have hall := cluster.run_inv_of_meets holdsOnMembers_step holdsOnMembers_init hkeep hrun
    obtain ⟨hne, hsub⟩ := hall.2 db hdb k d o ho
    obtain ⟨n, hn⟩ := Finset.nonempty_iff_ne_empty.mpr hne
    exact ⟨n, hvoters (hsub hn), hn⟩

/-- The cluster grows: node 1 alone takes the upload, node 2 joins as a learner and mirrors the blob,
    becomes a voter by way of the joint membership, and takes the push. -/
def growRun : List Event :=
  [.membership ⟨1, 1⟩ ⟨[{1}], Std.ExtTreeMap.empty.insert 1 (BasicNode.mk "n1")⟩,
   .submit (.upload 1 ⟨"library/a"⟩ helloDigest 12 "alice") (ticking 10) 1, .commit 0 ⟨1, 1⟩,
   .membership ⟨1, 1⟩ { twoNodes with configs := [{1}] },
   .submit (.mirror .blob 2 helloDigest) (ticking 20) 3, .commit 0 ⟨1, 1⟩,
   .membership ⟨1, 1⟩ { twoNodes with configs := [{1}, {1, 2}] }, .membership ⟨1, 1⟩ twoNodes,
   pushBlob, .commit 0 ⟨1, 1⟩]

/-- The grown cluster has nothing to collect thirteen hours later, and both of its objects are
    live. -/
theorem fixpoint_complete_iff_growRun :
    ∃ s db, cluster.run cluster.init growRun = some s ∧ replay s.log = some db ∧
      db.manifests[emptyDigest]?.isSome ∧ Tagged db.toTrees emptyDigest ∧
      locationsOf db.blobs[helloDigest]? = {1, 2} ∧ Reachable db.toTrees helloDigest := by
  have hfacts : ((cluster.run cluster.init growRun).bind fun s => (replay s.log).map fun db =>
      decide (db.manifests[emptyDigest]?.isSome ∧ db.blobs[helloDigest]?.isSome ∧
        locationsOf db.blobs[helloDigest]? = {1, 2} ∧ memberIds db ⊆ votersOf db ∧
        ((∀ p ∈ db.blobs.toList, minimumGarbageAge ≤ thirteenHours - p.2.created) ∧
          ∀ p ∈ db.manifests.toList, minimumGarbageAge ≤ thirteenHours - p.2.created) ∧
        (plainSweep thirteenHours).phase1 db.toTrees = [] ∧
        ∀ n ∈ votersOf db, (plainSweep thirteenHours).phase2 db.toTrees n = [])) = some true := by
    decide +kernel
  simp only [Option.bind_eq_some_iff, Option.map_eq_some_iff, decide_eq_true_eq] at hfacts
  obtain ⟨s, h, db, hdb, hm, hb, hloc, hvoters, hold, h₁, h₂⟩ := hfacts
  have hall := (forall_records_iff (P := fun o =>
    minimumGarbageAge ≤ thirteenHours - o.created)).mpr hold
  obtain ⟨hiff, hheld⟩ := fixpoint_complete_iff _ s db h hdb (plainSweep thirteenHours)
    (fun _ => plainSweep thirteenHours) hall (fun _ _ _ _ => rfl) h₁ h₂
  obtain ⟨htagged, hreach⟩ := hiff.mpr (hheld (by decide +kernel) hvoters)
  obtain ⟨o, ho⟩ := Option.isSome_iff_exists.mp hm
  obtain ⟨x, hx⟩ := Option.isSome_iff_exists.mp hb
  exact ⟨s, db, h, hdb, hm, htagged _ o ho, hloc, hreach _ x hx⟩

/-- Node 2 leaves the cluster: the joint membership and the new one. -/
def leaveRun : List Event :=
  uploadRun ++
    [.membership ⟨1, 1⟩ { twoNodes with configs := [{1, 2}, {1}] },
     .membership ⟨1, 1⟩ ⟨[{1}], Std.ExtTreeMap.empty.insert 1 (BasicNode.mk "n1")⟩,
     .submit (.delete .blob ⟨"library/a"⟩ helloDigest "alice") (ticking 30) 4, .commit 0 ⟨1, 1⟩]

/-- The blob was stored on node 2 only and is deleted after node 2 has left: no pass of node 1, the
    only member, finds anything to do, and the record stays. -/
theorem leaveRun_keeps_orphan :
    ∃ s db, cluster.run cluster.init leaveRun = some s ∧ replay s.log = some db ∧
      votersOf db = {1} ∧
      (∀ (k : Kind) (d : Digest) (o : Object), (db.tree k)[d]? = some o →
        minimumGarbageAge ≤ thirteenHours - o.created) ∧
      (plainSweep thirteenHours).phase1 db.toTrees = [] ∧
      (plainSweep thirteenHours).phase2 db.toTrees 1 = [] ∧
      db.blobs[helloDigest]?.isSome ∧ ¬ Reachable db.toTrees helloDigest := by
  have hfacts : ((cluster.run cluster.init leaveRun).bind fun s => (replay s.log).map fun db =>
      decide (votersOf db = {1} ∧
        ((∀ p ∈ db.blobs.toList, minimumGarbageAge ≤ thirteenHours - p.2.created) ∧
          ∀ p ∈ db.manifests.toList, minimumGarbageAge ≤ thirteenHours - p.2.created) ∧
        (plainSweep thirteenHours).phase1 db.toTrees = [] ∧
        (plainSweep thirteenHours).phase2 db.toTrees 1 = [] ∧
        db.blobs[helloDigest]?.isSome ∧
        ((plainSweep thirteenHours).orphans db.toTrees .blob)[helloDigest]?.isSome)) =
          some true := by
    decide +kernel
  simp only [Option.bind_eq_some_iff, Option.map_eq_some_iff, decide_eq_true_eq] at hfacts
  obtain ⟨s, h, db, hdb, hvoters, hold, h₁, h₂, hb, horphan⟩ := hfacts
  obtain ⟨o, ho⟩ := Option.isSome_iff_exists.mp horphan
  exact ⟨s, db, h, hdb, hvoters, forall_records_iff.mpr hold, h₁, h₂, hb,
    ((orphans_get _ _ .blob _ _).mp ho).2⟩

end Distribd.Cluster
