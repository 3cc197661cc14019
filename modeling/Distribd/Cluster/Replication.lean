import Distribd.Cluster.Refetch
import Distribd.Registry.Read

/-! Where the mirrors lead. Every node downloads what other members have and it has not, and announces
    each copy with a transaction. The nodes look at different times, announce in any order, and may
    announce a copy twice, if a download is finished before the announcement of an earlier one has
    come back. From a point on where only the mirrors work, no announcement fails, none makes new
    work, and all that ever changes is that copies are added; nothing is missing any more exactly when
    each object that some member had is on every member, whatever happened in between.

    Whether it comes to that is up to the peers. One that lacks the file, or the size or the content
    type of the object, answers 404, again and again. What somebody can hand out gets everywhere with
    one download for each missing copy (`replicates`). -/

namespace Distribd.Cluster
open Schemes Store Distribd.Registry

/-! ### Copies -/

/-- A copy of an object: its kind, its digest, and the node that has it. -/
abbrev Copy := Kind × Digest × RegistryNodeId

/-- A member has the object. -/
def Available (db : Db) (k : Kind) (d : Digest) : Prop :=
  ∃ m ∈ memberIds db, m ∈ locationsOf (db.tree k)[d]?

/-- The mirrors download what is available and not there yet. -/
theorem wantsTransfer_iff {db : Db} {k : Kind} {n : RegistryNodeId} {d : Digest} :
    wantsTransfer db k n d = true ↔ n ∉ locationsOf (db.tree k)[d]? ∧ Available db k d := by
  unfold wantsTransfer Available memberIds nodeIds
  cases (db.tree k)[d]? with
  | none => simp [locationsOf]
  | some o =>
    simp only [locationsOf, Option.elim_some, Bool.and_eq_true, decide_eq_true_eq, List.any_eq_true,
      List.mem_toFinset]
    constructor
    · rintro ⟨⟨hn, -⟩, m, hm, hmem⟩
      exact ⟨hn, m, hm, hmem⟩
    · rintro ⟨hn, m, hm, hmem⟩
      exact ⟨⟨hn, Finset.ne_empty_of_mem hmem⟩, m, hm, hmem⟩

/-- The copies that members are still to make. -/
def missing (db : Db) : Finset Copy :=
  ([Kind.blob, .manifest].flatMap fun k => (db.tree k).keys.flatMap fun d =>
    (db.getLastMembership.membership.nodes.keys.filter (wantsTransfer db k · d)).map
      fun n => (k, d, n)).toFinset

theorem mem_missing {db : Db} {k : Kind} {d : Digest} {n : RegistryNodeId} :
    (k, d, n) ∈ missing db ↔
      n ∈ memberIds db ∧ n ∉ locationsOf (db.tree k)[d]? ∧ Available db k d := by
  have hkeys : Available db k d → d ∈ (db.tree k).keys := by
    rintro ⟨m, -, hm⟩
    rw [Std.ExtTreeMap.mem_keys, Std.ExtTreeMap.mem_iff_isSome_getElem?]
    cases ho : (db.tree k)[d]? with
    | none => simp [ho, locationsOf] at hm
    | some o => rfl
  have hkind : k ∈ [Kind.blob, .manifest] := by cases k <;> simp
  simp only [missing, List.mem_toFinset, List.mem_flatMap, List.mem_map, List.mem_filter,
    wantsTransfer_iff, memberIds, nodeIds, Prod.mk.injEq]
  constructor
  · rintro ⟨k', -, d', -, n', ⟨hn', hwants⟩, rfl, rfl, rfl⟩
    exact ⟨hn', hwants⟩
  · rintro ⟨hn, hnot, havail⟩
    exact ⟨k, hkind, d, hkeys havail, n, ⟨hn, hnot, havail⟩, rfl, rfl, rfl⟩

/-- The copies that the `*Stored` actions of a log announce. -/
def copiesIn (actions : List RegistryAction) : Finset Copy :=
  (actions.filterMap fun
    | .blobStored _ d n _ => some (.blob, d, n)
    | .manifestStored _ d n _ => some (.manifest, d, n)
    | _ => none).toFinset

theorem copiesIn_append (actions actions' : List RegistryAction) :
    copiesIn (actions ++ actions') = copiesIn actions ∪ copiesIn actions' := by
  simp [copiesIn, List.filterMap_append]

theorem copiesIn_stored (ts : DateTime) (d : Digest) (n : RegistryNodeId) (u : String) (k : Kind) :
    copiesIn [storedAction ts d n u k] = {(k, d, n)} := by
  cases k <;> rfl

/-- The nodes of the copies of one object. -/
def nodesOf (copies : Finset Copy) (k : Kind) (d : Digest) : Finset RegistryNodeId :=
  (copies.filter fun c => c.1 = k ∧ c.2.1 = d).image (·.2.2)

@[simp] theorem mem_nodesOf {copies : Finset Copy} {k : Kind} {d : Digest} {n : RegistryNodeId} :
    n ∈ nodesOf copies k d ↔ (k, d, n) ∈ copies := by
  simp only [nodesOf, Finset.mem_image, Finset.mem_filter, Prod.exists]
  constructor
  · rintro ⟨k', d', n', ⟨hmem, rfl, rfl⟩, rfl⟩
    exact hmem
  · intro hmem
    exact ⟨k, d, n, ⟨hmem, rfl, rfl⟩, rfl⟩

/-! ### One database with more copies -/

/-- The second database is the first one, and these copies more. -/
structure Mirrored (db db' : Db) (copies : Finset Copy) : Prop where
  tags : db'.tags = db.tags
  membership : db'.getLastMembership = db.getLastMembership
  absent : ∀ (k : Kind) (d : Digest), (db.tree k)[d]? = none → (db'.tree k)[d]? = none
  present : ∀ (k : Kind) (d : Digest) (o : Object), (db.tree k)[d]? = some o →
    ∃ updated, (db'.tree k)[d]? =
      some { o with updated, locations := o.locations ∪ nodesOf copies k d }
  sound : ∀ (k : Kind) (d : Digest) (n : RegistryNodeId), (k, d, n) ∈ copies →
    Available db k d ∧ n ∈ memberIds db

theorem Mirrored.refl (db : Db) : Mirrored db db ∅ where
  tags := rfl
  membership := rfl
  absent _ _ h := h
  present k d o h := ⟨o.updated, by simp [h, nodesOf]⟩
  sound _ _ _ h := absurd h (Finset.notMem_empty _)

theorem Mirrored.memberIds {db db' : Db} {copies : Finset Copy} (h : Mirrored db db' copies) :
    memberIds db' = memberIds db := by
  rw [Cluster.memberIds, Cluster.memberIds, h.membership]

theorem Mirrored.locations {db db' : Db} {copies : Finset Copy} (h : Mirrored db db' copies)
    (k : Kind) (d : Digest) :
    locationsOf (db'.tree k)[d]? = locationsOf (db.tree k)[d]? ∪ nodesOf copies k d := by
  cases ho : (db.tree k)[d]? with
  | some o =>
    obtain ⟨updated, ho'⟩ := h.present k d o ho
    rw [ho']
    rfl
  | none =>
    have hnone : nodesOf copies k d = ∅ := by
      refine Finset.eq_empty_of_forall_notMem ?_
      intro n hn
      obtain ⟨⟨m, -, hm⟩, -⟩ := h.sound k d n (mem_nodesOf.mp hn)
      simp [ho, locationsOf] at hm
    rw [h.absent k d ho, hnone]
    rfl

/-- The copies are made by members of objects that members had, so nothing gets available. -/
theorem Mirrored.available {db db' : Db} {copies : Finset Copy} (h : Mirrored db db' copies)
    {k : Kind} {d : Digest} : Available db' k d ↔ Available db k d := by
  unfold Available
  rw [h.memberIds, h.locations]
  constructor
  · rintro ⟨m, hm, hmem⟩
    rcases Finset.mem_union.mp hmem with hmem | hmem
    · exact ⟨m, hm, hmem⟩
    · exact (h.sound k d m (mem_nodesOf.mp hmem)).1
  · rintro ⟨m, hm, hmem⟩
    exact ⟨m, hm, Finset.mem_union_left _ hmem⟩

/-- What has been announced is no longer missing, and nothing else. -/
theorem Mirrored.missing {db db' : Db} {copies : Finset Copy} (h : Mirrored db db' copies) :
    missing db' = missing db \ copies := by
  ext ⟨k, d, n⟩
  rw [Finset.mem_sdiff, mem_missing, mem_missing, h.memberIds, h.available, h.locations]
  simp only [Finset.mem_union, mem_nodesOf, not_or]
  tauto

/-- An announcement of an object that a member has goes through, and adds its copy. -/
theorem Mirrored.announce {db db' : Db} {copies : Finset Copy} (h : Mirrored db db' copies)
    {k : Kind} {d : Digest} {n : RegistryNodeId} (havail : Available db k d)
    (hn : n ∈ Cluster.memberIds db) (ts : DateTime) (u : String) :
    ∃ trees, applyActions db'.toTrees [storedAction ts d n u k] = some trees ∧
      ∀ db'' : Db, db''.toTrees = trees → db''.getLastMembership = db'.getLastMembership →
        Mirrored db db'' (insert (k, d, n) copies) := by
  have hsome : (applyActions db'.toTrees [storedAction ts d n u k]).isSome := by
    obtain ⟨m, -, hm⟩ := h.available.mpr havail
    refine (mirror_isSome_iff ts d n u k _).mpr ?_
    intro hnone
    have hnone' : (db'.tree k)[d]? = none := hnone
    simp [hnone', locationsOf] at hm
  obtain ⟨trees, htrees⟩ := Option.isSome_iff_exists.mp hsome
  refine ⟨trees, htrees, ?_⟩
  rintro db'' rfl hmembership
  have hhalves : ∀ k', halves k' [storedAction ts d n u k] =
      if k = k' then [.stored ts d n] else [] := by
    intro k'
    cases k <;> cases k' <;> rfl
  have hget : ∀ (k' : Kind) (e : Digest), (db''.tree k')[e]? =
      if k = k' ∧ d = e then act (db'.tree k')[e]? (.stored ts d n) else (db'.tree k')[e]? := by
    intro k' e
    rw [applyActions_get htrees k' e, hhalves]
    by_cases hk : k = k' <;> by_cases hd : d = e <;> simp [about, ObjectAction.digest, hk, hd]
  refine ⟨?_, hmembership.trans h.membership, ?_, ?_, ?_⟩
  · refine (applyActions_tags_of_untagging htrees ?_).trans h.tags
    intro a ha ts' d' r t u' heq
    rw [List.mem_singleton.mp ha] at heq
    cases k <;> cases heq
  · intro k' e hnone
    rw [hget, h.absent k' e hnone]
    split <;> rfl
  · intro k' e o ho
    obtain ⟨updated, ho'⟩ := h.present k' e o ho
    rw [hget, ho']
    split
    · rename_i heq
      obtain ⟨rfl, rfl⟩ := heq
      refine ⟨ts, ?_⟩
      simp only [act, Option.map_some]
      congr 2
      ext m
      simp only [Finset.mem_insert, Finset.mem_union, mem_nodesOf, Prod.mk.injEq, true_and]
      tauto
    · rename_i hne
      refine ⟨updated, ?_⟩
      congr 3
      ext m
      simp only [mem_nodesOf, Finset.mem_insert, Prod.mk.injEq]
      constructor
      · exact .inr
      · rintro (⟨rfl, rfl, -⟩ | hmem)
        · exact absurd ⟨rfl, rfl⟩ hne
        · exact hmem
  · intro k' e m hmem
    rcases Finset.mem_insert.mp hmem with heq | hmem
    · cases heq
      exact ⟨havail, hn⟩
    · exact h.sound k' e m hmem

/-! ### Runs of the mirrors -/

/-- The transaction announces a copy on a member of an object that a member has. -/
def Announces (db : Db) (sub : Submission) : Prop :=
  ∃ k d n ts u, sub.actions = [storedAction ts d n u k] ∧ Available db k d ∧ n ∈ memberIds db

/-- The mirror of a member that has applied the first `start` entries; besides it, transactions under
    way commit or get lost, and leaders change. -/
def OnlyMirrors (db : Db) (start : ℕ) : Event → Prop
  | .submit (.mirror _ n _) _ readAt => n ∈ memberIds db ∧ start ≤ readAt
  | .submit _ _ _ | .membership _ _ => False
  | _ => True

/-- At every point since, the copies announced have been added, and nothing else has changed. -/
structure Converging (db : Db) (log : List Entry) (s : State) : Prop where
  grown : log <+: s.log
  cuts : ∀ cut, log <+: cut → cut <+: s.log → ∃ db', replay cut = some db' ∧
    Mirrored db db' (copiesIn (actionsOf (cut.drop log.length)))
  underWay : ∀ sub ∈ s.underWay, Announces db sub

/-- A new entry, on the state that the log stands for. -/
theorem Converging.entry {db : Db} {log : List Entry} {s : State} (h : Converging db log s)
    {entry : Entry} {underWay : List Submission} (hunder : ∀ sub ∈ underWay, Announces db sub)
    (hentry : ∀ db₁ copies, replay s.log = some db₁ → Mirrored db db₁ copies →
      ∃ db₂, applyEntry db₁ entry = some db₂ ∧
        Mirrored db db₂ (copies ∪ copiesIn entry.actions)) :
    Converging db log ⟨s.log ++ [entry], underWay⟩ := by
  refine ⟨h.grown.trans (List.prefix_append _ _), ?_, hunder⟩
  intro cut hlow hhigh
  rcases List.prefix_concat_iff.mp hhigh with rfl | hhigh
  · obtain ⟨db₁, hdb₁, hmirrored⟩ := h.cuts s.log h.grown (List.prefix_refl _)
    obtain ⟨db₂, hdb₂, hmirrored₂⟩ := hentry db₁ _ hdb₁ hmirrored
    refine ⟨db₂, by rw [replay_snoc, hdb₁]; exact hdb₂, ?_⟩
    rw [List.drop_append_of_le_length h.grown.length_le, actionsOf, List.flatMap_append,
      copiesIn_append]
    simpa [actionsOf] using hmirrored₂
  · exact h.cuts cut hlow hhigh

/-- STEP: the mirrors add copies. -/
theorem converging_step {db : Db} {log : List Entry} (s : State) (e : Event) (s' : State)
    (hs : Converging db log s) (he : OnlyMirrors db log.length e) (h : clusterStep s e = some s') :
    Converging db log s' := by
  cases e with
  | submit request now readAt =>
    cases request <;> try exact he.elim
    rename_i k n d
    obtain ⟨hn, hstart⟩ := he
    simp only [clusterStep] at h
    split at h
    case isFalse => cases h
    case isTrue hle =>
      obtain ⟨dbR, hdbR, h⟩ := Option.bind_eq_some_iff.mp h
      obtain ⟨actions, hactions, rfl⟩ := Option.map_eq_some_iff.mp h
      -- the node sees the copies so far, or some of them
      have hlow : log <+: s.log.take readAt :=
        List.prefix_take_iff.mpr ⟨hs.grown, hstart⟩
      obtain ⟨db₁, hdb₁, hmirrored⟩ := hs.cuts _ hlow (List.take_prefix _ _)
      obtain rfl := Option.some.inj (hdbR.symm.trans hdb₁)
      simp only [Request.transaction, mirrorActions] at hactions
      split at hactions
      case isFalse => cases hactions
      case isTrue hwants =>
        refine ⟨hs.grown, hs.cuts, ?_⟩
        intro sub hsub
        rcases List.mem_append.mp hsub with hsub | hsub
        · exact hs.underWay sub hsub
        · obtain rfl := List.mem_singleton.mp hsub
          have havail := (wantsTransfer_iff.mp hwants).2
          exact ⟨k, d, n, now 0, "$internal", (Option.some.inj hactions).symm,
            hmirrored.available.mp havail, hn⟩
  | commit i leader =>
    obtain ⟨sub, hsub, rfl⟩ := Option.map_eq_some_iff.mp h
    obtain ⟨k, d, n, ts, u, hactions, havail, hn⟩ := hs.underWay sub (List.mem_of_getElem? hsub)
    refine hs.entry (fun sub hsub => hs.underWay sub (List.mem_of_mem_eraseIdx hsub)) ?_
    intro db₁ copies _ hmirrored
    obtain ⟨trees, htrees, hafter⟩ := hmirrored.announce havail hn ts u
    refine ⟨{ db₁ with toTrees := trees, lastAppliedLog := some ⟨leader, s.log.length⟩ }, ?_, ?_⟩
    · simp [applyEntry, nextEntry, hactions, htrees]
    · have hentry : copiesIn (nextEntry s.log leader
          (.normal (.transaction sub.actions))).actions = {(k, d, n)} := by
        rw [nextEntry, Entry.actions, hactions, copiesIn_stored]
      rw [hentry, Finset.union_comm]
      exact hafter _ rfl rfl
  | lose i =>
    simp only [clusterStep] at h
    split at h
    case isFalse => cases h
    case isTrue =>
      obtain rfl := Option.some.inj h
      exact ⟨hs.grown, hs.cuts, fun sub hsub => hs.underWay sub (List.mem_of_mem_eraseIdx hsub)⟩
  | blank leader =>
    obtain rfl := Option.some.inj h
    refine hs.entry hs.underWay ?_
    intro db₁ copies _ hmirrored
    refine ⟨{ db₁ with lastAppliedLog := some ⟨leader, s.log.length⟩ }, rfl, ?_⟩
    have hcopies : copies ∪ copiesIn (nextEntry s.log leader .blank).actions = copies :=
      Finset.union_empty _
    rw [hcopies]
    exact ⟨hmirrored.tags, hmirrored.membership, hmirrored.absent, hmirrored.present,
      hmirrored.sound⟩
  | membership leader mem => exact he.elim

/-- RUN: so they do in every run of theirs. -/
theorem converging_run {db : Db} {log : List Entry} {es : List Event} {s s' : State}
    (hs : Converging db log s) (hes : ∀ e ∈ es, OnlyMirrors db log.length e)
    (h : cluster.run s es = some s') : Converging db log s' :=
  cluster.run_inv_of_meets converging_step hs (cluster.meets_of_forall hes) h

theorem converging_start {s : State} {db : Db} (hdb : replay s.log = some db)
    (hunder : ∀ sub ∈ s.underWay, Announces db sub) : Converging db s.log s := by
  refine ⟨List.prefix_refl _, ?_, hunder⟩
  intro cut hlow hhigh
  obtain rfl := hlow.eq_of_length (le_antisymm hlow.length_le hhigh.length_le)
  refine ⟨db, hdb, ?_⟩
  rw [List.drop_length]
  exact .refl db

/-! ### At rest -/

/-- Which files the members have. -/
abbrev Disks := RegistryNodeId → Kind → Digest → Bool

/-- A member that sees this state answers a peer that asks for the object. -/
def HandedOut (disks : Disks) (db : Db) (k : Kind) (d : Digest) : Prop :=
  ∃ m ∈ memberIds db, (peerGet ⟨m, db.toTrees, disks m, .ascending⟩ k d).status = 200

instance (disks : Disks) (db : Db) (k : Kind) (d : Digest) : Decidable (HandedOut disks db k d) :=
  inferInstanceAs (Decidable (∃ m ∈ memberIds db, _ = _))

theorem handedOut_iff {disks : Disks} {db : Db} {k : Kind} {d : Digest} :
    HandedOut disks db k d ↔ ∃ m ∈ memberIds db, ∃ o, (db.tree k)[d]? = some o ∧
      m ∈ o.locations ∧ Servable k o ∧ disks m k d = true := by
  simp only [HandedOut, peerGet_status_iff]

/-- Each download is answered: when the mirror looks, a member has the object to hand out. -/
def Downloads (disks : Disks) (s : State) : Event → Prop
  | .submit (.mirror k _ d) _ readAt => ∀ db ∈ replay (s.log.take readAt), HandedOut disks db k d
  | _ => True

/-- The missing copies of what can be handed out. -/
def inReach (disks : Disks) (db : Db) : Finset Copy :=
  (missing db).filter fun c => HandedOut disks db c.1 c.2.1

theorem mem_inReach {disks : Disks} {db : Db} {c : Copy} :
    c ∈ inReach disks db ↔ c ∈ missing db ∧ HandedOut disks db c.1 c.2.1 := Finset.mem_filter

/-- With more copies of what can be handed out, the same can be handed out. -/
theorem Mirrored.handedOut {disks : Disks} {db db' : Db} {copies : Finset Copy}
    (h : Mirrored db db' copies) (hcopies : ∀ c ∈ copies, HandedOut disks db c.1 c.2.1) {k : Kind}
    {d : Digest} : HandedOut disks db' k d ↔ HandedOut disks db k d := by
  rw [handedOut_iff, handedOut_iff, h.memberIds]
  constructor
  · rintro ⟨m, hm, o', ho', hmem, hservable, hfile⟩
    cases ho : (db.tree k)[d]? with
    | none =>
      rw [h.absent k d ho] at ho'
      cases ho'
    | some o =>
      obtain ⟨updated, hafter⟩ := h.present k d o ho
      obtain rfl := Option.some.inj (hafter.symm.trans ho')
      rcases Finset.mem_union.mp hmem with hmem | hmem
      · exact ⟨m, hm, o, rfl, hmem, hservable, hfile⟩
      · -- a new copy is of something that was handed out before
        simpa only [handedOut_iff, ho] using hcopies _ (mem_nodesOf.mp hmem)
  · rintro ⟨m, hm, o, ho, hmem, hservable, hfile⟩
    obtain ⟨updated, hafter⟩ := h.present k d o ho
    exact ⟨m, hm, _, hafter, Finset.mem_union_left _ hmem, hservable, hfile⟩

/-- A missing copy of what a member hands out can be made. -/
theorem fetch {disks : Disks} {db : Db} {log : List Entry} {s : State} (hs : Converging db log s)
    {db₁ : Db} (hdb₁ : replay s.log = some db₁) {c : Copy} (hc : c ∈ inReach disks db₁) :
    ∃ es s' db₂, (∀ e ∈ es, OnlyMirrors db log.length e) ∧ cluster.Meets (Downloads disks) s es ∧
      es.length = 2 ∧ cluster.run s es = some s' ∧ replay s'.log = some db₂ ∧
      Mirrored db₁ db₂ {c} := by
  obtain ⟨k, d, n⟩ := c
  obtain ⟨hc, hanswer⟩ := mem_inReach.mp hc
  obtain ⟨hn, hnot, havail⟩ := mem_missing.mp hc
  obtain ⟨db₁', hdb₁', hmirrored⟩ := hs.cuts s.log hs.grown (List.prefix_refl _)
  obtain rfl := Option.some.inj (hdb₁.symm.trans hdb₁')
  have hwants := wantsTransfer_iff.mpr ⟨hnot, havail⟩
  have hsubmit : clusterStep s (.submit (.mirror k n d) (fun _ => 0) s.log.length) =
      some ⟨s.log, s.underWay ++
        [⟨.mirror k n d, s.log.length, [storedAction 0 d n "$internal" k]⟩]⟩ := by
    simp [clusterStep, hdb₁, Request.transaction, mirrorActions, hwants]
  have hcommit : clusterStep ⟨s.log, s.underWay ++
      [⟨.mirror k n d, s.log.length, [storedAction 0 d n "$internal" k]⟩]⟩
        (.commit s.underWay.length ⟨0, 0⟩) =
      some ⟨s.log ++ [nextEntry s.log ⟨0, 0⟩
        (.normal (.transaction [storedAction 0 d n "$internal" k]))], s.underWay⟩ := by
    simp [clusterStep, List.eraseIdx_append_of_length_le]
  obtain ⟨trees, htrees, hafter⟩ := (Mirrored.refl db₁).announce havail hn 0 "$internal"
  have hnext := hafter
    { db₁ with toTrees := trees, lastAppliedLog := some ⟨⟨0, 0⟩, s.log.length⟩ } rfl rfl
  refine ⟨[.submit (.mirror k n d) (fun _ => 0) s.log.length, .commit s.underWay.length ⟨0, 0⟩],
    ⟨s.log ++ [nextEntry s.log ⟨0, 0⟩ (.normal (.transaction [storedAction 0 d n "$internal" k]))],
      s.underWay⟩, { db₁ with toTrees := trees, lastAppliedLog := some ⟨⟨0, 0⟩, s.log.length⟩ },
    ?_, ?_, rfl, ?_, ?_, hnext⟩
  · intro e he
    rcases List.mem_cons.mp he with rfl | he
    · exact ⟨hmirrored.memberIds ▸ hn, hs.grown.length_le⟩
    · rw [List.mem_singleton.mp he]
      trivial
  · refine ⟨?_, ?_⟩
    · rw [Downloads, List.take_length, hdb₁]
      rintro db₂ ⟨⟩
      exact hanswer
    · intro t ht
      exact ⟨trivial, fun _ _ => trivial⟩
  · rw [Machine.run_cons, show cluster.step = clusterStep from rfl, hsubmit, Option.bind_some,
      Machine.run_single]
    exact hcommit
  · simp [replay_snoc, hdb₁, applyEntry, nextEntry, htrees]

/-- From every state the mirrors can get so far that nothing is missing but what nobody hands out,
    with one download for each of the other copies. -/
theorem fetch_all {disks : Disks} {db : Db} {log : List Entry} {s : State}
    (hs : Converging db log s) {db₁ : Db} (hdb₁ : replay s.log = some db₁) :
    ∃ es s' db₂, (∀ e ∈ es, OnlyMirrors db log.length e) ∧ cluster.Meets (Downloads disks) s es ∧
      es.length = 2 * (inReach disks db₁).card ∧ cluster.run s es = some s' ∧
      replay s'.log = some db₂ ∧ missing db₂ = missing db₁ \ inReach disks db₁ := by
  induction hcard : (inReach disks db₁).card generalizing s db₁ with
  | zero =>
    refine ⟨[], s, db₁, by simp, trivial, rfl, rfl, hdb₁, ?_⟩
    rw [Finset.card_eq_zero.mp hcard, Finset.sdiff_empty]
  | succ m ih =>
    obtain ⟨c, hc⟩ := Finset.card_pos.mp (by omega : 0 < (inReach disks db₁).card)
    obtain ⟨es, s', db₂, hes, hdown, hlength, hrun, hdb₂, hmirrored⟩ := fetch hs hdb₁ hc
    have hmissing : missing db₂ = (missing db₁).erase c := by
      rw [hmirrored.missing, Finset.sdiff_singleton_eq_erase]
    have hreach : inReach disks db₂ = (inReach disks db₁).erase c := by
      have hsame : ∀ k d, HandedOut disks db₂ k d ↔ HandedOut disks db₁ k d := by
        intro k d
        refine hmirrored.handedOut fun c' hc' => ?_
        rw [Finset.mem_singleton.mp hc']
        exact (mem_inReach.mp hc).2
      ext ⟨k, d, n⟩
      rw [Finset.mem_erase, mem_inReach, mem_inReach, hmissing, Finset.mem_erase, hsame, and_assoc]
    have hless : (inReach disks db₂).card = m := by
      rw [hreach, Finset.card_erase_of_mem hc]
      omega
    obtain ⟨rest, s'', db₃, hrest, hdown', hlength', hrun', hdb₃, hnone⟩ :=
      ih (converging_run hs hes hrun) hdb₂ hless
    refine ⟨es ++ rest, s'', db₃, ?_, ?_, ?_, ?_, hdb₃, ?_⟩
    · intro e he
      rcases List.mem_append.mp he with he | he
      · exact hes e he
      · exact hrest e he
    · refine cluster.meets_append hdown fun t ht => ?_
      obtain rfl := Option.some.inj (hrun.symm.trans ht)
      exact hdown'
    · rw [List.length_append]
      omega
    · rw [Machine.run_append, hrun]
      exact hrun'
    · rw [hnone, hmissing, hreach]
      ext c'
      simp only [Finset.mem_sdiff, Finset.mem_erase, not_and]
      constructor
      · rintro ⟨⟨hne, hin⟩, hout⟩
        exact ⟨hin, hout hne⟩
      · rintro ⟨hin, hout⟩
        refine ⟨⟨?_, hin⟩, fun _ => hout⟩
        rintro rfl
        exact hout hc

/-- The mirror of node 1 announces its copy twice, since the first announcement is not back yet. -/
def announceTwice : List Event :=
  [.submit (.mirror .blob 1 helloDigest) (ticking 20) 2,
   .submit (.mirror .blob 1 helloDigest) (ticking 30) 2, .commit 0 ⟨1, 2⟩, .commit 0 ⟨1, 2⟩]

end Distribd.Cluster
