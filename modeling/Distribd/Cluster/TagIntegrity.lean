import Distribd.Store.Tags
import Distribd.Cluster.Crash
import Distribd.Cluster.Collect

/-! Do tags lead somewhere? A manifest PUT mounts the manifest in the repository of the tag it sets,
    and a collector that works undisturbed takes no tagged manifest. The two DELETE handlers do: they
    unmount the manifest and leave every tag of the repository that names it where it is, since no
    action removes a tag. DELETE by tag does so by definition, and the tag that it deletes stays
    listed; DELETE by digest does so when the manifest is tagged. Apart from these, every tag leads
    to a manifest that is mounted in its repository (`tag_integrity_iff`). -/

namespace Distribd.Cluster
open Schemes Store

/-! ### Tags that lead to a manifest -/

/-- The manifest is there and mounted in the repository of the tag. -/
def Resolves (s : Trees) (key : TagKey) (d : Digest) : Prop :=
  ∃ o, s.manifests[d]? = some o ∧ key.repository ∈ o.repositories

/-- Every tag leads to a manifest that is mounted in its repository. -/
def TagsResolve (s : Trees) : Prop := ∀ (key : TagKey) (d : Digest),
  s.tags[key]? = some d → Resolves s key d

/-- Every manifest has a content type and a size. -/
def Described (s : Trees) : Prop := ∀ (d : Digest) (o : Object),
  s.manifests[d]? = some o → o.contentType.isSome ∧ o.size.isSome

/-- Then every listed tag can be pulled. -/
theorem getByTag_isSome {s : Trees} (htags : TagsResolve s) (hdescribed : Described s)
    {r : RepositoryName} {t : String} (h : t ∈ getTags s r) : (getByTag s r t).isSome := by
  obtain ⟨d, hd⟩ := mem_getTags.mp h
  obtain ⟨o, ho, hr⟩ := htags ⟨r, t⟩ d hd
  obtain ⟨hct, hsize⟩ := hdescribed d o ho
  obtain ⟨ct, hct⟩ := Option.isSome_iff_exists.mp hct
  obtain ⟨n, hsize⟩ := Option.isSome_iff_exists.mp hsize
  simp [getByTag, hd, ho, hct, hsize, show r ∈ o.repositories from hr]

/-! ### The condition -/

/-- What a request must find when its transaction commits: a DELETE by digest no tag of the
    repository on the manifest; and a DELETE by tag must not commit. -/
def Request.LeavesTags (s : Trees) : Request → Prop
  | .delete .manifest r d _ => ∀ t, getTag s r t ≠ some d
  | .deleteTag .. => False
  | _ => True

/-- The condition at an event. -/
def KeepsTags (s : State) : Event → Prop
  | .commit i _ => ∀ sub ∈ s.underWay[i]?, ∀ db ∈ replay s.log, sub.request.LeavesTags db.toTrees
  | _ => True

instance (s : Trees) (r : RepositoryName) (d : Digest) : Decidable (∀ t, getTag s r t ≠ some d) :=
  decidable_of_iff (∀ p ∈ s.tags.toList, p.1.repository = r → p.2 ≠ d) (by
    simp only [Prod.forall, Std.ExtTreeMap.mem_toList_iff_getElem?_eq_some, getTag]
    constructor
    · intro h t ht
      exact h ⟨r, t⟩ d ht rfl rfl
    · rintro h ⟨r, t⟩ d hd rfl rfl
      exact h t hd)

instance (s : Trees) : ∀ r : Request, Decidable (r.LeavesTags s)
  | .delete .manifest r d _ => inferInstanceAs (Decidable (∀ t, getTag s r t ≠ some d))
  | .deleteTag .. => isFalse id
  | .delete .blob .. | .upload .. | .mount .. | .put .. | .mirror .. | .phase1 _ | .phase2 _ _ =>
    isTrue trivial

instance (s : State) : ∀ e, Decidable (KeepsTags s e)
  | .commit i _ => inferInstanceAs (Decidable
      (∀ sub ∈ s.underWay[i]?, ∀ db ∈ replay s.log, sub.request.LeavesTags db.toTrees))
  | .submit .. | .lose _ | .blank _ | .membership .. => isTrue trivial

/-! ### One transaction -/

/-- The action neither drops a location of `d` nor unmounts it from the repository. -/
def Spares (r : RepositoryName) (d : Digest) (op : ObjectAction) : Prop :=
  (∀ ts l, op ≠ .unstored ts d l) ∧ ∀ ts, op ≠ .unmounted ts d r

/-- A tag keeps leading to a manifest that every action of the transaction spares. -/
theorem resolves_of_spared {s s' : Trees} {actions : List RegistryAction}
    (h : applyActions s actions = some s') {key : TagKey} {d : Digest} (hres : Resolves s key d)
    (hops : ∀ op ∈ halves .manifest actions, Spares key.repository d op) : Resolves s' key d := by
  refine record_inv h .manifest d
    (P := fun o => ∃ x, o = some x ∧ key.repository ∈ x.repositories) hops hres ?_
  rintro o op ⟨x, rfl, hx⟩ ⟨hstore, hmount⟩ hd -
  cases op with
  | unstored ts e l =>
    obtain rfl : e = d := hd
    exact absurd rfl (hstore ts l)
  | unmounted ts e r =>
    obtain rfl : e = d := hd
    refine ⟨_, rfl, Finset.mem_erase.mpr ⟨?_, hx⟩⟩
    rintro rfl
    exact hmount ts rfl
  | mounted ts e r => exact ⟨_, rfl, Finset.mem_insert_of_mem hx⟩
  | stored ts e l => exact ⟨_, rfl, hx⟩
  | info ts e ds ct => exact ⟨_, rfl, hx⟩
  | stat ts e n => exact ⟨_, rfl, hx⟩

theorem tagsResolve_put {s s' : Trees} {now : Clock} {id : RegistryNodeId} {r : RepositoryName}
    {t : String} {d : Digest} {n : ℕ} {x : Extracted} {u : String}
    (h : applyActions s (putActions now id r t d n x u) = some s') (hs : TagsResolve s) :
    TagsResolve s' := by
  intro key e hkey
  rw [put_tags h, Std.ExtTreeMap.getElem?_insert] at hkey
  split at hkey
  case isTrue heq =>
    obtain rfl := Std.LawfulEqOrd.eq_of_compare heq
    obtain rfl := Option.some.inj hkey
    obtain ⟨-, o, ho, -, -, -, hr, -⟩ := put_manifests h
    exact ⟨o, ho, hr⟩
  case isFalse =>
    refine resolves_of_spared h (hs key e hkey) ?_
    intro op hop
    rw [halves_putActions] at hop
    simp only [List.mem_cons, List.not_mem_nil, or_false] at hop
    rcases hop with rfl | rfl | rfl | rfl <;> exact ⟨by simp, by simp⟩

theorem spares_of_not_drops {a : RegistryAction} {op : ObjectAction} {r : RepositoryName}
    {d : Digest} (hk : a.half .manifest = some op) (h : ¬ Drops a .manifest d) : Spares r d op := by
  constructor
  · rintro ts l rfl
    exact h (.inr ⟨ts, l, hk⟩)
  · rintro ts rfl
    exact h (.inl ⟨ts, r, hk⟩)

/-- A request other than a PUT spares the manifest of a tag: what a pass of the collector drops was
    untagged in the state that it read, and a DELETE finds no tag of its repository. -/
theorem spares_transaction {now : Clock} {dbR db : Db} {req : Request}
    {actions : List RegistryAction} (h : req.transaction now dbR = some actions)
    (hput : req.isPut = false) (hleaves : req.LeavesTags db.toTrees)
    (hphase : req.isPhase → dbR = db) {key : TagKey} {d : Digest}
    (hkey : db.tags[key]? = some d) :
    ∀ op ∈ halves .manifest actions, Spares key.repository d op := by
  intro op hop
  obtain ⟨a, ha, hk⟩ := List.mem_filterMap.mp hop
  have hlive : req.isPhase → ¬ Drops a .manifest d := by
    intro hp hdrops
    have hnot := decided_drops h hp ha hdrops
    rw [hphase hp] at hnot
    exact hnot ⟨key, hkey⟩
  rcases transaction_cases h with ⟨id, r, e, n, u, rfl, rfl⟩ | ⟨r, src, e, u, rfl, rfl⟩ |
    ⟨id, r, t, e, n, x, u, rfl, -⟩ | ⟨k, e, r, u, hreq, rfl⟩ | ⟨k, id, e, rfl, -, rfl⟩ |
    ⟨w, rfl, rfl⟩ | ⟨w, id, rfl, rfl⟩
  · simp only [uploadActions, List.mem_cons, List.not_mem_nil, or_false] at ha
    rcases ha with rfl | rfl | rfl <;> cases hk
  · cases List.mem_singleton.mp ha
    cases hk
  · cases hput
  · rcases hreq with rfl | ⟨t, rfl⟩
    · cases List.mem_singleton.mp ha
      cases k <;> cases hk
      refine ⟨by simp, ?_⟩
      rintro ts ⟨⟩
      exact hleaves key.tag hkey
    · exact hleaves.elim
  · cases List.mem_singleton.mp ha
    cases k <;> cases hk
    exact ⟨by simp, by simp⟩
  · exact spares_of_not_drops hk (hlive rfl)
  · exact spares_of_not_drops hk (hlive rfl)

/-- A transaction that finds what it must find keeps every tag leading to a manifest. -/
theorem tagsResolve_transaction {now : Clock} {dbR db : Db} {req : Request}
    {actions : List RegistryAction} (h : req.transaction now dbR = some actions)
    (hleaves : req.LeavesTags db.toTrees) (hphase : req.isPhase → dbR = db) {s' : Trees}
    (hacts : applyActions db.toTrees actions = some s') (hs : TagsResolve db.toTrees) :
    TagsResolve s' := by
  cases hput : req.isPut with
  | true =>
    cases req <;> cases hput
    obtain rfl := Option.some.inj h
    exact tagsResolve_put hacts hs
  | false =>
    have htags := (unpushed_manifests hacts (transaction_onlyPushed h hput)).1
    intro key d hkey
    rw [htags] at hkey
    exact resolves_of_spared hacts (hs key d hkey)
      (spares_transaction h hput hleaves hphase hkey)

/-- Every manifest comes from a PUT, which says what it is. -/
theorem described_transaction {now : Clock} {dbR : Db} {req : Request}
    {actions : List RegistryAction} (h : req.transaction now dbR = some actions) {s s' : Trees}
    (hacts : applyActions s actions = some s') (hs : Described s) : Described s' := by
  cases hput : req.isPut with
  | true =>
    cases req with
    | put id r t e n x u =>
      obtain rfl := Option.some.inj h
      obtain ⟨hother, o, ho, -, hct, hsize, -⟩ := put_manifests hacts
      intro d o' ho'
      rcases eq_or_ne d e with rfl | hne
      · obtain rfl : o = o' := Option.some.inj (ho.symm.trans ho')
        exact ⟨by simp [hct], by simp [hsize]⟩
      · rw [hother d hne] at ho'
        exact hs d o' ho'
    | _ => cases hput
  | false =>
    intro d o' ho'
    obtain ⟨o, ho, -, hct, hsize⟩ :=
      (unpushed_manifests hacts (transaction_onlyPushed h hput)).2 d o' ho'
    rw [hct, hsize]
    exact hs d o ho

/-- A tag stays for ever. -/
theorem applyActions_tag_stays {s s' : Trees} {actions : List RegistryAction}
    (h : applyActions s actions = some s') {key : TagKey} (hkey : s.tags[key]? ≠ none) :
    s'.tags[key]? ≠ none := by
  induction actions generalizing s with
  | nil =>
    obtain rfl := Option.some.inj h
    exact hkey
  | cons a as ih =>
    obtain ⟨m, hm, hrest⟩ := journal.run_cons_some h
    refine ih hrest ?_
    rcases applyAction_tags hm with ⟨ts, d, r, t, u, rfl, htags⟩ | ⟨-, htags⟩
    · rw [htags, Std.ExtTreeMap.getElem?_insert]
      split
      · simp
      · exact hkey
    · rw [htags]
      exact hkey

/-- An unmounted manifest is not one that a tag of the repository leads to. -/
theorem not_resolves_unmounted {s s' : Trees} {ts : DateTime} {d : Digest} {r : RepositoryName}
    {u : String} (h : applyActions s [unmountedAction ts d r u .manifest] = some s') (t : String) :
    ¬ Resolves s' ⟨r, t⟩ d := by
  rintro ⟨o', ho', hr⟩
  have hget := applyActions_get h .manifest d
  have hhalves : halves .manifest [unmountedAction ts d r u .manifest] = [.unmounted ts d r] := rfl
  simp only [hhalves, about, ObjectAction.digest, List.filter_cons, decide_true, if_true,
    List.filter_nil, List.foldl_cons, List.foldl_nil, act] at hget
  obtain ⟨o, -, rfl⟩ := Option.map_eq_some_iff.mp (hget.symm.trans ho')
  exact Finset.notMem_erase r _ hr

/-! ### Runs -/

/-- In what the replicas hold, every tag leads to a manifest. -/
def HoldsTags (s : State) : Prop := ∀ db, replay s.log = some db → TagsResolve db.toTrees

/-- What is under way was decided on an earlier state, and every manifest that the replicas hold has
    a content type and a size. -/
def HoldsDescribed (s : State) : Prop :=
  AllDecided s ∧ ∀ db, replay s.log = some db → Described db.toTrees

/-- When the event is the commit of a DELETE by tag, the tag is no longer listed after it. -/
def DeletedUnlisted (s : State) (e : Event) (s' : State) : Prop :=
  ∀ i leader sub r t u db, e = .commit i leader → s.underWay[i]? = some sub →
    sub.request = .deleteTag r t u → replay s'.log = some db → t ∉ getTags db.toTrees r

theorem holdsDescribed_step (s : State) (e : Event) (s' : State) (hs : HoldsDescribed s)
    (h : clusterStep s e = some s') : HoldsDescribed s' := by
  refine ⟨allDecided_step s e s' hs.1 h, ?_⟩
  intro db' hdb'
  obtain ⟨db, hdb, ⟨i, leader, sub, rfl, hsub, -, hacts, -⟩ | ⟨leader, mem, rfl, htrees, -⟩ |
    ⟨-, -, htrees, -⟩⟩ := clusterStep_replay h hdb'
  · obtain ⟨-, now, dbR, -, hact⟩ := hs.1 sub (List.mem_of_getElem? hsub)
    exact described_transaction hact hacts (hs.2 db hdb)
  · rw [htrees]
    exact hs.2 db hdb
  · rw [htrees]
    exact hs.2 db hdb

theorem holdsTags_step {s s' : State} {e : Event} (hd : AllDecided s) (hs : HoldsTags s)
    (hseq : Sequential s e) (hkeeps : KeepsTags s e) (h : clusterStep s e = some s') :
    HoldsTags s' := by
  intro db' hdb'
  obtain ⟨db, hdb, ⟨i, leader, sub, rfl, hsub, -, hacts, -⟩ | ⟨leader, mem, rfl, htrees, -⟩ |
    ⟨-, -, htrees, -⟩⟩ := clusterStep_replay h hdb'
  · obtain ⟨-, now, dbR, hR, hact⟩ := hd sub (List.mem_of_getElem? hsub)
    refine tagsResolve_transaction hact (hkeeps sub hsub db hdb) ?_ hacts (hs db hdb)
    intro hphase
    rw [hseq sub hsub hphase, List.take_length, hdb] at hR
    exact (Option.some.inj hR).symm
  · rw [htrees]
    exact hs db hdb
  · rw [htrees]
    exact hs db hdb

/-- The tag that a DELETE by tag was decided on is still there when it commits. -/
theorem deleteTag_tag {log : List Entry} {sub : Submission} (hd : sub.Decided log)
    {r : RepositoryName} {t u : String} (hreq : sub.request = .deleteTag r t u) {db : Db}
    (hdb : replay log = some db) : db.tags[(⟨r, t⟩ : TagKey)]? ≠ none := by
  obtain ⟨-, now, dbR, hR, hact⟩ := hd
  obtain ⟨dbR', hR', hrest⟩ := replay_cut hdb
  obtain rfl : dbR = dbR' := Option.some.inj (hR.symm.trans hR')
  refine applyActions_tag_stays hrest ?_
  intro hnone
  simp [hreq, Request.transaction, deleteTagActions, hnone] at hact

/-- A step from a state with good tags to one with good tags, after which no deleted tag is listed,
    meets the condition. -/
theorem keepsTags_of_holds {s s' : State} {e : Event} (hd : AllDecided s) (hs' : HoldsTags s')
    (hunlisted : DeletedUnlisted s e s') (h : clusterStep s e = some s') : KeepsTags s e := by
  cases e with
  | commit i leader =>
    intro sub hsub db hdb
    replace hsub : s.underWay[i]? = some sub := hsub
    have hdec := hd sub (List.mem_of_getElem? hsub)
    cases hreq : sub.request with
    | delete k r d u =>
      cases k with
      | blob => trivial
      | manifest =>
        obtain ⟨db', hdb', hacts⟩ := commit_applies hd hsub (by simp [hreq]) h hdb
        obtain ⟨-, now, dbR, -, hact⟩ := hdec
        rw [hreq] at hact
        have htags := (unpushed_manifests hacts (transaction_onlyPushed hact rfl)).1
        rw [deleteActions_eq hact] at hacts
        intro t ht
        refine not_resolves_unmounted hacts t (hs' db' hdb' ⟨r, t⟩ d ?_)
        rw [htags]
        exact ht
    | deleteTag r t u =>
      obtain ⟨db', hdb', hacts⟩ := commit_applies hd hsub (by simp [hreq]) h hdb
      have htag := applyActions_tag_stays hacts (deleteTag_tag hdec hreq hdb)
      exact hunlisted i leader sub r t u db' rfl hsub hreq hdb'
        (mem_getTags.mpr (Option.ne_none_iff_exists'.mp htag))
    | _ => trivial
  | _ => trivial

theorem keepsTags_iff (s : State) (e : Event) (s' : State) (hi : HoldsDescribed s)
    (hs : HoldsTags s) (hseq : Sequential s e) (h : clusterStep s e = some s') :
    KeepsTags s e ↔ HoldsTags s' ∧ DeletedUnlisted s e s' := by
  constructor
  · intro hkeeps
    refine ⟨holdsTags_step hi.1 hs hseq hkeeps h, ?_⟩
    rintro i leader sub r t u db' rfl hsub hreq hdb' -
    obtain ⟨db, hdb, -⟩ := clusterStep_replay h hdb'
    have hleaves := hkeeps sub hsub db hdb
    rw [hreq] at hleaves
    exact hleaves
  · rintro ⟨hs', hunlisted⟩
    exact keepsTags_of_holds hi.1 hs' hunlisted h

theorem holdsTags_init : HoldsTags cluster.init := by
  intro db hdb key d hkey
  obtain rfl := Option.some.inj hdb
  simp [Db.new, Trees.empty] at hkey

theorem holdsDescribed_init : HoldsDescribed cluster.init := by
  refine ⟨allDecided_init, ?_⟩
  intro db hdb d o ho
  obtain rfl := Option.some.inj hdb
  simp [Db.new, Trees.empty] at ho

/-- TAG INTEGRITY, exactly: over a whole run of the cluster whose collector passes work undisturbed,
    in every state every tag leads to a manifest that is mounted in its repository and every name
    that `get_tags` lists can be pulled, and no tag is listed right after its DELETE has committed,
    if and only if no DELETE by tag commits at all and no DELETE by digest commits while a tag of
    its repository names the manifest. -/
theorem tag_integrity_iff (es : List Event) (s : State)
    (h : cluster.run cluster.init es = some s)
    (hseq : cluster.Meets Sequential cluster.init es) :
    ((∀ xs ys t db, es = xs ++ ys → cluster.run cluster.init xs = some t →
      replay t.log = some db →
        (∀ (key : TagKey) (d : Digest), db.tags[key]? = some d →
          ∃ o, db.manifests[d]? = some o ∧ key.repository ∈ o.repositories) ∧
        ∀ r, ∀ tag ∈ getTags db.toTrees r, (getByTag db.toTrees r tag).isSome) ∧
      ∀ xs e ys t t', es = xs ++ e :: ys → cluster.run cluster.init xs = some t →
        clusterStep t e = some t' → DeletedUnlisted t e t') ↔
    cluster.Meets KeepsTags cluster.init es := by
  rw [← cluster.meets_iff_run_steps (fun t e t' hd _ ht => holdsDescribed_step t e t' hd ht)
    keepsTags_iff holdsDescribed_init holdsTags_init hseq h]
  refine and_congr ⟨?_, ?_⟩ Iff.rfl
  · intro hall xs ys t hes ht db hdb
    exact (hall xs ys t db hes ht hdb).1
  · intro hall xs ys t db hes ht hdb
    have hdescribed := (cluster.run_inv holdsDescribed_step holdsDescribed_init ht).2 db hdb
    have htags := hall xs ys t hes ht db hdb
    exact ⟨htags, fun r tag htag => getByTag_isSome htags hdescribed htag⟩

/-! ### A push and a DELETE by tag -/

/-- The push of `library/a:latest`. -/
def pushRun : List Event := uploadRun ++ [pushBlob, .commit 0 ⟨1, 2⟩]

/-- DELETE of `library/a:latest` after that. -/
def deleteTagRun : List Event :=
  pushRun ++ [.submit (.deleteTag ⟨"library/a"⟩ "latest" "alice") (ticking 40) 3, .commit 0 ⟨1, 2⟩]

/-- After the push the tag is listed and can be pulled. -/
theorem tag_integrity_iff_pushRun :
    ∃ s db, cluster.run cluster.init pushRun = some s ∧ replay s.log = some db ∧
      "latest" ∈ getTags db.toTrees ⟨"library/a"⟩ ∧
      (getByTag db.toTrees ⟨"library/a"⟩ "latest").isSome := by
  have hfacts : ((cluster.run cluster.init pushRun).bind fun s => (replay s.log).map fun db =>
      decide ("latest" ∈ getTags db.toTrees ⟨"library/a"⟩)) = some true := by
    decide +kernel
  simp only [Option.bind_eq_some_iff, Option.map_eq_some_iff, decide_eq_true_eq] at hfacts
  obtain ⟨s, h, db, hdb, hlisted⟩ := hfacts
  refine ⟨s, db, h, hdb, hlisted, ?_⟩
  have hall := (tag_integrity_iff pushRun s h (by decide +kernel)).mpr (by decide +kernel)
  exact (hall.1 pushRun [] s db (List.append_nil _).symm h hdb).2 _ "latest" hlisted

/-- After the DELETE the tag is still there and listed, and leads to a manifest that its repository
    no longer has, so it cannot be pulled. -/
theorem deleteTagRun_dangles :
    ∃ s db, cluster.run cluster.init deleteTagRun = some s ∧
      cluster.Meets Sequential cluster.init deleteTagRun ∧ replay s.log = some db ∧
      db.tags[(⟨⟨"library/a"⟩, "latest"⟩ : TagKey)]? = some emptyDigest ∧
      (db.manifests[emptyDigest]?.map (·.repositories)) = some ∅ ∧
      "latest" ∈ getTags db.toTrees ⟨"library/a"⟩ ∧
      getByTag db.toTrees ⟨"library/a"⟩ "latest" = none := by
  have hfacts : ((cluster.run cluster.init deleteTagRun).bind fun s => (replay s.log).map fun db =>
      decide (db.tags[(⟨⟨"library/a"⟩, "latest"⟩ : TagKey)]? = some emptyDigest ∧
        (db.manifests[emptyDigest]?.map (·.repositories)) = some ∅ ∧
        "latest" ∈ getTags db.toTrees ⟨"library/a"⟩ ∧
        getByTag db.toTrees ⟨"library/a"⟩ "latest" = none)) = some true := by
    decide +kernel
  simp only [Option.bind_eq_some_iff, Option.map_eq_some_iff, decide_eq_true_eq] at hfacts
  obtain ⟨s, h, db, hdb, htag, hrepos, hlisted, hpull⟩ := hfacts
  exact ⟨s, db, h, by decide +kernel, hdb, htag, by simpa using hrepos, hlisted, hpull⟩

end Distribd.Cluster
