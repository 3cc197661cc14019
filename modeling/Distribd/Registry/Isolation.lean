import Distribd.Cluster.Fixpoint
import Distribd.Registry.Confined
import Distribd.Registry.TagList
import Distribd.Registry.Tokens

/-! Repositories share one store, and a record belongs to all repositories that mount its object. What
    can be done to a repository without the right to push to it, and what can those who may not pull
    from it learn about it?

    Between two runs of the collector next to nothing can be done: whatever is sent, and however it
    interleaves, the tags of the repository stay, its objects stay and no others come in, and what
    it serves it goes on serving (`undisturbed`). There is one thing that changes. A record has one
    content type for all its repositories, so a push of the same manifest under another content type,
    or of a manifest that describes a blob, shows.

    Nothing can be learnt from the answer to a request, except for the push of a manifest, which
    looks at blobs of other repositories (`nothing_learnt`). -/

namespace Distribd.Registry
open Schemes Store Cluster
open Node (Bytes)

/-! ### What others can do -/

section

variable (r : RepositoryName)

/-- The action does not move an object in or out of the repository, and takes no copy away. -/
def Outside (op : ObjectAction) : Prop :=
  (∀ ts d, op ≠ .mounted ts d r) ∧ (∀ ts d, op ≠ .unmounted ts d r) ∧
    ∀ ts d l, op ≠ .unstored ts d l

/-- Nor does the transaction action, nor does it tag anything there. -/
def OutsideAction (a : RegistryAction) : Prop :=
  (∀ k op, a.half k = some op → Outside r op) ∧ ∀ ts d t u, a ≠ .hashTagged ts d r t u

/-- A request for another repository, or one of a mirror. -/
def Foreign : Request → Prop
  | .upload _ r' .. | .mount r' .. | .put _ r' .. | .delete _ r' .. | .deleteTag r' .. => r' ≠ r
  | .mirror .. => True
  | .phase1 .. | .phase2 .. => False

/-- The request of an event is for another repository, or comes from somebody who may not push to
    this one, and no pass of the collector begins. -/
def ByOthers : Event → Prop
  | .http request =>
    request.call.repository ≠ some r ∨ request.token.hasPermission r "push" = false
  | .phase1 .. | .phase2 .. => False
  | _ => True

/-- The object is there, and belongs to the repository. -/
def MountedIn (o : Option Object) : Prop := ∃ x, o = some x ∧ r ∈ x.repositories

variable {r}

theorem outside_stored (ts : DateTime) (d : Digest) (l : RegistryNodeId) :
    Outside r (.stored ts d l) := ⟨by simp, by simp, by simp⟩

theorem outside_mounted {r' : RepositoryName} (h : r' ≠ r) (ts : DateTime) (d : Digest) :
    Outside r (.mounted ts d r') := ⟨by simp [h], by simp, by simp⟩

theorem outside_stat (ts : DateTime) (d : Digest) (n : ℕ) : Outside r (.stat ts d n) :=
  ⟨by simp, by simp, by simp⟩

theorem outside_info (ts : DateTime) (d : Digest) (ds : List Digest) (ct : String) :
    Outside r (.info ts d ds ct) := ⟨by simp, by simp, by simp⟩

/-- Everything that a request for another repository sends is outside. -/
theorem outside_transaction {now : Clock} {db : Db} {req : Request} {actions : List RegistryAction}
    (h : req.transaction now db = some actions) (hreq : Foreign r req) :
    ∀ a ∈ actions, OutsideAction r a := by
  intro a ha
  rcases transaction_cases h with ⟨id, r', d, n, u, rfl, rfl⟩ | ⟨r', src, d, u, rfl, rfl⟩ |
    ⟨id, r', t, d, n, x, u, rfl, rfl⟩ | ⟨k, d, r', u, hreq', rfl⟩ | ⟨k, id, d, rfl, -, rfl⟩ |
    ⟨w, rfl, -⟩ | ⟨w, id, rfl, -⟩
  · simp only [uploadActions, List.mem_cons, List.not_mem_nil, or_false] at ha
    rcases ha with rfl | rfl | rfl <;> refine ⟨?_, by simp⟩ <;> rintro (_ | _) op hop <;> cases hop
    · exact outside_mounted hreq _ _
    · exact outside_stat ..
    · exact outside_stored ..
  · obtain rfl := List.mem_singleton.mp ha
    refine ⟨?_, by simp⟩
    rintro (_ | _) op hop <;> cases hop
    exact outside_mounted hreq _ _
  · simp only [putActions, Extracted.actions, List.cons_append, List.nil_append, List.mem_cons,
      List.mem_append, List.mem_mapIdx, List.not_mem_nil, or_false] at ha
    rcases ha with rfl | rfl | rfl | rfl | ⟨i, hi, rfl⟩ | rfl
    · refine ⟨?_, by simp⟩
      rintro (_ | _) op hop <;> cases hop
      exact outside_mounted hreq _ _
    · refine ⟨?_, by simp⟩
      rintro (_ | _) op hop <;> cases hop
      exact outside_stored ..
    · refine ⟨?_, by simp⟩
      rintro (_ | _) op hop <;> cases hop
      exact outside_stat ..
    · refine ⟨?_, by simp⟩
      rintro (_ | _) op hop <;> cases hop
      exact outside_info ..
    · refine ⟨?_, by simp⟩
      rintro (_ | _) op hop <;> cases hop
      exact outside_info ..
    · refine ⟨?_, ?_⟩
      · rintro (_ | _) op hop <;> cases hop
      · rintro ts d' t' u' heq
        cases heq
        exact hreq rfl
  · obtain rfl := List.mem_singleton.mp ha
    have hne : r' ≠ r := by
      rcases hreq' with rfl | ⟨t, rfl⟩
      · exact hreq
      · exact hreq
    refine ⟨?_, by cases k <;> simp [unmountedAction]⟩
    intro k' op hop
    rw [unmountedAction_half] at hop
    split at hop <;> cases hop
    exact ⟨by simp, by simp [hne], by simp⟩
  · obtain rfl := List.mem_singleton.mp ha
    refine ⟨?_, by cases k <;> simp [Cluster.storedAction]⟩
    intro k' op hop
    cases k <;> cases k' <;> cases hop
    · exact outside_stored ..
    · exact outside_stored ..
  · exact hreq.elim
  · exact hreq.elim

/-- What is handed in for another repository is foreign. -/
theorem foreign_of_onBehalfOf {req : Request} {r' : RepositoryName} {u : String}
    (h : onBehalfOf req = some (r', u)) (hne : r' ≠ r) : Foreign r req := by
  cases req <;> cases h <;> exact hne

theorem foreign_of_submission {sha : Sha256} {s : State} {e : Event} {req : Request} {now : Clock}
    {readAt : ℕ} (h : submission sha s e = some (req, now, readAt)) (he : ByOthers r e) :
    Foreign r req := by
  cases e with
  | http request =>
    obtain ⟨req', hreq, heq⟩ := Option.map_eq_some_iff.mp h
    obtain ⟨rfl, -, -⟩ : req' = req ∧ request.now = now ∧ request.readAt = readAt := by
      simpa using heq
    obtain ⟨reply, hreply, hsubmitted⟩ := Option.bind_eq_some_iff.mp hreq
    obtain ⟨db, -, hhandle⟩ := Option.bind_eq_some_iff.mp hreply
    obtain ⟨r', hrepository, hfor⟩ := user_of_handle hhandle hsubmitted
    refine foreign_of_onBehalfOf hfor ?_
    rintro rfl
    rcases he with hother | hpush
    · exact hother hrepository
    · -- the handler has looked at the permission
      rw [push_of_permitted (handle_permitted hhandle hsubmitted) hfor] at hpush
      cases hpush
  | mirror k id d content now' readAt' =>
    simp only [submission] at h
    split at h
    · cases h
      trivial
    · cases h
  | phase1 w now' readAt' => exact he.elim
  | phase2 w id now' readAt' => exact he.elim
  | visit env r' w x readAt' => cases h
  | commit i leader => cases h
  | lose i => cases h
  | blank leader => cases h
  | membership leader mem => cases h

variable (r) in
/-- Since the log was `start`, only others have written, and only they are about to. -/
structure OthersOnly (start : List Entry) (s : State) : Prop where
  grown : start <+: s.log
  written : ∀ a ∈ actionsOf (s.log.drop start.length), OutsideAction r a
  underWay : ∀ sub ∈ s.underWay, ∀ a ∈ sub.actions, OutsideAction r a

theorem OthersOnly.entry {start : List Entry} {s : State} (h : OthersOnly r start s) {entry : Entry}
    {underWay : List Submission} (hentry : ∀ a ∈ entry.actions, OutsideAction r a)
    (hunder : ∀ sub ∈ underWay, ∀ a ∈ sub.actions, OutsideAction r a) :
    OthersOnly r start ⟨s.log ++ [entry], underWay⟩ := by
  refine ⟨h.grown.trans (List.prefix_append _ _), ?_, hunder⟩
  intro a ha
  rw [List.drop_append_of_le_length h.grown.length_le, actionsOf, List.flatMap_append] at ha
  rcases List.mem_append.mp ha with ha | ha
  · exact h.written a ha
  · exact hentry a (by simpa using ha)

/-- STEP: others stay outside. -/
theorem othersOnly_step {sha : Sha256} {start : List Entry} (s : State) (e : Event) (s' : State)
    (hs : OthersOnly r start s) (he : ByOthers r e) (h : registryStep sha s e = some s') :
    OthersOnly r start s' := by
  rcases registryStep_cases h with ⟨sub, now, db, hsub, -, hactions, rfl⟩ |
    ⟨i, leader, sub, -, hsub, rfl⟩ | ⟨i, rfl⟩ | ⟨entry, hnone, rfl⟩ | rfl
  · refine ⟨hs.grown, hs.written, ?_⟩
    intro sub' hmem
    rcases List.mem_append.mp hmem with hmem | hmem
    · exact hs.underWay sub' hmem
    · obtain rfl := List.mem_singleton.mp hmem
      exact outside_transaction hactions (foreign_of_submission hsub he)
  · exact hs.entry (hs.underWay sub (List.mem_of_getElem? hsub))
      fun sub' hmem => hs.underWay sub' (List.mem_of_mem_eraseIdx hmem)
  · exact ⟨hs.grown, hs.written, fun sub' hmem => hs.underWay sub' (List.mem_of_mem_eraseIdx hmem)⟩
  · exact hs.entry (by simp [hnone]) hs.underWay
  · exact hs

/-! ### What that leaves -/

/-- Actions outside keep a record, whether it belongs to the repository, and that it has a size. -/
theorem kept_outside {s s' : Trees} {actions : List RegistryAction}
    (h : applyActions s actions = some s') (hout : ∀ a ∈ actions, OutsideAction r a) (k : Kind)
    (d : Digest) :
    (MountedIn r (s'.tree k)[d]? ↔ MountedIn r (s.tree k)[d]?) ∧
      ∀ o, (s.tree k)[d]? = some o → ∃ o', (s'.tree k)[d]? = some o' ∧
        (r ∈ o'.repositories ↔ r ∈ o.repositories) ∧ (o.size.isSome → o'.size.isSome) ∧
        ((∀ ts ds ct, .info ts d ds ct ∉ halves k actions) → o'.contentType = o.contentType) := by
  have hops : ∀ op ∈ halves k actions, Outside r op ∧ op ∈ halves k actions := by
    intro op hop
    obtain ⟨a, ha, hk⟩ := List.mem_filterMap.mp hop
    exact ⟨(hout a ha).1 k op hk, hop⟩
  refine record_inv h k d (Q := fun op => Outside r op ∧ op ∈ halves k actions)
    (P := fun x => (MountedIn r x ↔ MountedIn r (s.tree k)[d]?) ∧
      ∀ o, (s.tree k)[d]? = some o → ∃ o', x = some o' ∧
        (r ∈ o'.repositories ↔ r ∈ o.repositories) ∧ (o.size.isSome → o'.size.isSome) ∧
        ((∀ ts ds ct, .info ts d ds ct ∉ halves k actions) → o'.contentType = o.contentType))
    hops ⟨Iff.rfl, fun o ho => ⟨o, ho, Iff.rfl, id, fun _ => rfl⟩⟩ ?_
  rintro x op ⟨hmounted, hrecord⟩ ⟨⟨hmount, hunmount, hunstore⟩, hmem⟩ hd -
  subst hd
  cases op with
  | stored ts e l =>
    refine ⟨?_, ?_⟩
    · rw [← hmounted]
      cases x <;> simp [act, MountedIn]
    · intro o ho
      obtain ⟨o', rfl, hr, hsize, hct⟩ := hrecord o ho
      exact ⟨_, rfl, hr, hsize, hct⟩
  | unstored ts e l => exact absurd rfl (hunstore ts e l)
  | mounted ts e r' =>
    have hne : r ≠ r' := fun heq => hmount ts e (by rw [heq])
    refine ⟨?_, ?_⟩
    · rw [← hmounted]
      cases x <;> simp [act, MountedIn, fresh, hne]
    · intro o ho
      obtain ⟨o', rfl, hr, hsize, hct⟩ := hrecord o ho
      refine ⟨_, rfl, ?_, hsize, hct⟩
      simp only [Option.getD_some, Finset.mem_insert, hne, false_or]
      exact hr
  | unmounted ts e r' =>
    have hne : r ≠ r' := fun heq => hunmount ts e (by rw [heq])
    refine ⟨?_, ?_⟩
    · rw [← hmounted]
      cases x <;> simp [act, MountedIn, hne]
    · intro o ho
      obtain ⟨o', rfl, hr, hsize, hct⟩ := hrecord o ho
      refine ⟨_, rfl, ?_, hsize, hct⟩
      simp only [Finset.mem_erase, ne_eq, hne, not_false_eq_true, true_and]
      exact hr
  | info ts e ds ct =>
    refine ⟨?_, ?_⟩
    · rw [← hmounted]
      cases x <;> simp [act, MountedIn]
    · intro o ho
      obtain ⟨o', rfl, hr, hsize, hct⟩ := hrecord o ho
      exact ⟨_, rfl, hr, hsize, fun hno => absurd hmem (hno ts ds ct)⟩
  | stat ts e n =>
    refine ⟨?_, ?_⟩
    · rw [← hmounted]
      cases x <;> simp [act, MountedIn]
    · intro o ho
      obtain ⟨o', rfl, hr, hsize, hct⟩ := hrecord o ho
      exact ⟨_, rfl, hr, fun _ => rfl, hct⟩

theorem tags_outside {s s' : Trees} {actions : List RegistryAction}
    (h : applyActions s actions = some s') (hout : ∀ a ∈ actions, OutsideAction r a) (t : String) :
    getTag s' r t = getTag s r t := by
  induction actions generalizing s with
  | nil =>
    obtain rfl := Option.some.inj h
    rfl
  | cons a actions ih =>
    obtain ⟨m, hm, hrest⟩ := journal.run_cons_some h
    rw [ih hrest fun a ha => hout a (List.mem_cons_of_mem _ ha)]
    have ha := (hout a (List.mem_cons_self ..)).2
    rcases applyAction_tags hm with ⟨ts, d, r', t', u, rfl, htags⟩ | ⟨-, htags⟩
    · have hne : (⟨r', t'⟩ : TagKey) ≠ ⟨r, t⟩ := by
        intro heq
        cases heq
        exact ha ts d t u rfl
      simp [getTag, htags, Std.ExtTreeMap.getElem?_insert, hne]
    · rw [getTag, htags, getTag]

theorem serve_result {app : App} {k : Kind} {d : Digest} {o : Object} {served : Served} :
    (serve app k d o).result = .ok served ↔ contentTypeOf k o = some served.contentType ∧
      o.size.isSome ∧ app.isFile k d = true ∧ served.dockerContentDigest = d := by
  obtain ⟨ct, d'⟩ := served
  unfold serve
  split
  · rename_i ct' n hct hn
    cases app.isFile k d <;> simp [hct, hn, eq_comm]
  · rename_i hno
    simp only [refuse, reduceCtorEq, false_iff]
    rintro ⟨hct, hsize, -⟩
    obtain ⟨n, hn⟩ := Option.isSome_iff_exists.mp hsize
    exact hno _ _ hct hn

theorem pull_result {app : App} {k : Kind} {d : Digest} {served : Served} :
    (pull app k r d).result = .ok served ↔ ∃ o, (app.trees.tree k)[d]? = some o ∧
      r ∈ o.repositories ∧ (serve app k d o).result = .ok served := by
  unfold pull
  cases (app.trees.tree k)[d]? with
  | none => simp [refuse]
  | some o =>
    by_cases hr : r ∈ o.repositories
    · simp [hr]
    · simp [hr, refuse]

theorem authorized_result {app : App} {token : Token} {answer : Reply Served} {served : Served} :
    (authorized app token r answer).result = .ok served ↔
      token.hasPermission r "pull" = true ∧ answer.result = .ok served := by
  unfold authorized
  split
  · rename_i hinvalid
    refine iff_of_false (by simp [refuse]) ?_
    rintro ⟨hpull, -⟩
    rw [validated_of_hasPermission hpull] at hinvalid
    cases hinvalid
  · split
    · rename_i hpull
      simp [hpull]
    · rename_i hpull
      simp [refuse, hpull]

/-- What was served is served again, under the same digest, and as what it was, unless its record has
    been described since. -/
def GoesOn (k : Kind) (actions : List RegistryAction) (reply reply' : Reply Served) : Prop :=
  ∀ served, reply.result = .ok served → ∃ served', reply'.result = .ok served' ∧
    served'.dockerContentDigest = served.dockerContentDigest ∧
    ((∀ ts ds ct, .info ts served.dockerContentDigest ds ct ∉ halves k actions) →
      served' = served)

theorem pull_goesOn {app app' : App} {actions : List RegistryAction}
    (h : applyActions app.trees actions = some app'.trees)
    (hout : ∀ a ∈ actions, OutsideAction r a) (hfiles : ∀ k d, app.isFile k d → app'.isFile k d)
    (k : Kind) (d : Digest) : GoesOn k actions (pull app k r d) (pull app' k r d) := by
  intro served hserved
  obtain ⟨o, ho, hr, hserve⟩ := pull_result.mp hserved
  obtain ⟨hct, hsize, hfile, hdigest⟩ := serve_result.mp hserve
  subst hdigest
  obtain ⟨o', ho', hr', hsize', hct'⟩ :=
    (kept_outside h hout k served.dockerContentDigest).2 o ho
  have hserve' : ∀ {ct}, contentTypeOf k o' = some ct →
      (pull app' k r served.dockerContentDigest).result =
        .ok ⟨ct, served.dockerContentDigest⟩ := by
    intro ct hct₀
    exact pull_result.mpr ⟨o', ho', hr'.mpr hr,
      serve_result.mpr ⟨hct₀, hsize' hsize, hfiles _ _ hfile, rfl⟩⟩
  by_cases hinfo : ∀ ts ds ct, .info ts served.dockerContentDigest ds ct ∉ halves k actions
  · have hsame : contentTypeOf k o' = some served.contentType := by
      rw [← hct]
      cases k <;> simp [contentTypeOf, hct' hinfo]
    exact ⟨_, hserve' hsame, rfl, fun _ => rfl⟩
  · -- a record that has been described still has a content type
    have hsome : ∃ ct, contentTypeOf k o' = some ct := by
      cases k with
      | blob => exact ⟨_, rfl⟩
      | manifest =>
        refine Option.isSome_iff_exists.mp ?_
        have hkept := record_inv h .manifest served.dockerContentDigest (Q := Outside r)
          (P := fun x => ∃ o, x = some o ∧ o.contentType.isSome)
          (fun op hop => ?_) ⟨o, ho, Option.isSome_iff_exists.mpr ⟨_, hct⟩⟩ ?_
        · obtain ⟨x, hx, hxct⟩ := hkept
          obtain rfl := Option.some.inj (ho'.symm.trans hx)
          exact hxct
        · obtain ⟨a, ha, hk⟩ := List.mem_filterMap.mp hop
          exact (hout a ha).1 _ op hk
        · rintro x op ⟨o₁, rfl, hct₁⟩ hop - -
          cases op with
          | unstored ts e l => exact absurd rfl (hop.2.2 ts e l)
          | stored ts e l => exact ⟨_, rfl, hct₁⟩
          | mounted ts e r' => exact ⟨_, rfl, hct₁⟩
          | unmounted ts e r' => exact ⟨_, rfl, hct₁⟩
          | info ts e ds ct => exact ⟨_, rfl, rfl⟩
          | stat ts e n => exact ⟨_, rfl, hct₁⟩
    obtain ⟨ct, hct₀⟩ := hsome
    exact ⟨_, hserve' hct₀, rfl, fun hno => absurd hno hinfo⟩

theorem authorized_goesOn {app app' : App} {k : Kind} {actions : List RegistryAction}
    {token : Token} {answer answer' : Reply Served} (h : GoesOn k actions answer answer') :
    GoesOn k actions (authorized app token r answer) (authorized app' token r answer') := by
  intro served hserved
  obtain ⟨hpull, hanswer⟩ := authorized_result.mp hserved
  obtain ⟨served', hserved', hrest⟩ := h served hanswer
  exact ⟨served', authorized_result.mpr ⟨hpull, hserved'⟩, hrest⟩

/-- UNDISTURBED: from any state that a run reaches on, with nothing under way for the repository or
    from the collector, as long as nobody with the right to push to it uses it for this repository,
    the collector does not look, and no replica panics, the tags of the repository stay as they are,
    it keeps its objects and gets no others, and whoever was served one of them is served again, by
    its digest and by its tags, where the files stay. Only an object that somebody else has described
    since may have become another type. -/
theorem undisturbed (sha : Sha256) (r : RepositoryName) {es₀ es : List Event} {s s' : State}
    {db db' : Db} (hrun₀ : (registry sha).run (registry sha).init es₀ = some s)
    (hunder : ∀ sub ∈ s.underWay, Foreign r sub.request) (hdb : replay s.log = some db)
    (hrun : (registry sha).run s es = some s') (hes : ∀ e ∈ es, ByOthers r e)
    (hdb' : replay s'.log = some db') :
    ∃ later, s'.log = s.log ++ later ∧
      (∀ t, getTag db'.toTrees r t = getTag db.toTrees r t) ∧
      (∀ (k : Kind) (d : Digest), MountedIn r (db'.tree k)[d]? ↔ MountedIn r (db.tree k)[d]?) ∧
      ∀ (app app' : App) (token : Token), app.trees = db.toTrees → app'.trees = db'.toTrees →
        (∀ k d, app.isFile k d → app'.isFile k d) →
        (∀ d, GoesOn .blob (actionsOf later) (Blobs.get app token r d)
          (Blobs.get app' token r d)) ∧
        (∀ d, GoesOn .manifest (actionsOf later) (Manifests.get app token r d)
          (Manifests.get app' token r d)) ∧
        ∀ t, GoesOn .manifest (actionsOf later) (Manifests.getByTag app token r t)
          (Manifests.getByTag app' token r t) := by
  have hstart : OthersOnly r s.log s := by
    refine ⟨List.prefix_refl _, by simp [actionsOf], ?_⟩
    intro sub hsub
    obtain ⟨xs, m, e, ys, -, -, now, dbR, -, -, hactions⟩ := (run_accounted hrun₀).underWay sub hsub
    exact outside_transaction hactions (hunder sub hsub)
  have hothers : OthersOnly r s.log s' := (registry sha).run_inv_of_meets othersOnly_step hstart
    ((registry sha).meets_of_forall hes) hrun
  obtain ⟨later, hlater⟩ := hothers.grown
  have hout := hothers.written
  rw [← hlater, List.drop_left] at hout
  have hacts : applyActions db.toTrees (actionsOf later) = some db'.toTrees := by
    rw [← hlater] at hdb'
    obtain ⟨m, hm, hrest⟩ := replica.run_append_some hdb'
    obtain rfl := Option.some.inj (hdb.symm.trans hm)
    exact replica_run_trees hrest
  refine ⟨later, hlater.symm, tags_outside hacts hout, fun k d => (kept_outside hacts hout k d).1,
    ?_⟩
  intro app app' token htrees htrees' hfiles
  have hacts' : applyActions app.trees (actionsOf later) = some app'.trees := by
    rw [htrees, htrees']
    exact hacts
  refine ⟨fun d => authorized_goesOn (pull_goesOn hacts' hout hfiles .blob d),
    fun d => authorized_goesOn (pull_goesOn hacts' hout hfiles .manifest d), fun t => ?_⟩
  refine authorized_goesOn ?_
  rw [tags_outside hacts' hout t]
  cases getTag app.trees r t with
  | none =>
    intro served hserved
    cases hserved
  | some d => exact pull_goesOn hacts' hout hfiles .manifest d

/-- Somebody who may push to both repositories mounts the blob of `library/a` into `library/b`. -/
def mountByOwner : List Event :=
  [.http ⟨2, 2, ticking 20,
      tokenFor [⟨⟨"library/a"⟩, {"pull", "push"}⟩, ⟨⟨"library/b"⟩, {"pull", "push"}⟩],
      .postUpload ⟨"library/b"⟩ (some ("sha256:" ++ helloDigest.hash)) (some ⟨"library/a"⟩) none,
      foundWith []⟩,
   .commit 0 ⟨1, 1⟩]

/-- `library/a` keeps the blob and its tags. -/
theorem undisturbed_mountByOwner :
    ∃ s db s' db', (registry helloSha).run (registry helloSha).init (uploadThenMount.take 3) =
        some s ∧ replay s.log = some db ∧ (registry helloSha).run s mountByOwner = some s' ∧
      replay s'.log = some db' ∧ MountedIn ⟨"library/a"⟩ (db'.tree .blob)[helloDigest]? ∧
      getTag db'.toTrees ⟨"library/a"⟩ "latest" = getTag db.toTrees ⟨"library/a"⟩ "latest" := by
  have hfacts : (((registry helloSha).run (registry helloSha).init (uploadThenMount.take 3)).bind
      fun s => (replay s.log).bind fun db =>
        ((registry helloSha).run s mountByOwner).bind fun s' =>
          (replay s'.log).map fun _ => decide (s.underWay.length = 0 ∧ s'.log.length = 3 ∧
            (((db.tree .blob)[helloDigest]?).any
              fun o => decide ((⟨"library/a"⟩ : RepositoryName) ∈ o.repositories)) = true)) =
                some true := by
    decide +kernel
  simp only [Option.bind_eq_some_iff, Option.map_eq_some_iff, decide_eq_true_eq] at hfacts
  obtain ⟨s, hs, db, hdb, s', hs', db', hdb', hnone, -, hmounted⟩ := hfacts
  obtain ⟨later, -, htags, hmounts, -⟩ := undisturbed helloSha ⟨"library/a"⟩ hs
    (by rw [List.eq_nil_of_length_eq_zero hnone]; exact fun _ hsub => by cases hsub) hdb hs'
    (by
      intro e he
      rcases List.mem_cons.mp he with rfl | he
      · exact .inl (by decide)
      · rw [List.mem_singleton.mp he]
        trivial) hdb'
  refine ⟨s, db, s', db', hs, hdb, hs', hdb', (hmounts .blob helloDigest).mpr ?_, htags "latest"⟩
  cases ho : (db.tree .blob)[helloDigest]? with
  | none => simp [ho] at hmounted
  | some o =>
    rw [ho, Option.any_some, decide_eq_true_eq] at hmounted
    exact ⟨o, rfl, hmounted⟩

/-! ### What others can learn -/

/-- The token lets its holder pull from the repository, or push to it. -/
def MayUse (token : Token) (r : RepositoryName) : Prop :=
  token.hasPermission r "pull" = true ∨ token.hasPermission r "push" = true

/-- What a node shows of an object of a repository: its type, that it has a size, and that its file
    is there. -/
def visible (app : App) (r : RepositoryName) (k : Kind) (d : Digest) :
    Option (Option String × Bool × Bool) :=
  ((app.trees.tree k)[d]?).bind fun o =>
    if r ∈ o.repositories then some (contentTypeOf k o, o.size.isSome, app.isFile k d) else none

/-- Two nodes that are the same as far as the repositories go on which the token has a permission. -/
structure Alike (token : Token) (app app' : App) : Prop where
  id : app'.id = app.id
  order : app'.order = app.order
  tags : ∀ r, MayUse token r → ∀ t, getTag app'.trees r t = getTag app.trees r t
  objects : ∀ r, MayUse token r → ∀ k d, visible app' r k d = visible app r k d

/-- Every call of an object on the registry port but the push of a manifest. -/
def Call.Discreet : Call → Prop
  | .putManifest .. | .peer .. => False
  | _ => True

/-- What a pull answers is visible. -/
theorem pull_eq (app : App) (k : Kind) (r : RepositoryName) (d : Digest) :
    pull app k r d = match visible app r k d with
      | some (some ct, true, file) =>
        ⟨if file then .ok ⟨ct, d⟩ else .error (notFound k), [(k, d)]⟩
      | _ => refuse (notFound k) := by
  unfold pull visible
  cases (app.trees.tree k)[d]? with
  | none => rfl
  | some o =>
    by_cases hr : r ∈ o.repositories
    · simp only [hr, if_true, Option.bind_some, serve]
      cases contentTypeOf k o <;> cases o.size <;> rfl
    · simp [hr]

theorem isMounted_eq (app : App) (k : Kind) (r : RepositoryName) (d : Digest) :
    isMounted app k r d = (visible app r k d).isSome := by
  unfold isMounted visible
  cases (app.trees.tree k)[d]? with
  | none => rfl
  | some o => by_cases hr : r ∈ o.repositories <;> simp [hr]

section

variable {token : Token} {app app' : App}

/-- The checks of the token come out the same, and what is behind them only matters if they pass. -/
theorem authorized_alike (h : Alike token app app') {answer answer' : Reply Served}
    (hanswer : token.hasPermission r "pull" = true → answer' = answer) :
    authorized app' token r answer' = authorized app token r answer := by
  unfold authorized
  rw [h.order]
  split
  · rfl
  · split
    · rename_i hpull
      exact hanswer hpull
    · rfl

theorem pushAuthorized_alike (h : Alike token app app') {answer answer' : Reply Accepted}
    (hanswer : token.hasPermission r "push" = true → answer' = answer) :
    pushAuthorized app' token r answer' = pushAuthorized app token r answer := by
  unfold pushAuthorized
  rw [h.order]
  split
  · rfl
  · split
    · rename_i hpush
      exact hanswer hpush
    · rfl

theorem pull_alike (h : Alike token app app') (hpull : token.hasPermission r "pull" = true)
    (k : Kind) (d : Digest) : pull app' k r d = pull app k r d := by
  rw [pull_eq, pull_eq, h.objects r (.inl hpull)]

theorem get_alike (h : Alike token app app') (k : Kind) (d : Digest) :
    authorized app' token r (pull app' k r d) = authorized app token r (pull app k r d) :=
  authorized_alike h fun hpull => pull_alike h hpull k d

theorem getByTag_alike (h : Alike token app app') (t : String) :
    Manifests.getByTag app' token r t = Manifests.getByTag app token r t := by
  refine authorized_alike h fun hpull => ?_
  rw [h.tags r (.inl hpull)]
  cases getTag app.trees r t with
  | none => rfl
  | some d => exact pull_alike h hpull .manifest d

theorem startUpload_alike (h : Alike token app app') (sha : Sha256) (digest : Option Digest)
    (user : String) (file : UploadFile) (opened : Bool) :
    startUpload app' sha r digest user file opened =
      startUpload app sha r digest user file opened := by
  unfold startUpload finishUpload
  rw [h.id]

theorem post_alike (h : Alike token app app') (sha : Sha256) (query : BlobUploadPostQuery)
    (file : UploadFile) (opened : Bool) :
    Uploads.post app' sha token r query file opened =
      Uploads.post app sha token r query file opened := by
  unfold Uploads.post
  simp only [h.order, startUpload_alike h]
  split
  · rfl
  · split
    · rfl
    · split
      · rename_i mount source _ _
        split
        · rfl
        · split
          · rfl
          · rename_i hpull
            -- whether the source has the blob is visible to somebody who may pull from it
            have hsource : MayUse token source := .inl (by simpa using hpull)
            have hsame : isMounted app' .blob source mount = isMounted app .blob source mount := by
              rw [isMounted_eq, isMounted_eq, h.objects source hsource]
            simp only [isMounted, Trees.tree] at hsame
            cases hblob' : app'.trees.blobs[mount]? with
            | none =>
              cases hblob : app.trees.blobs[mount]? with
              | none => rfl
              | some blob =>
                rw [hblob', hblob] at hsame
                simp [of_decide_eq_false hsame.symm]
            | some blob' =>
              cases hblob : app.trees.blobs[mount]? with
              | none =>
                rw [hblob', hblob] at hsame
                simp [of_decide_eq_false hsame]
              | some blob =>
                rw [hblob', hblob] at hsame
                simp [decide_eq_decide.mp hsame]
      · rfl

theorem deleteObject_alike (h : Alike token app app') (k : Kind) (d : Digest) :
    deleteObject app' token k r d = deleteObject app token k r d := by
  refine pushAuthorized_alike h fun hpush => ?_
  rw [isMounted_eq, isMounted_eq, h.objects r (.inr hpush)]

theorem deleteByTag_alike (h : Alike token app app') (t : String) :
    Manifests.deleteByTag app' token r t = Manifests.deleteByTag app token r t := by
  refine pushAuthorized_alike h fun hpush => ?_
  rw [h.tags r (.inr hpush)]
  cases getTag app.trees r t with
  | none => rfl
  | some d => simp only [isMounted_eq, h.objects r (.inr hpush)]

/-- The lists of tags are the same. -/
theorem tags_alike (h : Alike token app app') (query : Tags.TagQuery) :
    Tags.get app' token r query = Tags.get app token r query := by
  unfold Tags.get
  rw [h.order]
  split
  · rfl
  · split
    · rename_i hpull
      have hperm : (getTags app'.trees r).Perm (getTags app.trees r) := by
        rw [List.perm_ext_iff_of_nodup (nodup_getTags _ _) (nodup_getTags _ _)]
        intro t
        rw [mem_getTags, mem_getTags, h.tags r (.inl hpull)]
      have hsame : Tags.page r query (getTags app'.trees r) =
          Tags.page r query (getTags app.trees r) := by
        rw [Tags.page, Tags.page, Tags.insertionSort_congr hperm]
      simp only [Tags.getTags?, hsame]
    · rfl

/-- How an upload ends does not depend on what else the node stores. -/
theorem finish_alike (s s' : Local) (sha : Sha256) (now : Clock) (user : String)
    (r : RepositoryName) (uploadId : String) (content : Bytes) (digest : Digest) (body : Body)
    (io : Io) : (s'.finish sha now user r uploadId content digest body io).1 =
      (s.finish sha now user r uploadId content digest body io).1 := by
  unfold Local.finish
  cases body.result with
  | panicked => rfl
  | failed => rfl
  | complete =>
    simp only
    split
    · split
      · cases io.logged with
        | false => rfl
        | true =>
          -- an upload can always be applied
          have hwrite := fun s : Local => consistentWrite_upload s now r digest
            (content ++ body.appended).length user
          obtain ⟨_, hs', -⟩ := hwrite (((s'.setUpload uploadId
            (some (content ++ body.appended))).setUpload uploadId none).setObject .blob digest
              (content ++ body.appended))
          obtain ⟨_, hs, -⟩ := hwrite (((s.setUpload uploadId
            (some (content ++ body.appended))).setUpload uploadId none).setObject .blob digest
              (content ++ body.appended))
          simp only [hs, hs']
      · rfl
    · rfl

theorem append_alike (s s' : Local) (uploadId : String) (content : Bytes) (body : Body)
    (stat : Bool) : (s'.append uploadId content body stat).1 =
      (s.append uploadId content body stat).1 := by
  unfold Local.append
  cases body.result <;> cases stat <;> rfl

theorem sessionAuthorized_alike {s s' : Local} (h : Alike token s.app s'.app) {permission : String}
    {answer answer' : Outcome} (hanswer : answer'.1 = answer.1) :
    (s'.authorized token r permission answer').1 = (s.authorized token r permission answer).1 := by
  have horder : s'.order = s.order := h.order
  unfold Local.authorized
  rw [horder]
  split
  · rfl
  · split
    · exact hanswer
    · rfl

/-- The answers about an upload session are the same, as long as the session is. -/
theorem session_alike {s s' : Local} (h : Alike token s.app s'.app) {uploadId : String}
    (hupload : s'.uploads uploadId = s.uploads uploadId) (sha : Sha256) (op : Op) :
    (s'.handle sha ⟨token, r, uploadId, op⟩).1 = (s.handle sha ⟨token, r, uploadId, op⟩).1 := by
  cases op with
  | post created =>
    refine sessionAuthorized_alike h ?_
    cases created <;> rfl
  | postWhole now digest body io => exact sessionAuthorized_alike h (finish_alike ..)
  | patch contentRange body sized stat =>
    refine sessionAuthorized_alike h ?_
    rw [hupload]
    cases s.uploads uploadId with
    | none => rfl
    | some content =>
      cases getHttpRange contentRange with
      | none => exact append_alike ..
      | some range =>
        obtain ⟨start, stop⟩ := range
        by_cases hstop : stop < start
        · simp only [hstop, if_true]
          rfl
        · by_cases hstart : start = if sized = true then content.length else 0
          · subst hstart
            simp only [hstop, if_false, ne_eq, not_true_eq_false]
            exact append_alike ..
          · simp only [hstop, if_false, ne_eq, hstart, not_false_eq_true, if_true]
            rfl
  | put now digest body io =>
    refine sessionAuthorized_alike h ?_
    split
    · rfl
    · rw [hupload]
      cases s.uploads uploadId with
      | none => rfl
      | some content => exact finish_alike ..
  | get stat =>
    refine sessionAuthorized_alike h ?_
    rw [hupload]
    cases s.uploads uploadId with
    | none => rfl
    | some content => cases stat <;> rfl
  | delete removed =>
    refine sessionAuthorized_alike h ?_
    rw [hupload]
    cases s.uploads uploadId with
    | none => rfl
    | some content => cases removed <;> rfl

end

/-- NOTHING IS LEARNT: two nodes that are the same as far as the repositories go on which a token has
    a permission, whatever else they store, give the same answer to every call of an object with that
    token, to whatever repository, other than the push of a manifest; to every request for tags; and
    to every request about an upload session that is the same on both. -/
theorem nothing_learnt (sha : Sha256) {token : Token} {s s' : Local}
    (halike : Alike token s.app s'.app) :
    (∀ (call : Call) (found : Found), call.Discreet →
      handle s'.app sha token found call = handle s.app sha token found call) ∧
    (∀ (r : RepositoryName) (query : Tags.TagQuery),
      Tags.get s'.app token r query = Tags.get s.app token r query) ∧
    ∀ (r : RepositoryName) (uploadId : String) (op : Op),
      s'.uploads uploadId = s.uploads uploadId →
        (s'.handle sha ⟨token, r, uploadId, op⟩).1 = (s.handle sha ⟨token, r, uploadId, op⟩).1 := by
  refine ⟨?_, fun r query => tags_alike halike query, fun r uploadId op hupload =>
    session_alike halike hupload sha op⟩
  intro call found hcall
  cases call with
  | getBlob r d | headBlob r d => simp only [handle, Blobs.get, Blobs.head, get_alike halike]
  | getManifest r d | headManifest r d =>
    simp only [handle, Manifests.get, Manifests.head, get_alike halike]
  | getManifestByTag r t => simp only [handle, getByTag_alike halike]
  | headManifestByTag r t =>
    have hhead := getByTag_alike (r := r) halike t
    simp only [handle]
    exact congrArg (fun reply => some (reply.as .served)) hhead
  | peer k d => exact hcall.elim
  | postUpload r mount source digest => simp only [handle, post_alike halike]
  | putUpload r d =>
    simp only [handle, Uploads.put, finishUpload]
    refine congrFun (congrArg Option.map (funext fun d => congrArg (Reply.as Response.accepted) ?_)) _
    refine pushAuthorized_alike halike fun _ => ?_
    rw [halike.id]
  | putManifest r t => exact hcall.elim
  | deleteBlob r d => simp only [handle, Blobs.delete, deleteObject_alike halike]
  | deleteManifest r d => simp only [handle, Manifests.delete, deleteObject_alike halike]
  | deleteManifestByTag r t => simp only [handle, deleteByTag_alike halike]

/-- A node on which nothing belongs to a repository. -/
theorem visible_none {app : App} {r : RepositoryName}
    (h : ∀ (k : Kind) (d : Digest) (o : Object), (app.trees.tree k)[d]? = some o →
      r ∉ o.repositories) (k : Kind) (d : Digest) : visible app r k d = none := by
  unfold visible
  cases ho : (app.trees.tree k)[d]? with
  | none => rfl
  | some o => simp [h k d o ho]

/-- A node with this database and these blobs, without sessions. -/
def nodeWith (db : Db) (blobs : List Digest) : Local where
  id := 2
  db := db
  uploads _ := none
  objects k d := if k = .blob ∧ d ∈ blobs then some [] else none
  order := .ascending

/-- Whether `library/a` has the blob, and whether its file is there, makes no difference to somebody
    who asks for it in `library/b`, or for the tags of `library/a`. -/
theorem nothing_learnt_getMounted :
    ∃ s s' db db', (registry helloSha).run (registry helloSha).init (uploadThenMount.take 3) =
        some s ∧
      (registry helloSha).run (registry helloSha).init
        [.membership ⟨1, 1⟩ twoNodes, .blank ⟨1, 1⟩] = some s' ∧
      replay s.log = some db ∧ MountedIn ⟨"library/a"⟩ (db.tree .blob)[helloDigest]? ∧
      replay s'.log = some db' ∧
      handle (nodeWith db' []).app helloSha getMounted.token getMounted.found getMounted.call =
        handle (nodeWith db [helloDigest]).app helloSha getMounted.token getMounted.found
          getMounted.call ∧
      Tags.get (nodeWith db' []).app getMounted.token ⟨"library/a"⟩ ⟨none, none⟩ =
        Tags.get (nodeWith db [helloDigest]).app getMounted.token ⟨"library/a"⟩ ⟨none, none⟩ := by
  have hfacts : (((registry helloSha).run (registry helloSha).init (uploadThenMount.take 3)).bind
      fun s => (replay s.log).bind fun db =>
        ((registry helloSha).run (registry helloSha).init
          [.membership ⟨1, 1⟩ twoNodes, .blank ⟨1, 1⟩]).bind fun s' => (replay s'.log).map fun db' =>
            decide ((((db.tree .blob)[helloDigest]?).any
                fun o => decide ((⟨"library/a"⟩ : RepositoryName) ∈ o.repositories)) = true ∧
              db.tags = ∅ ∧ db'.tags = ∅ ∧
              ((∀ p ∈ db.blobs.toList, (⟨"library/b"⟩ : RepositoryName) ∉ p.2.repositories) ∧
                ∀ p ∈ db.manifests.toList, (⟨"library/b"⟩ : RepositoryName) ∉ p.2.repositories) ∧
              ((∀ p ∈ db'.blobs.toList, (⟨"library/b"⟩ : RepositoryName) ∉ p.2.repositories) ∧
                ∀ p ∈ db'.manifests.toList,
                  (⟨"library/b"⟩ : RepositoryName) ∉ p.2.repositories))) = some true := by
    decide +kernel
  simp only [Option.bind_eq_some_iff, Option.map_eq_some_iff, decide_eq_true_eq] at hfacts
  obtain ⟨s, hs, db, hdb, s', hs', db', hdb', hmounted, htags, htags', hnone, hnone'⟩ := hfacts
  have hrecords := (forall_records_iff (s := db.toTrees)
    (P := fun o => (⟨"library/b"⟩ : RepositoryName) ∉ o.repositories)).mpr hnone
  have hrecords' := (forall_records_iff (s := db'.toTrees)
    (P := fun o => (⟨"library/b"⟩ : RepositoryName) ∉ o.repositories)).mpr hnone'
  have honly : ∀ r, MayUse getMounted.token r → r = ⟨"library/b"⟩ := by
    intro r hr
    simpa [MayUse, getMounted, tokenFor, Token.hasPermission, eq_comm] using hr
  have halike : Alike getMounted.token (nodeWith db [helloDigest]).app (nodeWith db' []).app := by
    refine ⟨rfl, rfl, ?_, ?_⟩
    · intro r _ t
      simp [getTag, Local.app, nodeWith, htags, htags']
    · intro r hr k d
      have hnone : visible (nodeWith db [helloDigest]).app ⟨"library/b"⟩ k d = none :=
        visible_none hrecords k d
      have hnone' : visible (nodeWith db' []).app ⟨"library/b"⟩ k d = none :=
        visible_none hrecords' k d
      rw [honly r hr, hnone, hnone']
  obtain ⟨hcalls, hlists, -⟩ := nothing_learnt helloSha halike
  refine ⟨s, s', db, db', hs, hs', hdb, ?_, hdb', hcalls getMounted.call getMounted.found trivial,
    hlists ⟨"library/a"⟩ ⟨none, none⟩⟩
  cases ho : (db.tree .blob)[helloDigest]? with
  | none => simp [ho] at hmounted
  | some o =>
    rw [ho, Option.any_some, decide_eq_true_eq] at hmounted
    exact ⟨o, rfl, hmounted⟩

end

end Distribd.Registry
