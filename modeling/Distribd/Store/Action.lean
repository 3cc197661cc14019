import Distribd.Types
import Distribd.Schemes.Machine

/-! What one action of a transaction does to the trees (the `match action` of
    `apply_to_state_machine`, `store/mod.rs`). The blob half and the manifest half of the source are
    the same code over two trees, so each branch is one definition over an `ObjectTree`, and
    `applyAction` names the branch and the tree. A `none` is the panic of the `.unwrap()` that the
    two `*Stored` branches call on a missing record; every other branch tolerates a missing record.

    The lemmas say once what an action can do: which tree it touches (`applyAction_tree`,
    `applyAction_tags`), when it panics (`applyAction_eq_none`), and what it does to the record of
    one digest (`apply_get`, by way of `act`). -/

namespace Distribd.Store
open Schemes

/-- The sled tree `blobs` or `manifests`. -/
abbrev ObjectTree := Std.ExtTreeMap Digest Object

/-- The sled tree `tags`. -/
abbrev TagTree := Std.ExtTreeMap TagKey Digest

/-- The three data trees that a transaction works on. -/
structure Trees where
  blobs : ObjectTree
  manifests : ObjectTree
  tags : TagTree
  deriving DecidableEq

/-- The trees of a new database. -/
def Trees.empty : Trees := ⟨∅, ∅, ∅⟩

/-! ### The branches -/

/-- The record that a mount creates when the digest has none. -/
def fresh (timestamp : DateTime) : Object where
  size := none
  contentType := none
  dependencies := some []
  repositories := ∅
  locations := ∅
  created := timestamp
  updated := timestamp

/-- `BlobStored` / `ManifestStored`: `.unwrap()` on the record, then add the location. -/
def stored (t : ObjectTree) (timestamp : DateTime) (digest : Digest) (location : RegistryNodeId) :
    Option ObjectTree :=
  match t[digest]? with
  | some o =>
    some (t.insert digest
      { o with updated := timestamp, locations := insert location o.locations })
  | none => none

/-- `BlobUnstored` / `ManifestUnstored`: drop the location, and the record with the last one. -/
def unstored (t : ObjectTree) (timestamp : DateTime) (digest : Digest)
    (location : RegistryNodeId) : ObjectTree :=
  match t[digest]? with
  | some o =>
    let locations := o.locations.erase location
    if locations = ∅ then t.erase digest
    else t.insert digest { o with updated := timestamp, locations }
  | none => t

/-- `BlobMounted` / `ManifestMounted`: find or create the record, then add the repository. -/
def mounted (t : ObjectTree) (timestamp : DateTime) (digest : Digest)
    (repository : RepositoryName) : ObjectTree :=
  let o := match t[digest]? with
    | some o => o
    | none => fresh timestamp
  t.insert digest { o with updated := timestamp, repositories := insert repository o.repositories }

/-- `if let Some(mut blob) = sm.tx_get_blob(..)`: change the record, if there is one. -/
def edit (t : ObjectTree) (digest : Digest) (change : Object → Object) : ObjectTree :=
  match t[digest]? with
  | some o => t.insert digest (change o)
  | none => t

/-- `BlobUnmounted` / `ManifestUnmounted`. -/
def unmounted (t : ObjectTree) (timestamp : DateTime) (digest : Digest)
    (repository : RepositoryName) : ObjectTree :=
  edit t digest fun o =>
    { o with updated := timestamp, repositories := o.repositories.erase repository }

/-- `BlobInfo` / `ManifestInfo`. -/
def info (t : ObjectTree) (timestamp : DateTime) (digest : Digest) (dependencies : List Digest)
    (contentType : String) : ObjectTree :=
  edit t digest fun o =>
    { o with updated := timestamp, dependencies := some dependencies,
             contentType := some contentType }

/-- `BlobStat` / `ManifestStat`. -/
def stat (t : ObjectTree) (timestamp : DateTime) (digest : Digest) (size : ℕ) : ObjectTree :=
  edit t digest fun o => { o with updated := timestamp, size := some size }

/-- One action of a transaction; `none` is the panic on a missing record. -/
def applyAction (s : Trees) : RegistryAction → Option Trees
  | .empty => some s
  | .blobStored ts d l _ => (stored s.blobs ts d l).map fun t => { s with blobs := t }
  | .blobUnstored ts d l _ => some { s with blobs := unstored s.blobs ts d l }
  | .blobMounted ts d r _ => some { s with blobs := mounted s.blobs ts d r }
  | .blobUnmounted ts d r _ => some { s with blobs := unmounted s.blobs ts d r }
  | .blobInfo ts d ds ct => some { s with blobs := info s.blobs ts d ds ct }
  | .blobStat ts d n => some { s with blobs := stat s.blobs ts d n }
  | .manifestStored ts d l _ => (stored s.manifests ts d l).map fun t => { s with manifests := t }
  | .manifestUnstored ts d l _ => some { s with manifests := unstored s.manifests ts d l }
  | .manifestMounted ts d r _ => some { s with manifests := mounted s.manifests ts d r }
  | .manifestUnmounted ts d r _ => some { s with manifests := unmounted s.manifests ts d r }
  | .manifestInfo ts d ds ct => some { s with manifests := info s.manifests ts d ds ct }
  | .manifestStat ts d n => some { s with manifests := stat s.manifests ts d n }
  | .hashTagged _ d r t _ => some { s with tags := s.tags.insert ⟨r, t⟩ d }

/-- The journal: the trees, moved by actions. -/
def journal : Machine Trees RegistryAction := ⟨.empty, applyAction⟩

/-- The actions of a transaction, in order. -/
def applyActions (s : Trees) (actions : List RegistryAction) : Option Trees :=
  journal.run s actions

/-! ### One tree at a time -/

/-- The tree of a kind. -/
def Trees.tree (s : Trees) : Kind → ObjectTree
  | .blob => s.blobs
  | .manifest => s.manifests

/-- An object action on its tree. -/
def apply (t : ObjectTree) : ObjectAction → Option ObjectTree
  | .stored ts d l => stored t ts d l
  | .unstored ts d l => some (unstored t ts d l)
  | .mounted ts d r => some (mounted t ts d r)
  | .unmounted ts d r => some (unmounted t ts d r)
  | .info ts d ds ct => some (info t ts d ds ct)
  | .stat ts d n => some (stat t ts d n)

/-- An action moves the tree of kind `k` by its half for `k`, and leaves it alone if it has none. -/
theorem applyAction_tree {s s' : Trees} {a : RegistryAction} (h : applyAction s a = some s')
    (k : Kind) :
    (a.half k = none ∧ s'.tree k = s.tree k) ∨
    (∃ oa, a.half k = some oa ∧ apply (s.tree k) oa = some (s'.tree k)) := by
  cases a <;> cases k <;>
    simp only [applyAction, Option.some.injEq, Option.map_eq_some_iff] at h <;>
    first
    | (subst h; exact .inl ⟨rfl, rfl⟩)
    | (subst h; exact .inr ⟨_, rfl, rfl⟩)
    | (obtain ⟨t, ht, rfl⟩ := h; exact .inl ⟨rfl, rfl⟩)
    | (obtain ⟨t, ht, rfl⟩ := h; exact .inr ⟨_, rfl, ht⟩)

/-- Only `HashTagged` moves the tags. -/
theorem applyAction_tags {s s' : Trees} {a : RegistryAction} (h : applyAction s a = some s') :
    (∃ ts d r t u, a = .hashTagged ts d r t u ∧ s'.tags = s.tags.insert ⟨r, t⟩ d) ∨
    ((∀ ts d r t u, a ≠ .hashTagged ts d r t u) ∧ s'.tags = s.tags) := by
  cases a <;> simp only [applyAction, Option.some.injEq, Option.map_eq_some_iff] at h
  case hashTagged ts d r t u => subst h; exact .inl ⟨_, _, _, _, _, rfl, rfl⟩
  case blobStored | manifestStored =>
    obtain ⟨t, -, rfl⟩ := h
    exact .inr ⟨by simp, rfl⟩
  all_goals subst h; exact .inr ⟨by simp, rfl⟩

theorem stored_eq_none {t : ObjectTree} {ts : DateTime} {d : Digest} {l : RegistryNodeId} :
    stored t ts d l = none ↔ t[d]? = none := by
  unfold stored; split <;> simp_all

/-- The only panic: a `*Stored` action whose digest has no record. -/
theorem applyAction_eq_none {s : Trees} {a : RegistryAction} :
    applyAction s a = none ↔
      ∃ k ts d l, a.half k = some (.stored ts d l) ∧ (s.tree k)[d]? = none := by
  constructor
  · intro h
    cases a with
    | blobStored ts d l u =>
      exact ⟨.blob, ts, d, l, rfl, stored_eq_none.mp (Option.map_eq_none_iff.mp h)⟩
    | manifestStored ts d l u =>
      exact ⟨.manifest, ts, d, l, rfl, stored_eq_none.mp (Option.map_eq_none_iff.mp h)⟩
    | _ => simp [applyAction] at h
  · rintro ⟨k, ts, d, l, hk, hn⟩
    cases k <;> cases a <;> simp only [RegistryAction.half, Option.some.injEq, reduceCtorEq,
      ObjectAction.stored.injEq] at hk
    all_goals
      obtain ⟨rfl, rfl, rfl⟩ := hk
      simp only [applyAction, Option.map_eq_none_iff]
      exact stored_eq_none.mpr hn

/-! ### One record at a time -/

/-- What an object action does to the record of its digest (`none`: there is no record). -/
def act (o : Option Object) : ObjectAction → Option Object
  | .stored ts _ l => o.map fun o => { o with updated := ts, locations := insert l o.locations }
  | .unstored ts _ l => o.bind fun o =>
      if o.locations.erase l = ∅ then none
      else some { o with updated := ts, locations := o.locations.erase l }
  | .mounted ts _ r =>
      let o := o.getD (fresh ts)
      some { o with updated := ts, repositories := insert r o.repositories }
  | .unmounted ts _ r =>
      o.map fun o => { o with updated := ts, repositories := o.repositories.erase r }
  | .info ts _ ds ct =>
      o.map fun o => { o with updated := ts, dependencies := some ds, contentType := some ct }
  | .stat ts _ n => o.map fun o => { o with updated := ts, size := some n }

theorem edit_get (t : ObjectTree) (e : Digest) (change : Object → Object) (d : Digest) :
    (edit t e change)[d]? = if e = d then t[d]?.map change else t[d]? := by
  unfold edit
  by_cases hd : e = d
  · subst hd
    cases ho : t[e]? <;> simp [ho]
  · cases ho : t[e]? <;> simp [hd, Std.ExtTreeMap.getElem?_insert]

theorem stored_get {t t' : ObjectTree} {ts : DateTime} {e : Digest} {l : RegistryNodeId}
    (h : stored t ts e l = some t') (d : Digest) :
    t'[d]? = if e = d then act t[d]? (.stored ts e l) else t[d]? := by
  unfold stored at h
  split at h
  case h_1 o ho =>
    obtain rfl := Option.some.inj h
    rw [Std.ExtTreeMap.getElem?_insert]
    by_cases hd : e = d
    · subst hd; simp [act, ho]
    · simp [hd]
  case h_2 => cases h

theorem unstored_get (t : ObjectTree) (ts : DateTime) (e : Digest) (l : RegistryNodeId)
    (d : Digest) :
    (unstored t ts e l)[d]? = if e = d then act t[d]? (.unstored ts e l) else t[d]? := by
  unfold unstored
  cases ho : t[e]? with
  | none =>
    by_cases hd : e = d
    · subst hd; simp [act, ho]
    · simp [hd]
  | some o =>
    -- with the last location the record goes, otherwise it is put back
    by_cases hl : o.locations.erase l = ∅
    · by_cases hd : e = d
      · subst hd; simp [act, ho, hl]
      · simp [hl, hd, Std.ExtTreeMap.getElem?_erase]
    · by_cases hd : e = d
      · subst hd; simp [act, ho, hl]
      · simp [hl, hd, Std.ExtTreeMap.getElem?_insert]

theorem mounted_get (t : ObjectTree) (ts : DateTime) (e : Digest) (r : RepositoryName)
    (d : Digest) :
    (mounted t ts e r)[d]? = if e = d then act t[d]? (.mounted ts e r) else t[d]? := by
  unfold mounted
  by_cases hd : e = d
  · subst hd
    cases ho : t[e]? <;> simp [act]
  · simp [hd, Std.ExtTreeMap.getElem?_insert]

/-- An object action moves the record of its digest by `act` and no other record. -/
theorem apply_get {t t' : ObjectTree} {oa : ObjectAction} (h : apply t oa = some t') (d : Digest) :
    t'[d]? = if oa.digest = d then act t[d]? oa else t[d]? := by
  cases oa with
  | stored ts e l => exact stored_get h d
  | unstored ts e l =>
    obtain rfl := Option.some.inj h
    exact unstored_get t ts e l d
  | mounted ts e r =>
    obtain rfl := Option.some.inj h
    exact mounted_get t ts e r d
  | unmounted ts e r =>
    obtain rfl := Option.some.inj h
    exact edit_get t e _ d
  | info ts e ds ct =>
    obtain rfl := Option.some.inj h
    exact edit_get t e _ d
  | stat ts e n =>
    obtain rfl := Option.some.inj h
    exact edit_get t e _ d

/-- The actions of a journal that touch the tree of kind `k`. -/
def halves (k : Kind) (actions : List RegistryAction) : List ObjectAction :=
  actions.filterMap (·.half k)

/-- Of these, the ones about one digest. -/
def about (d : Digest) (ops : List ObjectAction) : List ObjectAction :=
  ops.filter (·.digest = d)

/-- A journal moves each record by its own actions only. -/
theorem applyActions_get {s s' : Trees} {actions : List RegistryAction}
    (h : applyActions s actions = some s') (k : Kind) (d : Digest) :
    (s'.tree k)[d]? = (about d (halves k actions)).foldl act (s.tree k)[d]? := by
  induction actions generalizing s with
  | nil =>
    obtain rfl := Option.some.inj h
    rfl
  | cons a as ih =>
    obtain ⟨m, hm, hrest⟩ := journal.run_cons_some h
    rw [ih hrest]
    rcases applyAction_tree hm k with ⟨hk, ht⟩ | ⟨oa, hk, ht⟩
    · simp [halves, hk, ht]
    · by_cases hd : oa.digest = d
      · simp [halves, about, hk, hd, apply_get ht d]
      · simp [halves, about, hk, hd, apply_get ht d]

/-- The actions about one digest, run on its record: every `Stored` among them finds it. -/
def Runs : Option Object → List ObjectAction → Prop
  | _, [] => True
  | o, a :: as => (∀ ts d l, a = .stored ts d l → o ≠ none) ∧ Runs (act o a) as

theorem runs_append {o : Option Object} {ops ops' : List ObjectAction} :
    Runs o (ops ++ ops') ↔ Runs o ops ∧ Runs (ops.foldl act o) ops' := by
  induction ops generalizing o with
  | nil => simp [Runs]
  | cons a as ih => simp [Runs, ih, and_assoc]

/-- A journal runs exactly when the actions about each digest do. -/
theorem applyActions_isSome_iff {s : Trees} {actions : List RegistryAction} :
    (applyActions s actions).isSome ↔
      ∀ (k : Kind) (d : Digest), Runs (s.tree k)[d]? (about d (halves k actions)) := by
  induction actions generalizing s with
  | nil => simp [applyActions, halves, about, Runs]
  | cons a as ih =>
    rw [applyActions, journal.run_cons]
    cases hs : journal.step s a with
    | none =>
      obtain ⟨k, ts, d, l, hk, hn⟩ := applyAction_eq_none.mp hs
      refine iff_of_false (by simp) fun hall => ?_
      have hrun := hall k d
      simp only [halves, about, List.filterMap_cons, hk, List.filter_cons, ObjectAction.digest,
        decide_true, if_true, Runs] at hrun
      exact hrun.1 ts d l rfl hn
    | some m =>
      refine ih.trans (forall_congr' fun k => forall_congr' fun d => ?_)
      rcases applyAction_tree hs k with ⟨hk, ht⟩ | ⟨oa, hk, ht⟩
      · simp [halves, hk, ht]
      · have hcat : halves k (a :: as) = oa :: halves k as := by simp [halves, hk]
        rw [hcat, apply_get ht d]
        by_cases hd : oa.digest = d
        · simp only [about, List.filter_cons, hd, decide_true, if_true, Runs]
          refine (and_iff_right ?_).symm
          rintro ts e l rfl hn
          obtain rfl : e = d := hd
          rw [apply, stored_eq_none.mpr hn] at ht
          cases ht
        · simp only [about, List.filter_cons, hd, decide_false, Bool.false_eq_true, if_false]

/-- INDUCTION over a journal, seen from one record: what holds at the start, is kept by the actions
    about other digests, and is kept by the actions about `d` (a `Stored` that went through found
    the record there), holds at the end. -/
theorem record_induction {s s' : Trees} {actions : List RegistryAction}
    (h : applyActions s actions = some s') (k : Kind) (d : Digest)
    {P : List ObjectAction → Option Object → Prop} (hnil : P [] (s.tree k)[d]?)
    (hother : ∀ ops o a, P ops o → a.digest ≠ d → P (ops ++ [a]) o)
    (hown : ∀ ops o a, P ops o → a.digest = d → (∀ ts l, a = .stored ts d l → o ≠ none) →
      P (ops ++ [a]) (act o a)) :
    P (halves k actions) (s'.tree k)[d]? := by
  induction actions using List.reverseRecOn generalizing s' with
  | nil =>
    obtain rfl := Option.some.inj h
    exact hnil
  | append_singleton actions a ih =>
    obtain ⟨m, hm, ha⟩ := journal.run_snoc_some h
    rcases applyAction_tree ha k with ⟨hk, ht⟩ | ⟨oa, hk, ht⟩
    · have hcat : halves k (actions ++ [a]) = halves k actions := by simp [halves, hk]
      rw [hcat, ht]
      exact ih hm
    · have hcat : halves k (actions ++ [a]) = halves k actions ++ [oa] := by simp [halves, hk]
      rw [hcat, apply_get ht d]
      by_cases hd : oa.digest = d
      · rw [if_pos hd]
        refine hown _ _ oa (ih hm) hd ?_
        rintro ts l rfl hn
        have hnone : stored (m.tree k) ts d l = none := stored_eq_none.mpr hn
        simp only [apply, hnone, reduceCtorEq] at ht
      · rw [if_neg hd]
        exact hother _ _ oa (ih hm) hd

/-- The same for a property of the record alone that every action of the journal is known to keep. -/
theorem record_inv {s s' : Trees} {actions : List RegistryAction}
    (h : applyActions s actions = some s') (k : Kind) (d : Digest) {Q : ObjectAction → Prop}
    {P : Option Object → Prop} (hops : ∀ op ∈ halves k actions, Q op)
    (hs : P (s.tree k)[d]?)
    (hown : ∀ o op, P o → Q op → op.digest = d → (∀ ts l, op = .stored ts d l → o ≠ none) →
      P (act o op)) : P (s'.tree k)[d]? := by
  refine record_induction h k d (P := fun ops o => (∀ op ∈ ops, Q op) → P o) (fun _ => hs) ?_ ?_ hops
  · intro ops o op ih _ hall
    exact ih fun q hq => hall q (List.mem_append_left _ hq)
  · intro ops o op ih hd hp hall
    exact hown o op (ih fun q hq => hall q (List.mem_append_left _ hq))
      (hall op (List.mem_append_right _ (List.mem_singleton_self op))) hd hp

/-! ### The digests of a journal -/

/-- Every digest in the trees, as a key, a dependency or a tag, has the property. -/
structure Trees.OnlyDigests (P : Digest → Prop) (s : Trees) : Prop where
  objects : ∀ (k : Kind) (d : Digest) (o : Object), (s.tree k)[d]? = some o →
    P d ∧ ∀ ds ∈ o.dependencies, ∀ e ∈ ds, P e
  tags : ∀ (key : TagKey) (d : Digest), s.tags[key]? = some d → P d

theorem digests_of_half {a : RegistryAction} {k : Kind} {op : ObjectAction}
    (h : a.half k = some op) : a.digests = op.digests := by
  cases k <;> cases a <;> cases h <;> rfl

/-- An action gives a record the dependencies that it names, or leaves it those it had. -/
theorem onlyDigests_act {P : Digest → Prop} {o : Option Object} {op : ObjectAction}
    (hop : ∀ d ∈ op.digests, P d) (ho : ∀ x, o = some x → ∀ ds ∈ x.dependencies, ∀ e ∈ ds, P e) :
    ∀ x, act o op = some x → ∀ ds ∈ x.dependencies, ∀ e ∈ ds, P e := by
  intro x hx
  cases op with
  | stored ts d l =>
    obtain ⟨y, rfl, rfl⟩ := Option.map_eq_some_iff.mp hx
    exact ho y rfl
  | unstored ts d l =>
    obtain ⟨y, rfl, hy⟩ := Option.bind_eq_some_iff.mp hx
    split at hy
    · cases hy
    · obtain rfl := Option.some.inj hy
      exact ho y rfl
  | mounted ts d r =>
    obtain rfl := Option.some.inj hx
    cases o with
    | none =>
      intro ds hds e he
      obtain rfl : [] = ds := Option.some.inj hds
      cases he
    | some y => exact ho y rfl
  | unmounted ts d r =>
    obtain ⟨y, rfl, rfl⟩ := Option.map_eq_some_iff.mp hx
    exact ho y rfl
  | info ts d ds ct =>
    obtain ⟨y, rfl, rfl⟩ := Option.map_eq_some_iff.mp hx
    intro ds' hds' e he
    obtain rfl : ds = ds' := Option.some.inj hds'
    exact hop e (List.mem_cons_of_mem _ he)
  | stat ts d n =>
    obtain ⟨y, rfl, rfl⟩ := Option.map_eq_some_iff.mp hx
    exact ho y rfl

/-- The digests in the trees are those that were there and those of the actions. -/
theorem onlyDigests_applyActions {P : Digest → Prop} {s s' : Trees} {actions : List RegistryAction}
    (h : applyActions s actions = some s') (hs : s.OnlyDigests P)
    (hactions : ∀ a ∈ actions, ∀ d ∈ a.digests, P d) : s'.OnlyDigests P where
  objects k d := by
    refine record_inv h k d (Q := fun op => ∀ d ∈ op.digests, P d)
      (P := fun o => ∀ x, o = some x → P d ∧ ∀ ds ∈ x.dependencies, ∀ e ∈ ds, P e)
      ?_ (hs.objects k d) ?_
    · intro op hop
      obtain ⟨a, ha, hhalf⟩ := List.mem_filterMap.mp hop
      exact digests_of_half hhalf ▸ hactions a ha
    · rintro o op ho hop rfl - x hx
      have hd : P op.digest := hop _ (by cases op <;> exact List.mem_cons_self ..)
      exact ⟨hd, onlyDigests_act hop (fun y hy => (ho y hy).2) x hx⟩
  tags := by
    refine journal.run_inv_of_meets (I := fun s => ∀ (key : TagKey) d, s.tags[key]? = some d → P d)
      (G := fun _ a => ∀ d ∈ a.digests, P d) ?_ hs.tags (journal.meets_of_forall hactions) h
    intro t a t' ht ha hstep key d hd
    rcases applyAction_tags hstep with ⟨ts, e, r, tag, u, rfl, htags⟩ | ⟨-, htags⟩
    · rw [htags, Std.ExtTreeMap.getElem?_insert] at hd
      split at hd
      · obtain rfl := Option.some.inj hd
        exact ha e (List.mem_singleton_self e)
      · exact ht key d hd
    · exact ht key d (htags ▸ hd)

end Distribd.Store
