import Distribd.Registry.Walk
import Distribd.Registry.Designated

/-! The verdict of the extractor (`extractor.rs`) and the orders of its hash sets. The survey of
    `Walk` says what the walk may come to over all of them; two questions about every execution are
    then questions about it.

    Of several entries for one digest the walk checks the one that it drains first. So the verdict,
    and what is recorded, depends on the order exactly if the manifest can be accepted at all and two
    such entries are found differently in one turn (`verdict_independent_iff`).

    The walk looks for blobs only. So a list or an index is accepted in every order exactly if all
    that the walk may come to passes as a blob, children included (`index_accepted_iff`), wherever
    its children are stored as manifests. -/

namespace Distribd.Registry
open Schemes Store Cluster

/-! ### Every end of the survey is one of the walk -/

section

variable {env : ExtractEnv} {repository : RepositoryName}

/-- The inner loop does not look at the order of the outer one. -/
theorem visitAll_drainOrder (drainOrder : ℕ → Iteration Extraction) (w : Walk)
    (drain : List Extraction) :
    visitAll { env with drainOrder } repository w drain = visitAll env repository w drain := by
  induction drain generalizing w with
  | nil => rfl
  | cons e drain ih =>
    have hone : visit { env with drainOrder } repository w e = visit env repository w e := rfl
    rw [visitAll, visitAll, hone]
    cases visit env repository w e with
    | ok w' => exact ih w'
    | error err => rfl

theorem walk_of_done {w : Walk} (hdone : w.pending = ∅) (fuel n : ℕ) :
    walk env repository fuel n w = some (.ok w) := by
  cases fuel <;> rw [walk, if_pos hdone]

/-- More fuel does not change the end. -/
theorem walk_mono {fuel n : ℕ} {w : Walk} {res : Except WalkError Walk}
    (h : walk env repository fuel n w = some res) (more : ℕ) :
    walk env repository (fuel + more) n w = some res := by
  induction fuel generalizing n w with
  | zero =>
    rw [walk] at h
    split at h
    · rename_i hdone
      rw [walk_of_done hdone]
      exact h
    · cases h
  | succ fuel ih =>
    rw [walk] at h
    rw [Nat.succ_add, walk]
    split at h
    · rename_i hdone
      rw [if_pos hdone]
      exact h
    · rename_i hwork
      rw [if_neg hwork]
      split at h
      · exact ih h
      · exact h

theorem walk_unique {fuel fuel' n : ℕ} {w : Walk} {res res' : Except WalkError Walk}
    (h : walk env repository fuel n w = some res) (h' : walk env repository fuel' n w = some res') :
    res = res' := by
  have hmore := walk_mono h fuel'
  rw [Nat.add_comm, walk_mono h' fuel] at hmore
  exact (Option.some.inj hmore).symm

/-- REALIZED: under some order of the turns from the `n`-th on, the walk ends as the survey does. -/
theorem ends_walk {t : Tour Extraction Digest (Finset Digest × String)}
    {r : Option (Tour Extraction Digest (Finset Digest × String))}
    (h : (survey env repository).Ends t r) (n : ℕ) {w : Walk} (hw : w.tour = t) (hkept : w.Kept)
    (base : ℕ → Iteration Extraction) :
    ∃ drainOrder fuel res, (∀ m < n, drainOrder m = base m) ∧
      walk { env with drainOrder } repository fuel n w = some res ∧ endOf res = r := by
  induction h generalizing n w base with
  | done hdone =>
    subst hw
    exact ⟨base, 0, .ok w, fun _ _ => rfl, walk_of_done hdone 0 n, rfl⟩
  | turn hturn _ ih =>
    subst hw
    obtain ⟨hwork, order, horder, hsome⟩ := hturn
    have hset : IsOrder w.pending order := horder
    obtain ⟨hlook, hnext⟩ := visitAll_lookAll env repository
      (w := { w with pending := ∅ }) hkept order
    change (survey env repository).turn w.tour order = _ at hlook
    rw [hsome] at hlook
    cases hvisit : visitAll env repository { w with pending := ∅ } order with
    | error err =>
      rw [hvisit] at hlook
      cases hlook
    | ok w' =>
      rw [hvisit] at hlook
      obtain ⟨drainOrder, fuel, res, hsame, hwalk, hend⟩ := ih (n + 1)
        (Option.some.inj hlook).symm (hnext w' hvisit)
        (Function.update base n ((base n).except w.pending order hset.1 hset.2))
      refine ⟨drainOrder, fuel + 1, res, ?_, ?_, hend⟩
      · intro m hm
        rw [hsame m (by omega), Function.update_of_ne (by omega)]
      · have horder' : (drainOrder n).list w.pending = order := by
          rw [hsame n (by omega), Function.update_self, Iteration.except_list]
        rw [walk, if_neg (show ¬ w.pending = ∅ from hwork)]
        simp only [horder', visitAll_drainOrder, hvisit]
        exact hwalk
  | @fail _ order hwork horder hfail =>
    subst hw
    have hset : IsOrder w.pending order := horder
    obtain ⟨hlook, -⟩ := visitAll_lookAll env repository
      (w := { w with pending := ∅ }) hkept order
    change (survey env repository).turn w.tour order = _ at hlook
    rw [hfail] at hlook
    cases hvisit : visitAll env repository { w with pending := ∅ } order with
    | ok w' =>
      rw [hvisit] at hlook
      cases hlook
    | error err =>
      refine ⟨Function.update base n ((base n).except w.pending order hset.1 hset.2), 1,
        .error err, ?_, ?_, rfl⟩
      · intro m hm
        rw [Function.update_of_ne (by omega)]
      · rw [walk, if_neg (show ¬ w.pending = ∅ from hwork)]
        simp only [Function.update_self, Iteration.except_list, visitAll_drainOrder, hvisit]

end

/-! ### Verdicts -/

/-- The same input with other orders of the hash sets. -/
def ExtractEnv.reordered (env : ExtractEnv) (manifestOrder : Iteration Extraction)
    (blobOrder : Digest → Iteration Extraction) (drainOrder : ℕ → Iteration Extraction) :
    ExtractEnv :=
  { env with manifestOrder, blobOrder, drainOrder }

/-- Rejected both, or accepted both with the same content type and the same set of dependencies for
    each digest. -/
def SameVerdict :
    Except WalkError (Extracted × List Digest) → Except WalkError (Extracted × List Digest) → Prop
  | .ok (x, _), .ok (y, _) => x.contentType = y.contentType ∧
      x.dependencies.toFinset = y.dependencies.toFinset ∧ recordsOf x.blobs = recordsOf y.blobs
  | .error _, .error _ => True
  | _, _ => False

/-- A verdict as an end of the survey. -/
def verdictOf : Except WalkError (Extracted × List Digest) →
    Option (Tour Extraction Digest (Finset Digest × String))
  | .ok (x, _) => some ⟨recordsOf x.blobs, ∅⟩
  | .error _ => none

/-- What the walk may come to, over all orders, from these entries of the manifest: the records so
    far, and what is pending. -/
def Comes (env : ExtractEnv) (repository : RepositoryName) (dependencies : Finset Extraction)
    (t : Tour Extraction Digest (Finset Digest × String)) : Prop :=
  (survey env repository).Reached ⟨∅, dependencies⟩ t

/-- The entry passes: a blob of the repository, of the declared size if there is one, and with a
    text if its type has a schema. -/
def Passes (env : ExtractEnv) (repository : RepositoryName) (e : Extraction) : Prop :=
  Owned env.trees repository e ∧ (e.contentType ∈ schemas → (env.blobText e.digest).isSome)

section

variable {env : ExtractEnv} {repository : RepositoryName} {contentType text : String}

theorem tour_start (dependencies : Finset Extraction) :
    (Walk.start dependencies).tour = ⟨∅, dependencies⟩ := rfl

/-- An execution ends as the survey may, and refers to what the manifest names. -/
theorem extract_ends (env : ExtractEnv) (hvalid : validate env.tools contentType text = true)
    {res : Except WalkError (Extracted × List Digest)}
    (h : extract env repository contentType (some text) = some res) :
    (survey env repository).Ends ⟨∅, ownDependencies env.tools contentType (some text)⟩
        (verdictOf res) ∧
      ∀ x paths, res = .ok (x, paths) → x.contentType = contentType ∧
        x.dependencies.toFinset =
          (ownDependencies env.tools contentType (some text)).image Extraction.digest := by
  rw [extract_of_valid hvalid] at h
  obtain ⟨walked, hwalk, rfl⟩ := Option.map_eq_some_iff.mp h
  obtain ⟨hends, -⟩ := walk_ends (kept_start _) hwalk
  rw [tour_start] at hends
  cases walked with
  | error err => exact ⟨hends, nofun⟩
  | ok w =>
    refine ⟨?_, ?_⟩
    · have hdone : w.pending = ∅ := Survey.pending_of_ends hends
      simpa only [endOf, verdictOf, Walk.tour, hdone] using hends
    · rintro x paths ⟨⟩
      refine ⟨rfl, ?_⟩
      ext d
      simp

/-- Every end of the survey is the verdict of some execution. -/
theorem ends_extract (hvalid : validate env.tools contentType text = true)
    {r : Option (Tour Extraction Digest (Finset Digest × String))}
    (h : (survey env repository).Ends ⟨∅, ownDependencies env.tools contentType (some text)⟩ r) :
    ∃ drainOrder res, extract (env.reordered env.manifestOrder env.blobOrder drainOrder) repository
      contentType (some text) = some res ∧ verdictOf res = r := by
  obtain ⟨drainOrder, fuel, walked, -, hwalk, hend⟩ := ends_walk h 0
    (w := Walk.start (ownDependencies env.tools contentType (some text))) rfl (kept_start _)
    env.drainOrder
  obtain ⟨res, hres⟩ := Option.isSome_iff_exists.mp (extract_isSome
    (env.reordered env.manifestOrder env.blobOrder drainOrder) repository contentType (some text))
  refine ⟨drainOrder, res, hres, ?_⟩
  have hvalid' : validate (env.reordered env.manifestOrder env.blobOrder drainOrder).tools
      contentType text = true := hvalid
  rw [extract_of_valid hvalid'] at hres
  obtain ⟨walked', hwalk', rfl⟩ := Option.map_eq_some_iff.mp hres
  obtain rfl := walk_unique hwalk hwalk'
  cases walked with
  | error err => exact hend
  | ok w =>
    subst hend
    have hdone : w.pending = ∅ := Survey.pending_of_ends h
    simp only [endOf, verdictOf, Walk.tour, hdone]

/-- The lookups on this node: what is found has a record, and is decided by digest and type. -/
theorem find_isSome {e : Extraction} (h : ((survey env repository).find e).isSome) :
    (survey env repository).key e ∈ env.trees.blobs.keys.toFinset := by
  rw [find_eq, Option.isSome_map] at h
  obtain ⟨⟨blob, hblob, -⟩, -⟩ := inspect_isSome_iff.mp h
  rw [List.mem_toFinset, Std.ExtTreeMap.mem_keys, Std.ExtTreeMap.mem_iff_isSome_getElem?]
  exact Option.isSome_of_mem hblob

theorem find_det {e f : Extraction} {a : Finset Digest × String} {more more' : Finset Extraction}
    (hkey : (survey env repository).key e = (survey env repository).key f)
    (he : (survey env repository).find e = some (a, more))
    (hf : (survey env repository).find f = some (a, more')) : more = more' := by
  rw [find_eq, Option.map_eq_some_iff] at he hf
  obtain ⟨m, hm, hfound⟩ := he
  obtain ⟨m', hm', hfound'⟩ := hf
  obtain ⟨ha, rfl⟩ := Prod.mk.inj hfound
  obtain ⟨ha', rfl⟩ := Prod.mk.inj hfound'
  exact inspect_congr hkey (congrArg Prod.snd (ha.trans ha'.symm)) hm hm'

/-- Two entries for one digest are found the same exactly if both pass, with one type, or neither
    does. -/
theorem find_eq_iff {e f : Extraction} (hdigest : e.digest = f.digest) :
    (survey env repository).find f = (survey env repository).find e ↔
      (Passes env repository e ↔ Passes env repository f) ∧
        (Passes env repository e → e.contentType = f.contentType) := by
  unfold Passes
  rw [← inspect_isSome_iff, ← inspect_isSome_iff, find_eq, find_eq]
  cases he : inspect env repository e with
  | none => cases hf : inspect env repository f <;> simp
  | some more =>
    cases hf : inspect env repository f with
    | none => simp
    | some more' =>
      simp only [Option.map_some, Option.some.injEq, Prod.mk.injEq, Option.isSome_some, true_and,
        forall_const]
      constructor
      · exact fun h => h.1.2.symm
      · intro htype
        obtain rfl := inspect_congr hdigest htype he hf
        exact ⟨⟨rfl, htype.symm⟩, rfl⟩

end

/-- A document that is not read or not valid is rejected in every order. -/
theorem extract_of_not_valid (env : ExtractEnv) (repository : RepositoryName)
    {contentType : String} {data : Option String}
    (h : ∀ text, data = some text → validate env.tools contentType text = false) :
    ∃ err, extract env repository contentType data = some (.error err) := by
  cases data with
  | none => exact ⟨_, rfl⟩
  | some text =>
    refine ⟨⟨.schemaValidationError, []⟩, ?_⟩
    simp only [extract, h text rfl, if_true]

/-- For a valid document the executions agree exactly if the survey has one end. -/
theorem same_iff_unique {env : ExtractEnv} {repository : RepositoryName} {contentType text : String}
    (hvalid : validate env.tools contentType text = true) :
    (∀ manifestOrder blobOrder drainOrder manifestOrder' blobOrder' drainOrder' res res',
      extract (env.reordered manifestOrder blobOrder drainOrder) repository contentType (some text) =
        some res →
      extract (env.reordered manifestOrder' blobOrder' drainOrder') repository contentType
        (some text) = some res' → SameVerdict res res') ↔
    ∀ r r', (survey env repository).Ends
        ⟨∅, ownDependencies env.tools contentType (some text)⟩ r →
      (survey env repository).Ends ⟨∅, ownDependencies env.tools contentType (some text)⟩ r' →
        r = r' := by
  constructor
  · intro hsame r r' hr hr'
    obtain ⟨drainOrder, res, hres, rfl⟩ := ends_extract hvalid hr
    obtain ⟨drainOrder', res', hres', rfl⟩ := ends_extract hvalid hr'
    have h := hsame _ _ _ _ _ _ res res' hres hres'
    rcases res with err | ⟨x, paths⟩ <;> rcases res' with err' | ⟨y, paths'⟩
    · rfl
    · exact h.elim
    · exact h.elim
    · simp only [verdictOf, h.2.2]
  · intro hunique m b o m' b' o' res res' hres hres'
    obtain ⟨hends, hx⟩ := extract_ends (env.reordered m b o) hvalid hres
    obtain ⟨hends', hy⟩ := extract_ends (env.reordered m' b' o') hvalid hres'
    have h := hunique _ _ hends hends'
    rcases res with err | ⟨x, paths⟩ <;> rcases res' with err' | ⟨y, paths'⟩
    · trivial
    · cases h
    · cases h
    · obtain ⟨hxtype, hxdeps⟩ := hx x paths rfl
      obtain ⟨hytype, hydeps⟩ := hy y paths' rfl
      refine ⟨hxtype.trans hytype.symm, hxdeps.trans hydeps.symm, ?_⟩
      exact congrArg Tour.records (Option.some.inj h)

/-- INDEPENDENT OF THE ORDER: any two executions on one input agree in their verdict and in what they
    record exactly if the document is not valid, or cannot be accepted in any order, or two entries
    for one digest that is neither seen nor analysed never come together in a turn unless both pass
    with one media type, or both fail. -/
theorem verdict_independent_iff (env : ExtractEnv) (repository : RepositoryName)
    (contentType : String) (data : Option String) :
    (∀ manifestOrder blobOrder drainOrder manifestOrder' blobOrder' drainOrder' res res',
      extract (env.reordered manifestOrder blobOrder drainOrder) repository contentType data =
        some res →
      extract (env.reordered manifestOrder' blobOrder' drainOrder') repository contentType data =
        some res' → SameVerdict res res') ↔
    ∀ text, data = some text → validate env.tools contentType text = true →
      (∃ t, Comes env repository (ownDependencies env.tools contentType data) t ∧
        t.pending = ∅) →
      ∀ t, Comes env repository (ownDependencies env.tools contentType data) t →
        ∀ e ∈ t.pending, ∀ f ∈ t.pending, e.digest = f.digest → e.digest ∉ t.seen →
          ¬ Analysed env.trees e.digest →
          (Passes env repository e ↔ Passes env repository f) ∧
            (Passes env repository e → e.contentType = f.contentType) := by
  by_cases hvalid : ∃ text, data = some text ∧ validate env.tools contentType text = true
  · obtain ⟨text, rfl, hvalid⟩ := hvalid
    rw [same_iff_unique hvalid, Survey.ends_unique_iff (fun e => find_isSome) find_det (by
      intro p hp
      simp at hp), Survey.succeeds_iff]
    constructor
    · intro hclear text' htext' _ hsucceeds t ht e he f hf hdigest hseen hanalysed
      exact (find_eq_iff hdigest).mp
        (hclear hsucceeds t ht e he f hf hdigest ⟨hseen, hanalysed⟩)
    · intro hall hsucceeds t ht e he f hf hdigest hfresh
      exact (find_eq_iff hdigest).mpr
        (hall text rfl hvalid hsucceeds t ht e he f hf hdigest hfresh.1 hfresh.2)
  · refine iff_of_true ?_ ?_
    · intro m b o m' b' o' res res' hres hres'
      have hnot : ∀ text, data = some text → validate env.tools contentType text = false := by
        intro text htext
        by_contra hne
        exact hvalid ⟨text, htext, by simpa using hne⟩
      obtain ⟨err, herr⟩ := extract_of_not_valid (env.reordered m b o) repository
        hnot
      obtain ⟨err', herr'⟩ := extract_of_not_valid (env.reordered m' b' o') repository
        hnot
      obtain rfl := Option.some.inj (herr.symm.trans hres)
      obtain rfl := Option.some.inj (herr'.symm.trans hres')
      trivial
    · intro text htext htrue
      exact (hvalid ⟨text, htext, htrue⟩).elim

/-! ### An image that names one blob twice -/

/-- The config and a layer are one blob, with different sizes. -/
def twiceText : String :=
  "\x7b\"schemaVersion\":2," ++
  "\"mediaType\":\"application/vnd.docker.distribution.manifest.v2+json\"," ++
  "\"config\":\x7b\"mediaType\":\"application/vnd.docker.container.image.v1+json\",\"size\":12," ++
  "\"digest\":" ++
  "\"sha256:09ca7e4eaa6e8ae9c7d261167129184883644d07dfba7cbfbc4c8a2e08360d5b\"\x7d," ++
  "\"layers\":[\x7b\"mediaType\":\"application/vnd.docker.image.rootfs.diff.tar.gzip\"," ++
  "\"size\":13,\"digest\":" ++
  "\"sha256:09ca7e4eaa6e8ae9c7d261167129184883644d07dfba7cbfbc4c8a2e08360d5b\"\x7d]\x7d"

def twiceJson : Json :=
  .object [("schemaVersion", .unsigned 2),
    ("mediaType", .string "application/vnd.docker.distribution.manifest.v2+json"),
    ("config", .object [("mediaType", .string "application/vnd.docker.container.image.v1+json"),
      ("size", .unsigned 12),
      ("digest",
        .string "sha256:09ca7e4eaa6e8ae9c7d261167129184883644d07dfba7cbfbc4c8a2e08360d5b")]),
    ("layers", .array [.object [
      ("mediaType", .string "application/vnd.docker.image.rootfs.diff.tar.gzip"),
      ("size", .unsigned 13),
      ("digest",
        .string "sha256:09ca7e4eaa6e8ae9c7d261167129184883644d07dfba7cbfbc4c8a2e08360d5b")]])]

/-- Its two entries. -/
def asConfig : Extraction :=
  ⟨helloDigest, "application/vnd.docker.container.image.v1+json", some 12⟩

def asLayer : Extraction :=
  ⟨helloDigest, "application/vnd.docker.image.rootfs.diff.tar.gzip", some 13⟩

/-- The extractor, which drains the two entries in this order. -/
def twiceEnv (order : List Extraction) (hnodup : order.Nodup)
    (hset : order.toFinset = {asConfig, asLayer}) : ExtractEnv :=
  { imageEnv configUploaded with
    tools := schemasFor twiceText twiceJson
    drainOrder := fun _ => Iteration.ascending.except {asConfig, asLayer} order hnodup hset }

/-- It is accepted if the config is drained first, and rejected if the layer is. -/
theorem verdict_swapped :
    ∃ res res',
      extract (twiceEnv [asConfig, asLayer] (by decide) (by decide)) ⟨"library/a"⟩
        "application/vnd.docker.distribution.manifest.v2+json" (some twiceText) = some res ∧
      extract (twiceEnv [asLayer, asConfig] (by decide) (by decide)) ⟨"library/a"⟩
        "application/vnd.docker.distribution.manifest.v2+json" (some twiceText) = some res' ∧
      ¬ SameVerdict res res' := by
  have haccepted : ((extract (twiceEnv [asConfig, asLayer] (by decide) (by decide)) ⟨"library/a"⟩
      "application/vnd.docker.distribution.manifest.v2+json" (some twiceText)).bind
        Except.toOption).isSome = true := by decide +kernel
  have hrejected : ((extract (twiceEnv [asLayer, asConfig] (by decide) (by decide)) ⟨"library/a"⟩
      "application/vnd.docker.distribution.manifest.v2+json" (some twiceText)).map
        Except.toBool) = some false := by decide +kernel
  obtain ⟨accepted, hsome⟩ := Option.isSome_iff_exists.mp haccepted
  obtain ⟨res, hres, hok⟩ := Option.bind_eq_some_iff.mp hsome
  obtain rfl := eq_ok_of_toOption hok
  obtain ⟨res', hres', herror⟩ := Option.map_eq_some_iff.mp hrejected
  refine ⟨_, res', hres, hres', ?_⟩
  intro hsame
  cases res' with
  | ok verdict => cases herror
  | error err => exact hsame

/-! ### Pushing a list or an index -/

/-- The content types of a list and of an index. -/
def indexTypes : List String :=
  ["application/vnd.docker.distribution.manifest.list.v2+json",
   "application/vnd.oci.image.index.v1+json"]

/-- A valid list or index whose children are all stored as manifests: recorded in the repository with
    the declared size, and with a file; `isFile` is for the directory of manifests. -/
structure ChildrenStored (env : ExtractEnv) (isFile : Digest → Bool) (repository : RepositoryName)
    (contentType text : String) : Prop where
  index : contentType ∈ indexTypes
  valid : validate env.tools contentType text = true
  stored : ∀ json ∈ env.tools.fromStr text, ∀ child ∈ elementsOf "manifests" json,
    ∃ d ∈ (textOf "digest" child).bind Digest.tryFrom, ∃ manifest ∈ env.trees.manifests[d]?,
      repository ∈ manifest.repositories ∧ manifest.size.isSome ∧
        (valueOf "size" child).bind Json.asU64 = manifest.size ∧ isFile d = true

/-- ACCEPTED: with its children stored, a list or an index is accepted in every order exactly if every
    entry passes, as a blob, that the walk may come to and that is neither seen nor analysed: its
    children, and what their texts in the directory of blobs name in turn. -/
theorem index_accepted_iff {env : ExtractEnv} {isFile : Digest → Bool}
    {repository : RepositoryName} {contentType text : String}
    (h : ChildrenStored env isFile repository contentType text) :
    (∀ manifestOrder blobOrder drainOrder, ∃ x paths,
      extract (env.reordered manifestOrder blobOrder drainOrder) repository contentType
        (some text) = some (.ok (x, paths))) ↔
    ∀ t, Comes env repository (ownDependencies env.tools contentType (some text)) t →
      ∀ e ∈ t.pending, e.digest ∉ t.seen → ¬ Analysed env.trees e.digest →
        Passes env repository e := by
  have hnever := Survey.never_fails_iff (V := survey env repository)
    (t := ⟨∅, ownDependencies env.tools contentType (some text)⟩)
  constructor
  · intro haccepted t ht e he hseen hanalysed
    have hfails : ¬ (survey env repository).Ends
        ⟨∅, ownDependencies env.tools contentType (some text)⟩ none := by
      intro hends
      obtain ⟨drainOrder, res, hres, hverdict⟩ := ends_extract h.valid hends
      obtain ⟨x, paths, hok⟩ := haccepted env.manifestOrder env.blobOrder drainOrder
      obtain rfl := Option.some.inj (hok.symm.trans hres)
      cases hverdict
    have hfind := hnever.mp hfails t ht e he ⟨hseen, hanalysed⟩
    rw [find_eq, Option.isSome_map] at hfind
    exact inspect_isSome_iff.mp hfind
  · intro hpasses m b o
    obtain ⟨res, hres⟩ := Option.isSome_iff_exists.mp (extract_isSome
      (env.reordered m b o) repository contentType (some text))
    obtain ⟨hends, -⟩ := extract_ends (env.reordered m b o) h.valid hres
    rcases res with err | ⟨x, paths⟩
    · refine (hnever.mpr ?_ hends).elim
      intro t ht e he hfresh
      rw [find_eq, Option.isSome_map]
      exact inspect_isSome_iff.mpr (hpasses t ht e he hfresh.1 hfresh.2)
    · exact ⟨x, paths, hres⟩

/-- So its own entries are blobs of the repository, but for those that are analysed. -/
theorem owned_of_named {env : ExtractEnv} {repository : RepositoryName}
    {dependencies : Finset Extraction}
    (h : ∀ t, Comes env repository dependencies t → ∀ e ∈ t.pending, e.digest ∉ t.seen →
      ¬ Analysed env.trees e.digest → Passes env repository e) :
    ∀ e ∈ dependencies, ¬ Analysed env.trees e.digest → Owned env.trees repository e := by
  intro e he hanalysed
  exact (h ⟨∅, dependencies⟩ .refl e he (Finset.notMem_empty _) hanalysed).1

/-! ### A list with one child -/

/-- The image has been pushed to `library/a`, with its config. -/
def childPushed : List RegistryAction :=
  configAnalysed ++ [.manifestMounted 4 childDigest ⟨"library/a"⟩ "alice",
    .manifestStat 5 childDigest 263,
    .manifestInfo 6 childDigest [helloDigest]
      "application/vnd.docker.distribution.manifest.v2+json",
    .manifestStored 7 childDigest 1 "alice"]

/-- The extractor on that node, whose directory of manifests has the image. -/
def platformsEnv : ExtractEnv :=
  { imageEnv childPushed with tools := schemasFor platformsText platformsJson }

theorem childrenStored_platformsEnv :
    ChildrenStored platformsEnv (fun d => d = childDigest) ⟨"library/a"⟩
      "application/vnd.docker.distribution.manifest.list.v2+json" platformsText where
  index := by decide
  valid := by decide +kernel
  stored := by decide +kernel

theorem index_not_always_accepted : ¬ ∀ manifestOrder blobOrder drainOrder, ∃ x paths,
    extract (platformsEnv.reordered manifestOrder blobOrder drainOrder) ⟨"library/a"⟩
      "application/vnd.docker.distribution.manifest.list.v2+json" (some platformsText) =
        some (.ok (x, paths)) := by
  rw [index_accepted_iff childrenStored_platformsEnv]
  intro hpasses
  have hnot : ¬ ∀ e ∈ ownDependencies platformsEnv.tools
      "application/vnd.docker.distribution.manifest.list.v2+json" (some platformsText),
      ¬ Analysed platformsEnv.trees e.digest → Owned platformsEnv.trees ⟨"library/a"⟩ e := by
    decide +kernel
  exact hnot (owned_of_named hpasses)

/-- THE CHILD IS THERE, and the list is rejected. -/
theorem index_rejected :
    ChildrenStored platformsEnv (fun d => d = childDigest) ⟨"library/a"⟩
      "application/vnd.docker.distribution.manifest.list.v2+json" platformsText ∧
    ∃ err, extract platformsEnv ⟨"library/a"⟩
      "application/vnd.docker.distribution.manifest.list.v2+json" (some platformsText) =
        some (.error err) := by
  refine ⟨childrenStored_platformsEnv, ?_⟩
  have hrejected : ((extract platformsEnv ⟨"library/a"⟩
      "application/vnd.docker.distribution.manifest.list.v2+json" (some platformsText)).map
        Except.toBool) = some false := by decide +kernel
  obtain ⟨res, hres, herror⟩ := Option.map_eq_some_iff.mp hrejected
  cases res with
  | ok verdict => cases herror
  | error err => exact ⟨err, hres⟩

end Distribd.Registry
