import Distribd.Schemes.Survey
import Distribd.Registry.Extractor

/-! The walk of the extractor as a survey (`extractor.rs`). The entries are the extractions, their
    keys the digests; a blob that has been analysed is skipped, and a lookup fails where the walk
    does (`inspect`). Every end of the walk is an end of the survey, and the other way round under
    some order of the hash sets (`walk_ends`, `ends_walk`).

    The walk ends whatever the blobs contain, analyses each blob once, and leaves no digest that it
    has come to without a content type (`analysed_once`). -/

namespace Distribd.Registry
open Schemes Store Cluster

/-! ### A look at one entry -/

/-- What the walk finds behind an entry that it has not seen and that has not been analysed: the
    entries of its document if its type has a schema; `none`: it fails. -/
def inspect (env : ExtractEnv) (repository : RepositoryName) (e : Extraction) :
    Option (Finset Extraction) :=
  match env.trees.blobs[e.digest]? with
  | some blob =>
    if repository ∉ blob.repositories then none
    else if e.size.isSome ∧ e.size ≠ blob.size then none
    else if e.contentType ∉ schemas then some ∅
    else (env.blobText e.digest).bind fun data =>
      (extractOne env.tools e.contentType data).toOption
  | none => none

/-- The walk as a survey: a record is a content type with the set of dependencies. -/
def survey (env : ExtractEnv) (repository : RepositoryName) :
    Survey Extraction Digest (Finset Digest × String) where
  key := Extraction.digest
  skip := Analysed env.trees
  find e := (inspect env repository e).map fun more =>
    ((more.image Extraction.digest, e.contentType), more)

instance (env : ExtractEnv) (repository : RepositoryName) :
    DecidablePred (survey env repository).skip :=
  fun d => inferInstanceAs (Decidable (Analysed env.trees d))

theorem find_eq (env : ExtractEnv) (repository : RepositoryName) (e : Extraction) :
    (survey env repository).find e = (inspect env repository e).map fun more =>
      ((more.image Extraction.digest, e.contentType), more) := rfl

/-- The records of an analysis. -/
def recordsOf (analysis : List (Digest × List Digest × String)) :
    Finset (Digest × Finset Digest × String) :=
  (analysis.map fun entry => (entry.1, entry.2.1.toFinset, entry.2.2)).toFinset

theorem recordsOf_concat (analysis : List (Digest × List Digest × String)) (d : Digest)
    (ds : List Digest) (contentType : String) :
    recordsOf (analysis ++ [(d, ds, contentType)]) =
      insert (d, ds.toFinset, contentType) (recordsOf analysis) := by
  ext record
  simp [recordsOf, eq_comm]

/-- The walk, seen as a survey. -/
def Walk.tour (w : Walk) : Tour Extraction Digest (Finset Digest × String) :=
  ⟨recordsOf w.analysis, w.pending⟩

/-- What has been seen is what has been analysed, once. -/
def Walk.Kept (w : Walk) : Prop :=
  (w.analysis.map Prod.fst).Nodup ∧ ∀ d, d ∈ w.seen ↔ d ∈ w.analysis.map Prod.fst

/-- How a walk ends, as an end of the survey. -/
def endOf : Except WalkError Walk → Option (Tour Extraction Digest (Finset Digest × String))
  | .ok w => some w.tour
  | .error _ => none

section

variable {env : ExtractEnv} {repository : RepositoryName}

/-- `extract_one` never fails. -/
theorem extractOne_ok (tools : JsonTools) (contentType data : String) :
    ∃ entries, extractOne tools contentType data = .ok entries := by
  unfold extractOne
  split <;> exact ⟨_, rfl⟩

/-- An entry passes exactly if it is owned and, for a type with a schema, its file can be read. -/
theorem inspect_isSome_iff {e : Extraction} : (inspect env repository e).isSome ↔
    Owned env.trees repository e ∧ (e.contentType ∈ schemas → (env.blobText e.digest).isSome) := by
  unfold inspect Owned
  cases hblob : env.trees.blobs[e.digest]? with
  | none => simp
  | some blob =>
    simp only [Option.mem_def, Option.some.injEq, exists_eq_left']
    by_cases hrepo : repository ∈ blob.repositories
    case neg => simp [hrepo]
    case pos =>
      rw [if_neg (not_not.mpr hrepo)]
      by_cases hsize : e.size.isSome ∧ e.size ≠ blob.size
      case pos =>
        rw [if_pos hsize]
        refine iff_of_false nofun ?_
        rintro ⟨⟨-, heq⟩, -⟩
        exact hsize.2 (heq hsize.1)
      case neg =>
        rw [if_neg hsize]
        have hsize' : e.size.isSome → e.size = blob.size :=
          fun hsome => by_contra fun hne => hsize ⟨hsome, hne⟩
        by_cases htype : e.contentType ∈ schemas
        · rw [if_neg (not_not.mpr htype)]
          cases htext : env.blobText e.digest with
          | none => simp [htype]
          | some data =>
            obtain ⟨more, hmore⟩ := extractOne_ok env.tools e.contentType data
            simpa [hrepo, hmore, Except.toOption] using hsize'
        · simpa [htype, hrepo] using hsize'

/-- What passes for one digest and content type is found the same. -/
theorem inspect_congr {e f : Extraction} {more more' : Finset Extraction}
    (hdigest : e.digest = f.digest) (htype : e.contentType = f.contentType)
    (he : inspect env repository e = some more) (hf : inspect env repository f = some more') :
    more = more' := by
  unfold inspect at he hf
  rw [hdigest] at he
  cases hblob : env.trees.blobs[f.digest]? with
  | none =>
    rw [hblob] at he
    cases he
  | some blob =>
    simp only [hblob] at he hf
    split at he
    · cases he
    · split at he
      · cases he
      · split at hf
        · cases hf
        · split at hf
          · cases hf
          · rw [htype] at he
            exact Option.some.inj (he.symm.trans hf)

/-- A visit is a lookup, unless there is nothing to do. -/
theorem visit_eq (env : ExtractEnv) (repository : RepositoryName) (w : Walk) (e : Extraction) :
    ∃ paths, visit env repository w e =
    if e.digest ∈ w.seen ∨ Analysed env.trees e.digest then .ok w
    else match inspect env repository e with
      | some more => .ok ⟨w.analysis ++ [(e.digest,
          ((env.blobOrder e.digest).list more).map (·.digest), e.contentType)],
          w.pending ∪ more, insert e.digest w.seen, paths⟩
      | none => .error ⟨.unknownError, paths⟩ := by
  by_cases hseen : e.digest ∈ w.seen
  · exact ⟨[], by rw [if_pos (.inl hseen), visit, if_pos hseen]⟩
  · by_cases hanalysed : Analysed env.trees e.digest
    · refine ⟨[], ?_⟩
      rw [if_pos (.inr hanalysed), visit, if_neg hseen]
      obtain ⟨blob, hblob, hsome⟩ := hanalysed
      rw [Option.mem_def.mp hblob]
      exact if_pos hsome
    · simp only [if_neg (not_or.mpr ⟨hseen, hanalysed⟩)]
      unfold visit inspect
      rw [if_neg hseen]
      cases hblob : env.trees.blobs[e.digest]? with
      | none => exact ⟨w.paths, rfl⟩
      | some blob =>
        have hsome : ¬ blob.contentType.isSome := fun hsome => hanalysed ⟨blob, hblob, hsome⟩
        simp only [if_neg hsome]
        by_cases hrepo : repository ∉ blob.repositories
        · exact ⟨w.paths, by simp only [if_pos hrepo]⟩
        · by_cases hsize : e.size.isSome ∧ e.size ≠ blob.size
          · exact ⟨w.paths, by simp only [if_neg hrepo, if_pos hsize]⟩
          · by_cases htype : e.contentType ∉ schemas
            · refine ⟨w.paths, ?_⟩
              simp only [if_neg hrepo, if_neg hsize, if_pos htype, Walk.record, Finset.union_empty,
                Iteration.list_empty, List.map_nil]
            · refine ⟨w.paths ++ [e.digest], ?_⟩
              simp only [if_neg hrepo, if_neg hsize, if_neg htype]
              cases htext : env.blobText e.digest with
              | none => rfl
              | some data =>
                obtain ⟨more, hmore⟩ := extractOne_ok env.tools e.contentType data
                simp only [Option.bind_some, hmore, Except.toOption, Walk.record]

/-- Everything one visit can do, with what it records. -/
theorem visit_cases {w w' : Walk} {e : Extraction} (h : visit env repository w e = .ok w') :
    (w' = w ∧ (e.digest ∈ w.seen ∨ Analysed env.trees e.digest)) ∨
    (¬ (e.digest ∈ w.seen ∨ Analysed env.trees e.digest) ∧ ∃ more paths,
      inspect env repository e = some more ∧ w' =
        ⟨w.analysis ++ [(e.digest, ((env.blobOrder e.digest).list more).map (·.digest),
          e.contentType)], w.pending ∪ more, insert e.digest w.seen, paths⟩) := by
  obtain ⟨paths, heq⟩ := visit_eq env repository w e
  rw [heq] at h
  split at h
  · rename_i hskip
    cases h
    exact .inl ⟨rfl, hskip⟩
  · rename_i hfresh
    split at h
    · rename_i more hinspect
      cases h
      exact .inr ⟨hfresh, more, paths, hinspect, rfl⟩
    · cases h

/-- A visit fails where the lookup does. -/
theorem visit_error {w : Walk} {e : Extraction} {err : WalkError}
    (h : visit env repository w e = .error err) :
    ¬ (e.digest ∈ w.seen ∨ Analysed env.trees e.digest) ∧ inspect env repository e = none := by
  obtain ⟨paths, heq⟩ := visit_eq env repository w e
  rw [heq] at h
  split at h
  · cases h
  · rename_i hfresh
    split at h
    · cases h
    · rename_i hinspect
      exact ⟨hfresh, hinspect⟩

/-! ### The walk and the survey -/

theorem mem_tour_seen {w : Walk} (hkept : w.Kept) (d : Digest) : d ∈ w.tour.seen ↔ d ∈ w.seen := by
  rw [hkept.2 d, Tour.seen, Finset.mem_image, List.mem_map]
  simp only [Walk.tour, recordsOf, List.mem_toFinset, List.mem_map]
  constructor
  · rintro ⟨-, ⟨entry, hentry, rfl⟩, rfl⟩
    exact ⟨entry, hentry, rfl⟩
  · rintro ⟨entry, hentry, rfl⟩
    exact ⟨_, ⟨entry, hentry, rfl⟩, rfl⟩

theorem fresh_iff {w : Walk} (hkept : w.Kept) (e : Extraction) :
    (survey env repository).Fresh w.tour e ↔
      ¬ (e.digest ∈ w.seen ∨ Analysed env.trees e.digest) := by
  rw [not_or, ← mem_tour_seen hkept]
  exact Iff.rfl

/-- A visit is what the survey does with the entry. -/
theorem visit_look (env : ExtractEnv) (repository : RepositoryName) {w : Walk} (hkept : w.Kept)
    (e : Extraction) :
    (survey env repository).look w.tour e = endOf (visit env repository w e) ∧
      ∀ w', visit env repository w e = .ok w' → w'.Kept := by
  cases hvisit : visit env repository w e with
  | error err =>
    obtain ⟨hfresh, hinspect⟩ := visit_error hvisit
    refine ⟨?_, nofun⟩
    refine Survey.look_none ((fresh_iff hkept e).mpr hfresh) ?_
    rw [find_eq, hinspect, Option.map_none]
  | ok w' =>
    rcases visit_cases hvisit with ⟨rfl, hskip⟩ | ⟨hfresh, more, paths, hinspect, rfl⟩
    · refine ⟨Survey.look_stale (fun h => (fresh_iff hkept e).mp h hskip), ?_⟩
      rintro w' ⟨⟩
      exact hkept
    · have hfind : (survey env repository).find e =
          some ((more.image Extraction.digest, e.contentType), more) := by
        rw [find_eq, hinspect, Option.map_some]
      rw [Survey.look_some ((fresh_iff hkept e).mpr hfresh) hfind]
      refine ⟨?_, ?_⟩
      · have hset : (((env.blobOrder e.digest).list more).map (·.digest)).toFinset =
            more.image Extraction.digest := by
          ext d
          simp
        simp only [endOf, Walk.tour, recordsOf_concat, hset]
        rfl
      · rintro w' ⟨⟩
        have hnew : e.digest ∉ w.analysis.map Prod.fst :=
          fun h => hfresh (.inl ((hkept.2 _).mpr h))
        refine ⟨?_, ?_⟩
        · rw [List.map_append, List.nodup_append]
          refine ⟨hkept.1, by simp, ?_⟩
          rintro d hd d' hd' rfl
          obtain rfl : d = e.digest := by simpa using hd'
          exact hnew hd
        · intro d
          rw [Finset.mem_insert, hkept.2, List.map_append, List.mem_append, or_comm]
          simp

/-- What has been drained is looked at in its order. -/
theorem visitAll_lookAll (env : ExtractEnv) (repository : RepositoryName) {w : Walk}
    (hkept : w.Kept) (drain : List Extraction) :
    (survey env repository).lookAll w.tour drain = endOf (visitAll env repository w drain) ∧
      ∀ w', visitAll env repository w drain = .ok w' → w'.Kept := by
  induction drain generalizing w with
  | nil =>
    refine ⟨rfl, ?_⟩
    rintro w' ⟨⟩
    exact hkept
  | cons e drain ih =>
    obtain ⟨hlook, hnext⟩ := visit_look env repository hkept e
    rw [Survey.lookAll_cons, hlook, visitAll]
    cases hvisit : visit env repository w e with
    | error err => exact ⟨rfl, fun w' h => by cases h⟩
    | ok w' => exact ih (hnext w' hvisit)

/-- A turn of the outer loop is a turn of the survey. -/
theorem visitAll_turn (env : ExtractEnv) (repository : RepositoryName) {w : Walk} (hkept : w.Kept)
    (it : Iteration Extraction) :
    IsOrder w.tour.pending (it.list w.pending) ∧
      (survey env repository).turn w.tour (it.list w.pending) =
        endOf (visitAll env repository { w with pending := ∅ } (it.list w.pending)) ∧
      ∀ w', visitAll env repository { w with pending := ∅ } (it.list w.pending) = .ok w' →
        w'.Kept :=
  ⟨⟨it.nodup _, it.toFinset _⟩,
    visitAll_lookAll env repository (w := { w with pending := ∅ }) hkept _⟩

/-- SIMULATION: the walk ends as the survey may. -/
theorem walk_ends {fuel n : ℕ} {w : Walk} {res : Except WalkError Walk} (hkept : w.Kept)
    (h : walk env repository fuel n w = some res) :
    (survey env repository).Ends w.tour (endOf res) ∧ ∀ w', res = .ok w' → w'.Kept := by
  induction fuel generalizing n w with
  | zero =>
    rw [walk] at h
    split at h
    · rename_i hdone
      cases h
      refine ⟨.done hdone, ?_⟩
      rintro w' ⟨⟩
      exact hkept
    · cases h
  | succ fuel ih =>
    rw [walk] at h
    split at h
    · rename_i hdone
      cases h
      refine ⟨.done hdone, ?_⟩
      rintro w' ⟨⟩
      exact hkept
    · rename_i hwork
      obtain ⟨horder, hturn, hnext⟩ := visitAll_turn env repository hkept (env.drainOrder n)
      split at h
      · rename_i w' hvisit
        rw [hvisit] at hturn
        obtain ⟨hends, hkept'⟩ := ih (hnext w' hvisit) h
        exact ⟨.turn ⟨hwork, _, horder, hturn⟩ hends, hkept'⟩
      · rename_i err hvisit
        rw [hvisit] at hturn
        cases h
        exact ⟨.fail hwork horder hturn, fun w' h => by cases h⟩

/-! ### Each blob once -/

/-- The digests with a `BlobInfo`. -/
def blobInfos (actions : List RegistryAction) : List Digest :=
  actions.filterMap fun
    | .blobInfo _ digest _ _ => some digest
    | _ => none

/-- What the `BlobInfo`s of a digest name. -/
def named (actions : List RegistryAction) (d : Digest) : List Digest :=
  actions.flatMap fun
    | .blobInfo _ digest dependencies _ => if digest = d then dependencies else []
    | _ => []

/-- The actions of an extraction. -/
inductive IsInfo : RegistryAction → Prop
  | manifest (ts : DateTime) (d : Digest) (ds : List Digest) (ct : String) :
      IsInfo (.manifestInfo ts d ds ct)
  | blob (ts : DateTime) (d : Digest) (ds : List Digest) (ct : String) :
      IsInfo (.blobInfo ts d ds ct)

theorem blobInfos_mapIdx (stamps : ℕ → DateTime) (blobs : List (Digest × List Digest × String)) :
    blobInfos (blobs.mapIdx fun i (d, ds, ct) => .blobInfo (stamps i) d ds ct) =
      blobs.map Prod.fst := by
  induction blobs generalizing stamps with
  | nil => rfl
  | cons entry blobs ih =>
    rw [List.mapIdx_cons, List.map_cons]
    exact congrArg (entry.1 :: ·) (ih fun i => stamps (i + 1))

/-- The transaction of an extraction: one `ManifestInfo`, then the `BlobInfo`s. -/
theorem extracted_actions (x : Extracted) (now : Clock) (digest : Digest) :
    ∃ infos, x.actions now digest =
        .manifestInfo (now 0) digest x.dependencies x.contentType :: infos ∧
      (∀ a ∈ infos, ∃ ts d ds ct, a = .blobInfo ts d ds ct ∧ (d, ds, ct) ∈ x.blobs) ∧
      blobInfos infos = x.blobs.map Prod.fst := by
  refine ⟨_, rfl, ?_, ?_⟩
  · intro a ha
    obtain ⟨i, hi, rfl⟩ := List.mem_mapIdx.mp ha
    exact ⟨_, _, _, _, rfl, List.getElem_mem hi⟩
  · exact blobInfos_mapIdx (fun i => now (i + 1)) x.blobs

/-- One information about an object: blobs with a content type keep it, and the blob gets one. -/
theorem applyAction_info {a : RegistryAction} (h : IsInfo a) (s : Trees) :
    ∃ m : Trees, applyAction s a = some m ∧
      (∀ d : Digest, s.blobs[d]? ≠ none → m.blobs[d]? ≠ none) ∧
      (∀ d, Analysed s d → Analysed m d) ∧
      ∀ ts d ds ct, a = .blobInfo ts d ds ct → s.blobs[d]? ≠ none → Analysed m d := by
  cases h with
  | manifest ts d ds ct =>
    exact ⟨_, rfl, fun _ h => h, fun _ h => h, nofun⟩
  | blob ts d ds ct =>
    have hget : ∀ d', (info s.blobs ts d ds ct)[d']? = if d = d' then s.blobs[d']?.map fun o =>
        { o with updated := ts, dependencies := some ds, contentType := some ct }
        else s.blobs[d']? := edit_get _ _ _
    refine ⟨_, rfl, ?_, ?_, ?_⟩
    · intro d' hd'
      change (info s.blobs ts d ds ct)[d']? ≠ none
      rw [hget]
      split
      · rwa [ne_eq, Option.map_eq_none_iff]
      · exact hd'
    · rintro d' ⟨blob, hblob, hsome⟩
      change ∃ blob ∈ (info s.blobs ts d ds ct)[d']?, blob.contentType.isSome
      rw [hget, Option.mem_def.mp hblob]
      split
      · exact ⟨_, rfl, rfl⟩
      · exact ⟨blob, rfl, hsome⟩
    · rintro ts' d' ds' ct' ⟨⟩ hd'
      change ∃ blob ∈ (info s.blobs ts d ds ct)[d]?, blob.contentType.isSome
      obtain ⟨blob, hblob⟩ := Option.ne_none_iff_exists'.mp hd'
      rw [hget, hblob, if_pos rfl]
      exact ⟨_, rfl, rfl⟩

/-- Infos can always be applied, and every recorded blob that has a content type or is given one has
    one afterwards. -/
theorem applyActions_infos {actions : List RegistryAction} (h : ∀ a ∈ actions, IsInfo a)
    (s : Trees) : ∃ s', applyActions s actions = some s' ∧
      ∀ d, Analysed s d ∨ (s.blobs[d]? ≠ none ∧ d ∈ blobInfos actions) → Analysed s' d := by
  induction actions generalizing s with
  | nil =>
    refine ⟨s, rfl, ?_⟩
    rintro d (hd | ⟨-, hd⟩)
    · exact hd
    · cases hd
  | cons a as ih =>
    obtain ⟨m, hm, hkeeps, hstays, hgets⟩ := applyAction_info (h a (by simp)) s
    obtain ⟨s', hs', hafter⟩ := ih (fun b hb => h b (List.mem_cons_of_mem _ hb)) m
    refine ⟨s', ?_, ?_⟩
    · rw [applyActions, journal.run_cons]
      change (applyAction s a).bind _ = _
      rw [hm]
      exact hs'
    · rintro d (hd | ⟨hrecord, hd⟩)
      · exact hafter d (.inl (hstays d hd))
      · obtain ⟨b, hb, hinfo⟩ := List.mem_filterMap.mp hd
        rcases List.mem_cons.mp hb with rfl | hb
        · cases h b (by simp) with
          | manifest => cases hinfo
          | blob ts d' ds ct =>
            obtain rfl : d' = d := Option.some.inj hinfo
            exact hafter _ (.inl (hgets _ _ _ _ rfl hrecord))
        · exact hafter d (.inr ⟨hkeeps d hrecord, List.mem_filterMap.mpr ⟨b, hb, hinfo⟩⟩)

/-! ### The whole of `extract` -/

/-- The walk before its first turn. -/
def Walk.start (dependencies : Finset Extraction) : Walk := ⟨[], dependencies, ∅, []⟩

theorem kept_start (dependencies : Finset Extraction) : (Walk.start dependencies).Kept := by
  simp [Walk.Kept, Walk.start]

/-- A valid document is walked. -/
theorem extract_of_valid {contentType text : String}
    (h : validate env.tools contentType text = true) :
    extract env repository contentType (some text) =
      (walk env repository (walkFuel env) 0
        (Walk.start (ownDependencies env.tools contentType (some text)))).map fun
      | .ok w => .ok (⟨contentType, (env.manifestOrder.list
          (ownDependencies env.tools contentType (some text))).map (·.digest), w.analysis⟩, w.paths)
      | .error e => .error e := by
  obtain ⟨dependencies, hown⟩ := extractOne_ok env.tools contentType text
  simp only [extract, h, ownDependencies, hown, Bool.true_eq_false, if_false]
  rfl

/-- What an accepted document is. -/
theorem extract_ok {contentType : String} {data : Option String} {x : Extracted}
    {paths : List Digest} (h : extract env repository contentType data = some (.ok (x, paths))) :
    ∃ text w, data = some text ∧ validate env.tools contentType text = true ∧
      walk env repository (walkFuel env) 0
        (Walk.start (ownDependencies env.tools contentType data)) = some (.ok w) ∧
      x = ⟨contentType, (env.manifestOrder.list
        (ownDependencies env.tools contentType data)).map (·.digest), w.analysis⟩ := by
  cases data with
  | none => cases h
  | some text =>
    cases hvalid : validate env.tools contentType text with
    | false =>
      simp only [extract, hvalid, if_true] at h
      cases h
    | true =>
      rw [extract_of_valid hvalid] at h
      obtain ⟨res, hwalk, hres⟩ := Option.map_eq_some_iff.mp h
      cases res with
      | error e => cases hres
      | ok w =>
        cases hres
        exact ⟨text, w, rfl, hvalid, hwalk, rfl⟩

/-- What an analysis is made of: each entry is a recorded blob that was not analysed, and whatever it
    or the manifest names was analysed or has an entry. -/
theorem analysis_of_walk {fuel n : ℕ} {dependencies : Finset Extraction} {w : Walk}
    (h : walk env repository fuel n (Walk.start dependencies) = some (.ok w)) :
    (w.analysis.map Prod.fst).Nodup ∧
    (∀ e ∈ dependencies, Analysed env.trees e.digest ∨ e.digest ∈ w.analysis.map Prod.fst) ∧
    ∀ entry ∈ w.analysis, ¬ Analysed env.trees entry.1 ∧ env.trees.blobs[entry.1]? ≠ none ∧
      ∀ d ∈ entry.2.1, Analysed env.trees d ∨ d ∈ w.analysis.map Prod.fst := by
  obtain ⟨hends, hkept⟩ := walk_ends (kept_start dependencies) h
  have hw := hkept w rfl
  obtain ⟨hroots, -, hrecords⟩ := Survey.ends_closed hends
  have hseen : ∀ d, d ∈ w.tour.seen → d ∈ w.analysis.map Prod.fst :=
    fun d hd => (hw.2 d).mp ((mem_tour_seen hw d).mp hd)
  refine ⟨hw.1, ?_, ?_⟩
  · intro e he
    exact (hroots e he).imp_right (hseen _)
  · rintro ⟨d, ds, ct⟩ hentry
    have hrecord : (d, ds.toFinset, ct) ∈ w.tour.records :=
      List.mem_toFinset.mpr (List.mem_map.mpr ⟨_, hentry, rfl⟩)
    rcases hrecords _ hrecord with hstart | ⟨e, more, hkey, hskip, hfind, hmore⟩
    · simp [Walk.tour, Walk.start, recordsOf] at hstart
    · rw [find_eq, Option.map_eq_some_iff] at hfind
      obtain ⟨more', hinspect, hfound⟩ := hfind
      obtain ⟨hpair, rfl⟩ := Prod.mk.inj hfound
      obtain rfl : e.digest = d := hkey
      have hds : more'.image Extraction.digest = ds.toFinset := congrArg Prod.fst hpair
      obtain ⟨⟨blob, hblob, -⟩, -⟩ := inspect_isSome_iff.mp (by rw [hinspect]; rfl)
      refine ⟨hskip, by rw [Option.mem_def.mp hblob]; nofun, ?_⟩
      intro d hd
      rw [← List.mem_toFinset, ← hds] at hd
      obtain ⟨f, hf, rfl⟩ := Finset.mem_image.mp hd
      exact (hmore f hf).imp_right (hseen _)

/-- EACH BLOB ONCE: `extract` ends; and when it accepts, its actions are one `ManifestInfo` with the
    digests that `extract_one` has found, and then `BlobInfo`s, none for a blob that was analysed and
    at most one for each digest, after which every digest that the manifest reaches through them has a
    content type. -/
theorem analysed_once (env : ExtractEnv) (repository : RepositoryName) (contentType : String)
    (data : Option String) (now : Clock) (digest : Digest) :
    (extract env repository contentType data).isSome ∧
    ∀ x paths, extract env repository contentType data = some (.ok (x, paths)) →
      (∃ infos, x.actions now digest =
          .manifestInfo (now 0) digest x.dependencies contentType :: infos ∧
        ∀ a ∈ infos, ∃ ts d ds ct, a = .blobInfo ts d ds ct) ∧
      (x.dependencies : Multiset Digest) =
        (ownDependencies env.tools contentType data).val.map Extraction.digest ∧
      (∀ d ∈ blobInfos (x.actions now digest), ¬ Analysed env.trees d) ∧
      (blobInfos (x.actions now digest)).Nodup ∧
      ∃ trees, applyActions env.trees (x.actions now digest) = some trees ∧
        ∀ d, Schemes.Reaches (named (x.actions now digest)) x.dependencies.toFinset d →
          Analysed trees d := by
  refine ⟨extract_isSome env repository contentType data, ?_⟩
  intro x paths h
  obtain ⟨text, w, rfl, -, hwalk, rfl⟩ := extract_ok h
  obtain ⟨hnodup, hroots, hentries⟩ := analysis_of_walk hwalk
  obtain ⟨infos, hactions, hinfos, hblobs⟩ := extracted_actions ⟨contentType,
    (env.manifestOrder.list (ownDependencies env.tools contentType (some text))).map (·.digest),
    w.analysis⟩ now digest
  have hdigests : blobInfos (.manifestInfo (now 0) digest ((env.manifestOrder.list
      (ownDependencies env.tools contentType (some text))).map (·.digest)) contentType :: infos) =
        w.analysis.map Prod.fst := hblobs
  rw [hactions]
  have hall : ∀ a ∈ RegistryAction.manifestInfo (now 0) digest ((env.manifestOrder.list
      (ownDependencies env.tools contentType (some text))).map (·.digest)) contentType :: infos,
      IsInfo a := by
    intro a ha
    rcases List.mem_cons.mp ha with rfl | ha
    · exact .manifest ..
    · obtain ⟨ts, d, ds, ct, rfl, -⟩ := hinfos a ha
      exact .blob ..
  obtain ⟨trees, htrees, hafter⟩ := applyActions_infos hall env.trees
  refine ⟨⟨infos, rfl, ?_⟩, ?_, ?_, ?_, trees, htrees, ?_⟩
  · intro a ha
    obtain ⟨ts, d, ds, ct, rfl, -⟩ := hinfos a ha
    exact ⟨ts, d, ds, ct, rfl⟩
  · rw [← Multiset.map_coe, Iteration.coe_list]
  · intro d hd
    rw [hdigests] at hd
    obtain ⟨entry, hentry, rfl⟩ := List.mem_map.mp hd
    exact (hentries entry hentry).1
  · rw [hdigests]
    exact hnodup
  · intro d hd
    have hcovered : Analysed env.trees d ∨ d ∈ w.analysis.map Prod.fst := by
      obtain ⟨r, hr, hpath⟩ := hd
      induction hpath with
      | refl =>
        obtain ⟨e, he, rfl⟩ := List.mem_map.mp (List.mem_toFinset.mp hr)
        exact hroots e ((Iteration.mem_list _).mp he)
      | @tail b c _ hedge _ =>
        obtain ⟨a, ha, hc⟩ := List.mem_flatMap.mp hedge
        rcases List.mem_cons.mp ha with rfl | ha
        · cases hc
        · obtain ⟨ts, d', ds, ct, rfl, hentry⟩ := hinfos a ha
          by_cases hd' : d' = b
          · simp only [if_pos hd'] at hc
            exact (hentries _ hentry).2.2 c hc
          · simp only [if_neg hd'] at hc
            cases hc
    refine hafter d (hcovered.imp_right fun hkey => ⟨?_, by rwa [hdigests]⟩)
    obtain ⟨entry, hentry, rfl⟩ := List.mem_map.mp hkey
    exact (hentries entry hentry).2.1

end

/-- The config names the image, which names the config. When a list with the image has been pushed,
    both have a content type. -/
theorem analysed_once_nestedEnv :
    ∃ x paths trees, extract (nestedEnv platformsText) ⟨"library/a"⟩
        "application/vnd.docker.distribution.manifest.list.v2+json" (some platformsText) =
          some (.ok (x, paths)) ∧
      x.blobs.map Prod.fst = [childDigest, helloDigest] ∧
      applyActions (nestedEnv platformsText).trees (x.actions (ticking 10) emptyDigest) =
        some trees ∧ Analysed trees childDigest ∧ Analysed trees helloDigest := by
  have hok : ((extract (nestedEnv platformsText) ⟨"library/a"⟩
      "application/vnd.docker.distribution.manifest.list.v2+json" (some platformsText)).bind
        Except.toOption).map (fun r => (r.1.dependencies, r.1.blobs.map Prod.fst,
          named (r.1.actions (ticking 10) emptyDigest) childDigest)) =
      some ([childDigest], [childDigest, helloDigest], [helloDigest]) := by decide +kernel
  obtain ⟨⟨x, paths⟩, hx, hfound⟩ := Option.map_eq_some_iff.mp hok
  simp only [Prod.mk.injEq] at hfound
  obtain ⟨hdependencies, hanalysis, hnamed⟩ := hfound
  obtain ⟨res, hres, htoOption⟩ := Option.bind_eq_some_iff.mp hx
  obtain rfl := eq_ok_of_toOption htoOption
  obtain ⟨-, -, -, -, trees, htrees, hreached⟩ := (analysed_once (nestedEnv platformsText)
    ⟨"library/a"⟩ "application/vnd.docker.distribution.manifest.list.v2+json" (some platformsText)
    (ticking 10) emptyDigest).2 x paths hres
  have hroot : childDigest ∈ x.dependencies.toFinset := by simp [hdependencies]
  have hstep : helloDigest ∈ named (x.actions (ticking 10) emptyDigest) childDigest := by
    simp [hnamed]
  exact ⟨x, paths, trees, hres, hanalysis, htrees, hreached _ ⟨childDigest, hroot, .refl⟩,
    hreached _ ⟨childDigest, hroot, .single hstep⟩⟩

end Distribd.Registry
