import Distribd.Schemes.DirTree
import Distribd.Registry.Paths

/-! Removing an object from the disk (`cleanup_object`, `garbage.rs`). The file goes first, if it is
    there; then the loop goes up three directories, from the one that the file was in: one that is
    not there is passed over, one that has entries ends it, and an empty one is removed. The layout
    of `get_blob_path` puts three directories between the file and the directory of its kind, and so
    the loop never gets to that one (`cleanup_object_exact`).

    The tree is that of the file system, without links and permissions; each call that changes or
    lists it may also fail for a reason of its own, wherever it is made. -/

namespace Distribd.Node
open Schemes Registry

/-- The errors of `cleanup_object`, by their contexts. -/
inductive CleanupError (N : Type*) where
  /-- `Error while removing`. -/
  | removing (path : List N) (err : IoError)
  /-- `Error whilst reading contents of`. -/
  | readingContents (path : List N) (err : IoError)
  /-- `Error whilst removing`. -/
  | removingDir (path : List N) (err : IoError)
  deriving DecidableEq

section

variable {N : Type*} [DecidableEq N]

/-- The loop over the directories. -/
def cleanupDirs (fault : DiskCall N → Bool) :
    List (List N) → DirTree N → Except (CleanupError N) Unit × DirTree N
  | [], t => (.ok (), t)
  | path :: paths, t =>
    match t.readDir path fault with
    | .ok found =>
      -- a shared directory
      if found ≠ ∅ then (.ok (), t)
      else
        match t.removeDir path fault with
        | .ok t' => cleanupDirs fault paths t'
        | .error .notFound => cleanupDirs fault paths t
        | .error err => (.error (.removingDir path err), t)
    | .error .notFound => cleanupDirs fault paths t
    | .error err => (.error (.readingContents path err), t)

/-- `cleanup_object`, on a path that has a parent. -/
def cleanupObject (fault : DiskCall N → Bool) (path : List N) (t : DirTree N) :
    Except (CleanupError N) Unit × DirTree N :=
  let dirs := (ancestors path.dropLast).take 3
  if t.exists? path then
    match t.removeFile path fault with
    | .ok t' => cleanupDirs fault dirs t'
    | .error err => (.error (.removing path err), t)
  else cleanupDirs fault dirs t

/-! ### The loop -/

variable (fault : DiskCall N → Bool) (t : DirTree N)

/-- Whatever happens, only directories of the list go. -/
theorem cleanupDirs_frame (paths : List (List N)) :
    (cleanupDirs fault paths t).2.files = t.files ∧ (cleanupDirs fault paths t).2.dirs ⊆ t.dirs ∧
      ∀ p ∈ t.dirs, p ∉ (cleanupDirs fault paths t).2.dirs → p ∈ paths := by
  have hnothing : ∀ (t : DirTree N) (paths : List (List N)),
      t.files = t.files ∧ t.dirs ⊆ t.dirs ∧ ∀ p ∈ t.dirs, p ∉ t.dirs → p ∈ paths :=
    fun t paths => ⟨rfl, subset_rfl, fun p hp hnot => (hnot hp).elim⟩
  induction paths generalizing t with
  | nil => exact hnothing t []
  | cons path paths ih =>
    rw [cleanupDirs]
    split
    · split
      · exact hnothing t _
      · split
        · rename_i t' hremove
          obtain ⟨-, hdirs, hfiles⟩ := DirTree.removeDir_ok hremove
          obtain ⟨ihfiles, ihdirs, ihonly⟩ := ih t'
          refine ⟨ihfiles.trans hfiles, ihdirs.trans (hdirs ▸ Finset.erase_subset ..), ?_⟩
          intro p hp hnot
          by_cases heq : p = path
          · exact heq ▸ List.mem_cons_self ..
          · refine List.mem_cons_of_mem _ (ihonly p ?_ hnot)
            rw [hdirs]
            exact Finset.mem_erase.mpr ⟨heq, hp⟩
        · obtain ⟨ihfiles, ihdirs, ihonly⟩ := ih t
          exact ⟨ihfiles, ihdirs, fun p hp hnot => List.mem_cons_of_mem _ (ihonly p hp hnot)⟩
        · exact hnothing t _
    · obtain ⟨ihfiles, ihdirs, ihonly⟩ := ih t
      exact ⟨ihfiles, ihdirs, fun p hp hnot => List.mem_cons_of_mem _ (ihonly p hp hnot)⟩
    · exact hnothing t _

/-- Without an error, exactly the directories of the list go that have no entries then. The list
    goes upwards, so that it can end at the first one that has. -/
theorem cleanupDirs_exact {paths : List (List N)} (hup : paths.Pairwise fun p q => q <+: p ∧ q ≠ p)
    (hok : (cleanupDirs fault paths t).1 = .ok ()) (p : List N) :
    p ∈ (cleanupDirs fault paths t).2.dirs ↔
      p ∈ t.dirs ∧ ¬ (p ∈ paths ∧ (cleanupDirs fault paths t).2.children p = ∅) := by
  induction paths generalizing t with
  | nil => simp [cleanupDirs]
  | cons path paths ih =>
    obtain ⟨habove, hup⟩ := List.pairwise_cons.mp hup
    -- a directory that is not there, or not any more
    have hskip : ∀ t' : DirTree N, t'.files = t.files → t'.dirs = t.dirs.erase path →
        t.children path = ∅ ∨ path ∉ t.dirs → (cleanupDirs fault paths t').1 = .ok () →
        (p ∈ (cleanupDirs fault paths t').2.dirs ↔ p ∈ t.dirs ∧
          ¬ (p ∈ path :: paths ∧ (cleanupDirs fault paths t').2.children p = ∅)) := by
      intro t' hfiles hdirs hgone hok'
      obtain ⟨hfiles', hsub, -⟩ := cleanupDirs_frame fault t' paths
      rw [ih t' hup hok', hdirs, Finset.mem_erase]
      by_cases heq : p = path
      · subst heq
        refine iff_of_false (fun h => h.1.1 rfl) ?_
        rintro ⟨hdir, hnot⟩
        rcases hgone with hempty | habsent
        · refine hnot ⟨List.mem_cons_self .., ?_⟩
          have hchildren := DirTree.children_subset (t := t)
            (hsub.trans (hdirs ▸ Finset.erase_subset ..)) (hfiles'.trans hfiles).subset p
          rw [hempty] at hchildren
          exact Finset.subset_empty.mp hchildren
        · exact habsent hdir
      · simp [heq]
    have herase : path ∉ t.dirs → t.dirs = t.dirs.erase path :=
      fun h => (Finset.erase_eq_of_notMem h).symm
    rw [cleanupDirs] at hok ⊢
    split at hok
    · rename_i found hread
      obtain ⟨hdir, rfl⟩ := DirTree.readDir_ok hread
      split at hok
      · -- an entry: everything above has one too
        rename_i hentries
        simp only [if_pos hentries]
        refine ⟨fun h => ⟨h, ?_⟩, fun h => h.1⟩
        rintro ⟨hmem, hempty⟩
        rcases List.mem_cons.mp hmem with rfl | hmem
        · exact hentries hempty
        · obtain ⟨hinit, hne⟩ := habove p hmem
          exact DirTree.children_ne_empty hdir hinit hne hempty
      · rename_i hentries
        simp only [if_neg hentries]
        split at hok
        · rename_i t' hremove
          obtain ⟨hempty, hdirs, hfiles⟩ := DirTree.removeDir_ok hremove
          exact hskip t' hfiles hdirs (.inl hempty) hok
        · rename_i hremove
          have habsent := DirTree.removeDir_notFound hremove
          exact (habsent hdir).elim
        · cases hok
    · rename_i hread
      have habsent := DirTree.readDir_notFound hread
      exact hskip t rfl (herase habsent) (.inr habsent) hok
    · cases hok

/-! ### The whole -/

/-- The file goes, or it stays where it was; the directories are left to the loop. -/
theorem cleanupObject_cases (fault : DiskCall N → Bool) (path : List N) (t : DirTree N) :
    (∃ err, cleanupObject fault path t = (.error (.removing path err), t)) ∨
      ∃ t' : DirTree N, t'.files = t.files.erase path ∧ t'.dirs = t.dirs ∧
        cleanupObject fault path t = cleanupDirs fault ((ancestors path.dropLast).take 3) t' := by
  rw [cleanupObject]
  split
  · split
    · rename_i t' hremove
      obtain ⟨hfiles, hdirs⟩ := DirTree.removeFile_ok hremove
      exact .inr ⟨t', hfiles, hdirs, rfl⟩
    · rename_i err hremove
      exact .inl ⟨err, rfl⟩
  · rename_i habsent
    refine .inr ⟨t, ?_, rfl, rfl⟩
    refine (Finset.erase_eq_of_notMem fun hfile => habsent ?_).symm
    exact decide_eq_true (Finset.mem_union_right _ hfile)

end

/-! ### The three directories -/

section

variable {N : Type*}

/-- Strictly between the directory of the kind and the object. -/
def FanOut (kindDir path p : List N) : Prop :=
  kindDir <+: p ∧ p ≠ kindDir ∧ p <+: path ∧ p ≠ path

/-- Four names below, the loop goes over the three directories in between. -/
theorem take_ancestors (kindDir : List N) (xx yy zz rest : N) :
    (ancestors (kindDir ++ [xx, yy, zz, rest]).dropLast).take 3 =
      [kindDir ++ [xx, yy, zz], kindDir ++ [xx, yy], kindDir ++ [xx]] := by
  have hdrop : (kindDir ++ [xx, yy, zz, rest]).dropLast = kindDir ++ [xx, yy, zz] := by
    rw [List.dropLast_append_of_ne_nil (by simp)]
    rfl
  rw [hdrop, ancestors, List.inits_append]
  simp

theorem mem_ancestors_iff (kindDir : List N) (xx yy zz rest : N) (p : List N) :
    p ∈ [kindDir ++ [xx, yy, zz], kindDir ++ [xx, yy], kindDir ++ [xx]] ↔
      FanOut kindDir (kindDir ++ [xx, yy, zz, rest]) p := by
  constructor
  · intro hmem
    simp only [List.mem_cons, List.not_mem_nil, or_false] at hmem
    rcases hmem with rfl | rfl | rfl <;> simp [FanOut, List.prefix_append_right_inj]
  · rintro ⟨⟨s, rfl⟩, hne, hinit, hne'⟩
    rw [List.prefix_append_right_inj] at hinit
    simp only [List.prefix_cons_iff, List.prefix_nil] at hinit
    rcases hinit with rfl | ⟨_, rfl, rfl | ⟨_, rfl, rfl | ⟨_, rfl, rfl | ⟨_, rfl, rfl⟩⟩⟩⟩ <;>
      simp_all

end

/-- What a cleanup does to an object that lies four names below the directory of its kind. -/
theorem cleanup_of_layout {N : Type*} [DecidableEq N] {fault : DiskCall N → Bool}
    {t t' : DirTree N} {kindDir : List N} {xx yy zz rest : N} {res : Except (CleanupError N) Unit}
    (hrun : cleanupObject fault (kindDir ++ [xx, yy, zz, rest]) t = (res, t')) :
    (res = .ok () → t'.files = t.files.erase (kindDir ++ [xx, yy, zz, rest]) ∧
      ∀ p, p ∈ t'.dirs ↔
        p ∈ t.dirs ∧ ¬ (FanOut kindDir (kindDir ++ [xx, yy, zz, rest]) p ∧ t'.children p = ∅)) ∧
      t'.files ⊆ t.files ∧ t.files.erase (kindDir ++ [xx, yy, zz, rest]) ⊆ t'.files ∧
      t'.dirs ⊆ t.dirs ∧
      ∀ p ∈ t.dirs, p ∉ t'.dirs → FanOut kindDir (kindDir ++ [xx, yy, zz, rest]) p := by
  rcases cleanupObject_cases fault (kindDir ++ [xx, yy, zz, rest]) t with
    ⟨err, heq⟩ | ⟨s, hfiles, hdirs, heq⟩
  · -- nothing has happened
    obtain ⟨rfl, rfl⟩ := Prod.mk.inj (heq.symm.trans hrun)
    exact ⟨(fun hok => by cases hok), subset_rfl, Finset.erase_subset .., subset_rfl,
      fun p hp hnot => absurd hp hnot⟩
  · rw [take_ancestors] at heq
    have hloop := heq.symm.trans hrun
    set paths := [kindDir ++ [xx, yy, zz], kindDir ++ [xx, yy], kindDir ++ [xx]] with hpaths
    have hup : paths.Pairwise fun p q => q <+: p ∧ q ≠ p := by
      simp [hpaths, List.prefix_append_right_inj]
    obtain ⟨hkeep, hsub, honly⟩ := cleanupDirs_frame fault s paths
    have hexact := cleanupDirs_exact fault s hup
    rw [hloop] at hkeep hsub honly hexact
    rw [hdirs] at hsub honly hexact
    rw [hfiles] at hkeep
    have hmem := mem_ancestors_iff kindDir xx yy zz rest
    refine ⟨fun hok => ⟨hkeep, fun p => ?_⟩, hkeep ▸ Finset.erase_subset .., hkeep.ge, hsub,
      fun p hp hgone => (hmem p).mp (honly p hp hgone)⟩
    rw [← hmem p]
    exact hexact hok p

/-- CLEANUP IS EXACT: with success, the file of the object is gone and nothing else is, but for those
    of the three directories above it that have become empty; with an error, not more than that. -/
theorem cleanup_object_exact (root : String) (k : Kind) {d : Digest} (hd : WellFormed d)
    (fault : DiskCall PathBuf → Bool) (t : DirTree PathBuf) :
    ∃ path kindDir, getObjectPath root k d = some path ∧
      kindDir = PathBuf.components (PathBuf.push root.toList (directory k)) ∧
      ∀ res t', cleanupObject fault path.components t = (res, t') →
        (res = .ok () → t'.files = t.files.erase path.components ∧
          ∀ p, p ∈ t'.dirs ↔
            p ∈ t.dirs ∧ ¬ (FanOut kindDir path.components p ∧ t'.children p = ∅)) ∧
        t'.files ⊆ t.files ∧ t.files.erase path.components ⊆ t'.files ∧
        t'.dirs ⊆ t.dirs ∧ (∀ p ∈ t.dirs, p ∉ t'.dirs → FanOut kindDir path.components p) ∧
        (kindDir ∈ t.dirs → kindDir ∈ t'.dirs) ∧
        ∀ file ∈ t.files, file ≠ path.components →
          file ∈ t'.files ∧ ∀ above, above <+: file → above ≠ file → above ∈ t'.dirs := by
  obtain ⟨path, xx, yy, zz, rest, hpath, hcomp, -⟩ :
      ∃ path xx yy zz rest, getObjectPath root k d = some path ∧ _ := getObjectPath_components hd
  have hkind : (PathBuf.push root.toList (directory k)).components = _ :=
    PathBuf.components_push (plain_directory k)
  rw [← List.singleton_append, ← List.append_assoc, ← hkind] at hcomp
  refine ⟨path, _, hpath, rfl, ?_⟩
  rw [hcomp]
  intro res t' hrun
  obtain ⟨hexact, hfewer, hkeep, hdirs, honly⟩ := cleanup_of_layout hrun
  have hstays : ∀ p ∈ t.dirs, ¬ FanOut _ _ p → p ∈ t'.dirs :=
    fun p hp hnot => by_contra fun hgone => hnot (honly p hp hgone)
  refine ⟨hexact, hfewer, hkeep, hdirs, honly, fun h => hstays _ h fun hfan => hfan.2.1 rfl, ?_⟩
  intro file hfile hne
  have hfile' : file ∈ t'.files := hkeep (Finset.mem_erase.mpr ⟨hne, hfile⟩)
  exact ⟨hfile', fun above => DirTree.mem_dirs_of_prefix (Finset.mem_union_right _ hfile')⟩

/-- One blob, in a directory whose parent's parent has another one. -/
def sharedTree : DirTree PathBuf where
  dirs := {[], ["blobs".toList], ["blobs".toList, "09".toList],
    ["blobs".toList, "09".toList, "ff".toList], ["blobs".toList, "09".toList, "ca".toList],
    ["blobs".toList, "09".toList, "ca".toList, "7e".toList]}
  files := {["blobs".toList, "09".toList, "ca".toList, "7e".toList, helloDigest.hash.toList.drop 6]}
  disjoint := by decide +kernel
  parent := by decide +kernel

theorem shared_run {path : PathBuf} (hpath : getObjectPath "" .blob helloDigest = some path) :
    path.components ∈ sharedTree.files ∧
      (cleanupObject (fun _ => false) path.components sharedTree).1.toBool = true := by
  have h : ((getObjectPath "" .blob helloDigest).map fun path =>
      decide (path.components ∈ sharedTree.files ∧
        (cleanupObject (fun _ => false) path.components sharedTree).1.toBool = true)) =
      some true := by decide +kernel
  rw [hpath, Option.map_some] at h
  exact of_decide_eq_true (Option.some.inj h)

theorem cleanup_object_exact_shared :
    ∃ path kindDir, getObjectPath "" .blob helloDigest = some path ∧ kindDir = ["blobs".toList] ∧
      path.components ∈ sharedTree.files ∧
      ∃ t', cleanupObject (fun _ => false) path.components sharedTree = (.ok (), t') ∧
        t'.files = sharedTree.files.erase path.components ∧
        ∀ p, p ∈ t'.dirs ↔
          p ∈ sharedTree.dirs ∧ ¬ (FanOut kindDir path.components p ∧ t'.children p = ∅) := by
  obtain ⟨path, kindDir, hpath, hkind, h⟩ := cleanup_object_exact "" .blob
    wellFormed_helloDigest (fun _ => false) sharedTree
  obtain ⟨hfile, hok⟩ := shared_run hpath
  refine ⟨path, kindDir, hpath, hkind.trans (by decide +kernel), hfile, ?_⟩
  rcases hrun : cleanupObject (fun _ => false) path.components sharedTree with ⟨_ | _, t'⟩
  · rw [hrun] at hok
    cases hok
  · exact ⟨t', rfl, (h _ t' hrun).1 rfl⟩

end Distribd.Node
