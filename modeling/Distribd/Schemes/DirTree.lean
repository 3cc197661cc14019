import Mathlib.Data.Finset.Basic
import Mathlib.Data.List.Infix

/-! Directory trees. A tree has directories and files, under the names on the way to them; what is in
    a tree lies in a directory of it, which the structure carries as a field. A file can be removed,
    and so can a directory that is empty; a call may also fail for a reason of its own. -/

namespace Distribd.Schemes

/-- Directories and files, each by its path. -/
structure DirTree (N : Type*) [DecidableEq N] where
  dirs : Finset (List N)
  files : Finset (List N)
  disjoint : Disjoint dirs files
  parent : ∀ path ∈ dirs ∪ files, path ≠ [] → path.dropLast ∈ dirs

/-- Why a call fails. -/
inductive IoError where | notFound | notADirectory | isADirectory | directoryNotEmpty | other
  deriving DecidableEq, Repr

/-- The calls that may fail for a reason that is not in the tree. -/
inductive DiskCall (N : Type*) where
  | removeFile (path : List N)
  | readDir (path : List N)
  | removeDir (path : List N)

/-- `Path::ancestors`: the path, the directory it is in, and so on. -/
def ancestors {N : Type*} (path : List N) : List (List N) := path.inits.reverse

namespace DirTree

variable {N : Type*} [DecidableEq N]

/-! ### Calls -/

section

variable (t : DirTree N) (path : List N)

/-- `Path::exists`. -/
def exists? : Bool := decide (path ∈ t.dirs ∪ t.files)

/-- What is in a directory. -/
def children : Finset (List N) :=
  (t.dirs ∪ t.files).filter fun child => child ≠ [] ∧ child.dropLast = path

/-- The error of a path that is not there: one of the names on the way to it may be a file. -/
def missing : IoError :=
  if path.inits.any fun above => decide (above ∈ t.files) then .notADirectory else .notFound

/-- The tree without a file. -/
def eraseFile : DirTree N where
  dirs := t.dirs
  files := t.files.erase path
  disjoint := t.disjoint.mono_right (Finset.erase_subset ..)
  parent p hp := t.parent p (Finset.union_subset_union_right (Finset.erase_subset ..) hp)

/-- The tree without an empty directory. -/
def eraseDir (h : t.children path = ∅) : DirTree N where
  dirs := t.dirs.erase path
  files := t.files
  disjoint := t.disjoint.mono_left (Finset.erase_subset ..)
  parent p hp hne := by
    have hmem : p ∈ t.dirs ∪ t.files :=
      Finset.union_subset_union_left (Finset.erase_subset ..) hp
    refine Finset.mem_erase.mpr ⟨?_, t.parent p hmem hne⟩
    intro heq
    have hchild : p ∈ t.children path := Finset.mem_filter.mpr ⟨hmem, hne, heq⟩
    rw [h] at hchild
    exact Finset.notMem_empty _ hchild

variable (fault : DiskCall N → Bool)

/-- `remove_file`. -/
def removeFile : Except IoError (DirTree N) :=
  if fault (.removeFile path) then .error .other
  else if path ∈ t.files then .ok (t.eraseFile path)
  else if path ∈ t.dirs then .error .isADirectory
  else .error (t.missing path)

/-- `read_dir`. -/
def readDir : Except IoError (Finset (List N)) :=
  if fault (.readDir path) then .error .other
  else if path ∈ t.dirs then .ok (t.children path)
  else if path ∈ t.files then .error .notADirectory
  else .error (t.missing path)

/-- `remove_dir`. -/
def removeDir : Except IoError (DirTree N) :=
  if fault (.removeDir path) then .error .other
  else if path ∈ t.dirs then
    if h : t.children path = ∅ then .ok (t.eraseDir path h) else .error .directoryNotEmpty
  else if path ∈ t.files then .error .notADirectory
  else .error (t.missing path)

end

/-! ### What the calls do -/

section

variable {t t' : DirTree N} {path : List N} {fault : DiskCall N → Bool}

theorem removeFile_ok (h : t.removeFile path fault = .ok t') :
    t'.files = t.files.erase path ∧ t'.dirs = t.dirs := by
  unfold removeFile at h
  split at h
  · cases h
  · split at h
    · obtain rfl := Except.ok.inj h
      exact ⟨rfl, rfl⟩
    · split at h <;> cases h

theorem readDir_ok {found : Finset (List N)} (h : t.readDir path fault = .ok found) :
    path ∈ t.dirs ∧ found = t.children path := by
  unfold readDir at h
  split at h
  · cases h
  · split at h
    · rename_i hdir
      exact ⟨hdir, (Except.ok.inj h).symm⟩
    · split at h <;> cases h

/-- A directory that is not found is not there. -/
theorem readDir_notFound (h : t.readDir path fault = .error .notFound) : path ∉ t.dirs := by
  intro hdir
  unfold readDir at h
  split at h
  · cases h
  · cases h

theorem removeDir_ok (h : t.removeDir path fault = .ok t') :
    t.children path = ∅ ∧ t'.dirs = t.dirs.erase path ∧ t'.files = t.files := by
  unfold removeDir at h
  split at h
  · cases h
  · split at h
    · split at h
      · rename_i hempty
        obtain rfl := Except.ok.inj h
        exact ⟨hempty, rfl, rfl⟩
      · cases h
    · split at h <;> cases h

theorem removeDir_notFound (h : t.removeDir path fault = .error .notFound) : path ∉ t.dirs := by
  intro hdir
  unfold removeDir at h
  split at h
  · cases h
  · split at h <;> cases h

/-- A smaller tree has fewer entries everywhere. -/
theorem children_subset (hdirs : t'.dirs ⊆ t.dirs) (hfiles : t'.files ⊆ t.files) (path : List N) :
    t'.children path ⊆ t.children path :=
  Finset.filter_subset_filter _ (Finset.union_subset_union hdirs hfiles)

/-- What lies above a file or a directory is a directory. -/
theorem mem_dirs_of_prefix {above : List N} (hmem : path ∈ t.dirs ∪ t.files)
    (hinit : above <+: path) (hne : above ≠ path) : above ∈ t.dirs := by
  induction path using List.reverseRecOn with
  | nil => exact absurd (List.prefix_nil.mp hinit) hne
  | append_singleton path name ih =>
    have hparent : path ∈ t.dirs := by
      have h := t.parent _ hmem (by simp)
      rwa [List.dropLast_concat] at h
    rcases List.prefix_concat_iff.mp hinit with heq | hpre
    · exact absurd heq hne
    · by_cases heq : above = path
      · exact heq ▸ hparent
      · exact ih (Finset.mem_union_left _ hparent) hpre heq

/-- Whatever lies above a directory has an entry. -/
theorem children_ne_empty {above : List N} (hdir : path ∈ t.dirs) (hinit : above <+: path)
    (hne : above ≠ path) : t.children above ≠ ∅ := by
  obtain ⟨rest, rfl⟩ := hinit
  rcases rest with _ | ⟨name, rest⟩
  · exact absurd (List.append_nil above).symm hne
  -- the next name on the way is an entry
  have hchild : above ++ [name] ∈ t.dirs := by
    by_cases hrest : rest = []
    · subst hrest
      exact hdir
    · refine mem_dirs_of_prefix (Finset.mem_union_left _ hdir) ⟨rest, by simp⟩ ?_
      simpa using hrest
  refine Finset.ne_empty_of_mem (a := above ++ [name]) (Finset.mem_filter.mpr ?_)
  exact ⟨Finset.mem_union_left _ hchild, by simp, List.dropLast_concat ..⟩

end

end DirTree

end Distribd.Schemes
