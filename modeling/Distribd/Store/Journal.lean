import Distribd.Schemes.History
import Distribd.Store.Apply

/-! The declarative meaning of the journal. Instead of running the actions one by one, read them
    backwards: the locations of `d` are the nodes whose latest `Stored`/`Unstored` for `d` is a
    `Stored`; an `Unstored` is *final* when after it no node holds `d`; the record exists while some
    mount came after the last final unstore, and its fields are set by what came after the first
    such mount. `Meaning` is this reading, `meaning_snoc` that one more action keeps it. -/

namespace Distribd.Store
open Schemes

/-! ### The reading -/

/-- The action is `Stored(d, n)`. -/
def IsStored (d : Digest) (n : RegistryNodeId) (a : ObjectAction) : Prop := ∃ ts, a = .stored ts d n

/-- The action is `Unstored(d, n)`. -/
def IsUnstored (d : Digest) (n : RegistryNodeId) (a : ObjectAction) : Prop :=
  ∃ ts, a = .unstored ts d n

/-- The action is `Mounted(d, r)`. -/
def IsMounted (d : Digest) (r : RepositoryName) (a : ObjectAction) : Prop :=
  ∃ ts, a = .mounted ts d r

/-- The action is `Unmounted(d, r)`. -/
def IsUnmounted (d : Digest) (r : RepositoryName) (a : ObjectAction) : Prop :=
  ∃ ts, a = .unmounted ts d r

/-- Node `n` holds `d`: the latest of `Stored(d, n)` / `Unstored(d, n)` is a `Stored`. -/
def Holds (d : Digest) (n : RegistryNodeId) : List ObjectAction → Prop :=
  Since (fun _ a => IsStored d n a) (fun _ a => IsUnstored d n a)

/-- A final unstore: no node holds `d` after it. -/
def Final (d : Digest) (pre : List ObjectAction) (a : ObjectAction) : Prop :=
  (∃ l, IsUnstored d l a) ∧ ∀ n, ¬ Holds d n (pre ++ [a])

/-- Some mount of `d` comes after the last final unstore of `d`. -/
def MountedSinceFinal (d : Digest) : List ObjectAction → Prop :=
  Since (fun _ a => ∃ r, IsMounted d r a) (Final d)

/-- The latest of `Mounted(d, r)` / `Unmounted(d, r)` is a mount after the last final unstore. -/
def Owns (d : Digest) (r : RepositoryName) : List ObjectAction → Prop :=
  Since (fun _ a => IsMounted d r a) (fun pre a => IsUnmounted d r a ∨ Final d pre a)

/-- `ops` is cut at the first mount of `d` after the last final unstore, made at `ts`. -/
def FirstMount (d : Digest) (ops pre : List ObjectAction) (ts : DateTime)
    (post : List ObjectAction) : Prop :=
  ∃ r, ops = pre ++ .mounted ts d r :: post ∧
    Never (Final d) (pre ++ [.mounted ts d r]) post ∧ ¬ MountedSinceFinal d pre

/-- The size that a `Stat` of `d` records. -/
def statOf (d : Digest) : ObjectAction → Option ℕ
  | .stat _ e n => if e = d then some n else none
  | _ => none

/-- The dependencies and content type that an `Info` of `d` records. -/
def infoOf (d : Digest) : ObjectAction → Option (List Digest × String)
  | .info _ e ds ct => if e = d then some (ds, ct) else none
  | _ => none

/-- The size of the last `Stat` of `d`. -/
def lastStat (d : Digest) (ops : List ObjectAction) : Option ℕ :=
  (ops.filterMap (statOf d)).getLast?

/-- The data of the last `Info` of `d`. -/
def lastInfo (d : Digest) (ops : List ObjectAction) : Option (List Digest × String) :=
  (ops.filterMap (infoOf d)).getLast?

/-- The journal `ops` says about `d` what the record `o` holds. -/
structure Meaning (d : Digest) (ops : List ObjectAction) (o : Option Object) : Prop where
  locations : ∀ n, (∃ x, o = some x ∧ n ∈ x.locations) ↔ Holds d n ops
  isSome : o.isSome ↔ MountedSinceFinal d ops
  repositories : ∀ r, (∃ x, o = some x ∧ r ∈ x.repositories) ↔ Owns d r ops
  fields : ∀ x, o = some x → ∃ pre post, FirstMount d ops pre x.created post ∧
    x.size = lastStat d post ∧
    x.dependencies = some (((lastInfo d post).map Prod.fst).getD []) ∧
    x.contentType = (lastInfo d post).map Prod.snd

/-! ### One more action -/

theorem lastStat_snoc (d : Digest) (ops : List ObjectAction) (a : ObjectAction) :
    lastStat d (ops ++ [a]) = (statOf d a).or (lastStat d ops) := by
  unfold lastStat
  cases h : statOf d a <;> simp [List.filterMap_append, h]

theorem lastInfo_snoc (d : Digest) (ops : List ObjectAction) (a : ObjectAction) :
    lastInfo d (ops ++ [a]) = (infoOf d a).or (lastInfo d ops) := by
  unfold lastInfo
  cases h : infoOf d a <;> simp [List.filterMap_append, h]

/-- The cut at the first mount stays where it is until a final unstore. -/
theorem firstMount_snoc {d : Digest} {ops pre post : List ObjectAction} {ts : DateTime}
    {a : ObjectAction} (h : FirstMount d ops pre ts post) (ha : ¬ Final d ops a) :
    FirstMount d (ops ++ [a]) pre ts (post ++ [a]) := by
  obtain ⟨r, rfl, hn, hp⟩ := h
  exact ⟨r, by simp, never_snoc.mpr ⟨hn, by simpa using ha⟩, hp⟩

/-- A second such cut is not earlier: its mount would come after the last final unstore. -/
theorem FirstMount.length_le {d : Digest} {ops pre pre' post post' : List ObjectAction}
    {ts ts' : DateTime} (h : FirstMount d ops pre ts post) (h' : FirstMount d ops pre' ts' post') :
    pre'.length ≤ pre.length := by
  obtain ⟨r, rfl, hnever, -⟩ := h
  obtain ⟨r', heq, -, hfirst⟩ := h'
  by_contra hlt
  rcases List.append_eq_append_iff.mp heq with ⟨mid, rfl, hmid⟩ | ⟨mid, rfl, -⟩
  · cases mid with
    | nil => simp at hlt
    | cons x mid =>
      obtain ⟨rfl, rfl⟩ := List.cons_eq_cons.mp hmid
      exact hfirst ⟨pre, _, mid, rfl, ⟨r, ts, rfl⟩, hnever.of_append⟩
  · simp at hlt

/-- The journal has one first mount since the last final unstore. -/
theorem FirstMount.unique {d : Digest} {ops pre pre' post post' : List ObjectAction}
    {ts ts' : DateTime} (h : FirstMount d ops pre ts post) (h' : FirstMount d ops pre' ts' post') :
    ts = ts' := by
  have hlen : pre.length = pre'.length := le_antisymm (h'.length_le h) (h.length_le h')
  obtain ⟨r, rfl, -⟩ := h
  obtain ⟨r', heq, -⟩ := h'
  obtain ⟨-, hcons⟩ := List.append_inj heq hlen
  cases hcons
  rfl

theorem not_final_of_ne_unstored {d : Digest} {ops : List ObjectAction} {a : ObjectAction}
    (h : ∀ ts l, a ≠ .unstored ts d l) : ¬ Final d ops a := by
  rintro ⟨⟨l, ts, rfl⟩, -⟩
  exact h ts l rfl

namespace Meaning

variable {d : Digest} {ops : List ObjectAction} {o : Option Object}

/-- An unstore is final exactly when the record has no location left. -/
theorem final_iff (hm : Meaning d ops o) (ts : DateTime) (l : RegistryNodeId) :
    Final d ops (.unstored ts d l) ↔ ∀ x, o = some x → x.locations.erase l = ∅ := by
  have hsnoc : ∀ n, Holds d n (ops ++ [.unstored ts d l]) ↔ Holds d n ops ∧ n ≠ l := by
    intro n
    rw [Holds, since_snoc]
    simp [IsStored, IsUnstored, eq_comm]
  constructor
  · rintro ⟨-, hn⟩ x rfl
    refine Finset.eq_empty_of_forall_notMem ?_
    intro n hmem
    obtain ⟨hne, hx⟩ := Finset.mem_erase.mp hmem
    exact hn n ((hsnoc n).mpr ⟨(hm.locations n).mp ⟨x, rfl, hx⟩, hne⟩)
  · refine fun h => ⟨⟨l, ts, rfl⟩, ?_⟩
    intro n hn
    obtain ⟨hn, hne⟩ := (hsnoc n).mp hn
    obtain ⟨x, rfl, hx⟩ := (hm.locations n).mpr hn
    have hmem : n ∈ x.locations.erase l := Finset.mem_erase.mpr ⟨hne, hx⟩
    rw [h x rfl] at hmem
    simp at hmem

/-- An action after which the record of `d` is still there. -/
theorem kept {a : ObjectAction} {x y : Object} (hm : Meaning d ops (some x))
    (ha : ¬ Final d ops a)
    (hloc : ∀ n, n ∈ y.locations ↔ IsStored d n a ∨ (n ∈ x.locations ∧ ¬ IsUnstored d n a))
    (hrep : ∀ r, r ∈ y.repositories ↔ IsMounted d r a ∨ (r ∈ x.repositories ∧ ¬ IsUnmounted d r a))
    (hcreated : y.created = x.created) (hsize : y.size = (statOf d a).or x.size)
    (hdeps : y.dependencies = ((infoOf d a).map Prod.fst).or x.dependencies)
    (hct : y.contentType = ((infoOf d a).map Prod.snd).or x.contentType) :
    Meaning d (ops ++ [a]) (some y) := by
  refine ⟨?_, ?_, ?_, ?_⟩
  · intro n
    have hx : n ∈ x.locations ↔ Holds d n ops := by simpa using hm.locations n
    rw [Holds, since_snoc, ← Holds, ← hx]
    simpa using hloc n
  · rw [MountedSinceFinal, since_snoc, ← MountedSinceFinal, ← hm.isSome]
    simp [ha]
  · intro r
    have hx : r ∈ x.repositories ↔ Owns d r ops := by simpa using hm.repositories r
    rw [Owns, since_snoc, ← Owns, ← hx]
    simpa [ha] using hrep r
  · rintro _ ⟨⟩
    obtain ⟨pre, post, hf, hs, hd, hc⟩ := hm.fields x rfl
    refine ⟨pre, post ++ [a], hcreated ▸ firstMount_snoc hf ha, ?_, ?_, ?_⟩
    · rw [hsize, hs, lastStat_snoc]
    · rw [hdeps, hd, lastInfo_snoc]; cases infoOf d a <;> rfl
    · rw [hct, hc, lastInfo_snoc]; cases infoOf d a <;> rfl

/-- An action after which there is no record of `d`. -/
theorem gone {a : ObjectAction} (hm : Meaning d ops o) (hs : ∀ n, ¬ IsStored d n a)
    (hmt : ∀ r, ¬ IsMounted d r a) (h : o = none ∨ Final d ops a) :
    Meaning d (ops ++ [a]) none := by
  refine ⟨?_, ?_, ?_, by simp⟩
  · intro n
    simp only [reduceCtorEq, false_and, exists_false, false_iff]
    rcases h with rfl | h
    · have hn : ¬ Holds d n ops := by simpa using hm.locations n
      rw [Holds, since_snoc, ← Holds]
      simp [hs n, hn]
    · exact h.2 n
  · simp only [Option.isSome_none, Bool.false_eq_true, false_iff]
    rw [MountedSinceFinal, since_snoc, ← MountedSinceFinal, ← hm.isSome]
    rcases h with rfl | h <;> simp_all
  · intro r
    simp only [reduceCtorEq, false_and, exists_false, false_iff]
    rw [Owns, since_snoc, ← Owns, ← hm.repositories r]
    rcases h with rfl | h <;> simp_all

/-- An action that edits the record of `d`, if there is one, and leaves its locations alone. -/
theorem edited {a : ObjectAction} {f : Object → Object} (hm : Meaning d ops o)
    (hs : ∀ n, ¬ IsStored d n a) (hu : ∀ n, ¬ IsUnstored d n a) (hmt : ∀ r, ¬ IsMounted d r a)
    (hloc : ∀ x, (f x).locations = x.locations)
    (hrep : ∀ x r, r ∈ (f x).repositories ↔ r ∈ x.repositories ∧ ¬ IsUnmounted d r a)
    (hcreated : ∀ x, (f x).created = x.created) (hsize : ∀ x, (f x).size = (statOf d a).or x.size)
    (hdeps : ∀ x, (f x).dependencies = ((infoOf d a).map Prod.fst).or x.dependencies)
    (hct : ∀ x, (f x).contentType = ((infoOf d a).map Prod.snd).or x.contentType) :
    Meaning d (ops ++ [a]) (o.map f) := by
  cases o with
  | none => exact hm.gone hs hmt (.inl rfl)
  | some x =>
    have hf : ¬ Final d ops a := fun ⟨⟨l, hl⟩, _⟩ => hu l hl
    refine hm.kept hf ?_ ?_ (hcreated x) (hsize x) (hdeps x) (hct x)
    · intro n
      simp [hloc x, hs n, hu n]
    · intro r
      simp [hrep x r, hmt r]

/-- A mount that creates the record of `d`. -/
theorem created (hm : Meaning d ops none) (ts : DateTime) (r : RepositoryName) :
    Meaning d (ops ++ [.mounted ts d r])
      (some { fresh ts with repositories := insert r (fresh ts).repositories }) := by
  refine ⟨?_, ?_, ?_, ?_⟩
  · intro n
    have hn : ¬ Holds d n ops := by simpa using hm.locations n
    rw [Holds, since_snoc, ← Holds]
    simp [IsStored, hn, fresh]
  · rw [MountedSinceFinal, since_snoc]
    simp [IsMounted]
  · intro r'
    have hn : ¬ Owns d r' ops := by simpa using hm.repositories r'
    rw [Owns, since_snoc, ← Owns]
    simp [IsMounted, hn, fresh, eq_comm]
  · rintro _ ⟨⟩
    have hn : ¬ MountedSinceFinal d ops := by simpa using hm.isSome
    exact ⟨ops, [], ⟨r, rfl, never_nil _ _, hn⟩, rfl, rfl, rfl⟩

/-- An action about another digest. -/
theorem other {a : ObjectAction} (hm : Meaning d ops o) (ha : a.digest ≠ d) :
    Meaning d (ops ++ [a]) o := by
  have hs : ∀ n, ¬ IsStored d n a := by rintro n ⟨ts, rfl⟩; exact ha rfl
  have hu : ∀ n, ¬ IsUnstored d n a := by rintro n ⟨ts, rfl⟩; exact ha rfl
  have hmt : ∀ r, ¬ IsMounted d r a := by rintro r ⟨ts, rfl⟩; exact ha rfl
  have hum : ∀ r, ¬ IsUnmounted d r a := by rintro r ⟨ts, rfl⟩; exact ha rfl
  have hstat : statOf d a = none := by
    cases a <;> simp_all [statOf, ObjectAction.digest]
  have hinfo : infoOf d a = none := by
    cases a <;> simp_all [infoOf, ObjectAction.digest]
  have hsame := hm.edited (f := id) hs hu hmt (fun x => rfl) (fun x r => by simp [hum r])
    (fun x => rfl) (fun x => by simp [hstat]) (fun x => by simp [hinfo])
    (fun x => by simp [hinfo])
  simpa using hsame

end Meaning

/-- One more action keeps the reading, unless it panics. -/
theorem meaning_snoc {d : Digest} {ops : List ObjectAction} {o : Option Object}
    (hm : Meaning d ops o) (a : ObjectAction) (hd : a.digest = d)
    (hp : ∀ ts l, a = .stored ts d l → o ≠ none) : Meaning d (ops ++ [a]) (act o a) := by
  cases a with
  | stored ts e l =>
    obtain rfl : e = d := hd
    obtain ⟨x, rfl⟩ := Option.ne_none_iff_exists'.mp (hp ts l rfl)
    refine hm.kept (not_final_of_ne_unstored (by simp)) ?_ ?_ rfl rfl rfl rfl
    · intro n
      simp [IsStored, IsUnstored, eq_comm]
    · intro r
      simp [IsMounted, IsUnmounted]
  | unstored ts e l =>
    obtain rfl : e = d := hd
    have hf := hm.final_iff ts l
    cases o with
    | none =>
      exact hm.gone (by simp [IsStored]) (by simp [IsMounted]) (.inl rfl)
    | some x =>
      by_cases hl : x.locations.erase l = ∅
      · simp only [act, Option.bind_some, hl, if_true]
        refine hm.gone (by simp [IsStored]) (by simp [IsMounted]) (.inr (hf.mpr ?_))
        rintro _ ⟨⟩
        exact hl
      · simp only [act, Option.bind_some, hl, if_false]
        refine hm.kept (fun h => hl (hf.mp h x rfl)) ?_ ?_ rfl rfl rfl rfl
        · intro n
          simp [IsStored, IsUnstored, and_comm, eq_comm]
        · intro r
          simp [IsMounted, IsUnmounted]
  | mounted ts e r =>
    obtain rfl : e = d := hd
    cases o with
    | none => exact hm.created ts r
    | some x =>
      refine hm.kept (not_final_of_ne_unstored (by simp)) ?_ ?_ rfl rfl rfl rfl
      · intro n
        simp [IsStored, IsUnstored]
      · intro r
        simp [IsMounted, IsUnmounted, eq_comm]
  | unmounted ts e r =>
    obtain rfl : e = d := hd
    refine hm.edited (by simp [IsStored]) (by simp [IsUnstored]) (by simp [IsMounted])
      (fun x => rfl) ?_ (fun x => rfl) (fun x => rfl) (fun x => rfl) (fun x => rfl)
    intro x r'
    simp [IsUnmounted, and_comm, eq_comm]
  | info ts e ds ct =>
    obtain rfl : e = d := hd
    refine hm.edited (by simp [IsStored]) (by simp [IsUnstored]) (by simp [IsMounted])
      (fun x => rfl) ?_ (fun x => rfl) (fun x => rfl) ?_ ?_
    · intro x r'
      simp [IsUnmounted]
    · intro x
      simp [infoOf]
    · intro x
      simp [infoOf]
  | stat ts e n =>
    obtain rfl : e = d := hd
    refine hm.edited (by simp [IsStored]) (by simp [IsUnstored]) (by simp [IsMounted])
      (fun x => rfl) ?_ (fun x => rfl) ?_ (fun x => rfl) (fun x => rfl)
    · intro x r'
      simp [IsUnmounted]
    · intro x
      simp [statOf]

/-! ### Whole journals -/

theorem meaning_nil (d : Digest) : Meaning d [] none where
  locations n := by simp [Holds, not_since_nil]
  isSome := by simp [MountedSinceFinal, not_since_nil]
  repositories r := by simp [Owns, not_since_nil]
  fields := by simp

/-- Every record of a journal that ran without a panic has the meaning of its actions. -/
theorem applyActions_meaning {actions : List RegistryAction} {s : Trees}
    (h : applyActions .empty actions = some s) (k : Kind) (d : Digest) :
    Meaning d (halves k actions) (s.tree k)[d]? := by
  refine record_induction h k d ?_ (fun _ _ _ hm hd => hm.other hd)
    (fun _ _ a hm hd hp => meaning_snoc hm a hd hp)
  cases k <;> simpa [Trees.tree, Trees.empty] using meaning_nil d

/-- The digest that a `HashTagged(R, t)` sets. -/
def tagOf (key : TagKey) : RegistryAction → Option Digest
  | .hashTagged _ d r t _ => if (⟨r, t⟩ : TagKey) = key then some d else none
  | _ => none

/-- The digest of the last `HashTagged(R, t)`. -/
def lastTag (key : TagKey) (actions : List RegistryAction) : Option Digest :=
  (actions.filterMap (tagOf key)).getLast?

/-- A journal moves a tag to that of its last `HashTagged`, and leaves it alone without one. -/
theorem applyActions_tag {actions : List RegistryAction} {s s' : Trees}
    (h : applyActions s actions = some s') (key : TagKey) :
    s'.tags[key]? = (lastTag key actions).or s.tags[key]? := by
  induction actions using List.reverseRecOn generalizing s' with
  | nil =>
    obtain rfl := Option.some.inj h
    simp [lastTag]
  | append_singleton actions a ih =>
    obtain ⟨m, hm, ha⟩ := journal.run_snoc_some h
    rcases applyAction_tags ha with ⟨ts, d, r, t, u, rfl, ht⟩ | ⟨hne, ht⟩
    · rw [ht, Std.ExtTreeMap.getElem?_insert, ih hm]
      by_cases hk : (⟨r, t⟩ : TagKey) = key <;> simp [lastTag, tagOf, hk]
    · have hnone : tagOf key a = none := by
        cases a with
        | hashTagged ts d r t u => exact absurd rfl (hne ts d r t u)
        | _ => rfl
      rw [ht, ih hm]
      simp [lastTag, hnone]

theorem applyActions_lastTag {actions : List RegistryAction} {s : Trees}
    (h : applyActions .empty actions = some s) (key : TagKey) :
    s.tags[key]? = lastTag key actions := by
  rw [applyActions_tag h key]
  simp [Trees.empty]

/-- MEANING OF THE JOURNAL: after any log that applies without a panic, every blob and manifest
    record reads as `Meaning` says, every tag is that of its last `HashTagged`, and a record
    depends on nothing but the actions about its own digest. -/
theorem replay_meaning (log : List Entry) (db : Db) (h : replay log = some db) :
    (∀ k d, Meaning d (halves k (actionsOf log)) (db.tree k)[d]?) ∧
    (∀ key, db.tags[key]? = lastTag key (actionsOf log)) ∧
    (∀ k d log' db', replay log' = some db' →
      about d (halves k (actionsOf log')) = about d (halves k (actionsOf log)) →
      (db'.tree k)[d]? = (db.tree k)[d]?) := by
  have hrun := replica_run_trees h
  refine ⟨applyActions_meaning hrun, applyActions_lastTag hrun, ?_⟩
  intro k d log' db' h' hab
  rw [applyActions_get hrun k d, applyActions_get (replica_run_trees h') k d, hab]

/-- A blob that is mounted and stored, loses its last location, and is mounted again. -/
def remountLog : List Entry :=
  [⟨⟨⟨1, 1⟩, 0⟩, .normal (.transaction
      [.blobMounted 10 helloDigest ⟨"library/a"⟩ "alice", .blobStat 11 helloDigest 12,
       .blobStored 12 helloDigest 1 "alice"])⟩,
   ⟨⟨⟨1, 1⟩, 1⟩, .normal (.transaction [.blobUnstored 20 helloDigest 1 "$system"])⟩,
   ⟨⟨⟨1, 1⟩, 2⟩, .normal (.transaction [.blobMounted 30 helloDigest ⟨"library/b"⟩ "bob"])⟩]

/-- On `remountLog` the second mount starts a new record: created anew, without size or location. -/
theorem replay_meaning_remountLog : ∃ db, replay remountLog = some db ∧
    db.blobs[helloDigest]? = some
      { fresh 30 with repositories := {⟨"library/b"⟩} } ∧
    Meaning helloDigest (halves .blob (actionsOf remountLog)) db.blobs[helloDigest]? := by
  obtain ⟨db, h⟩ := Option.isSome_iff_exists.mp (show (replay remountLog).isSome by decide)
  have hget : (replay remountLog).bind (·.blobs[helloDigest]?) = some
      { fresh 30 with repositories := {⟨"library/b"⟩} } := by decide
  rw [h] at hget
  exact ⟨db, h, hget, (replay_meaning remountLog db h).1 .blob helloDigest⟩

end Distribd.Store
