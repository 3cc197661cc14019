import Distribd.Schemes.History
import Distribd.Store.Apply

/-! Who holds an object, read off the journal. `*Stored` and `*Unstored` are the only actions that
    move the locations of a record, and the record itself leaves with its last location. So the
    locations after a journal follow from its actions alone (`applyActions_locations`), and a record
    is gone after a journal exactly when the journal took its last location away and did not mount
    the digest again (`applyActions_eq_none`). -/

namespace Distribd.Store
open Schemes

/-- The locations of a record; a missing record has none. -/
def locationsOf (o : Option Object) : Finset RegistryNodeId := o.elim ∅ Object.locations

/-- What an action does to the nodes that hold `d`. -/
def moveHolder (d : Digest) (holders : Finset RegistryNodeId) :
    ObjectAction → Finset RegistryNodeId
  | .stored _ e l => if e = d then insert l holders else holders
  | .unstored _ e l => if e = d then holders.erase l else holders
  | _ => holders

/-- The nodes that hold `d` after `ops`, when `holders` held it before. -/
def holdersAfter (d : Digest) (holders : Finset RegistryNodeId) (ops : List ObjectAction) :
    Finset RegistryNodeId := ops.foldl (moveHolder d) holders

/-- The last location of `d` leaves in `ops` and `d` is not mounted again after that. -/
def Removed (d : Digest) (holders : Finset RegistryNodeId) : List ObjectAction → Prop :=
  Since (fun pre a => ∃ ts l, a = .unstored ts d l ∧ (holdersAfter d holders pre).erase l = ∅)
    (fun _ a => ∃ ts r, a = .mounted ts d r)

theorem holdersAfter_snoc (d : Digest) (holders : Finset RegistryNodeId) (ops : List ObjectAction)
    (a : ObjectAction) :
    holdersAfter d holders (ops ++ [a]) = moveHolder d (holdersAfter d holders ops) a := by
  simp [holdersAfter]

theorem moveHolder_other {d : Digest} {holders : Finset RegistryNodeId} {a : ObjectAction}
    (ha : a.digest ≠ d) : moveHolder d holders a = holders := by
  cases a <;> simp_all [moveHolder, ObjectAction.digest]

theorem locationsOf_act {d : Digest} {o : Option Object} {a : ObjectAction} (hd : a.digest = d)
    (hp : ∀ ts l, a = .stored ts d l → o ≠ none) :
    locationsOf (act o a) = moveHolder d (locationsOf o) a := by
  subst hd
  cases a with
  | stored ts e l =>
    obtain ⟨x, rfl⟩ := Option.ne_none_iff_exists'.mp (hp ts l rfl)
    simp [act, locationsOf, moveHolder, ObjectAction.digest]
  | unstored ts e l =>
    cases o with
    | none => simp [act, locationsOf, moveHolder]
    | some x =>
      by_cases hl : x.locations.erase l = ∅ <;>
        simp [act, locationsOf, moveHolder, ObjectAction.digest, hl]
  | mounted ts e r => cases o <;> simp [act, locationsOf, moveHolder, fresh]
  | unmounted ts e r => cases o <;> simp [act, locationsOf, moveHolder]
  | info ts e ds ct => cases o <;> simp [act, locationsOf, moveHolder]
  | stat ts e n => cases o <;> simp [act, locationsOf, moveHolder]

/-- Whoever holds `d` after `ops` held it before, or `ops` stores it there. -/
theorem stored_of_mem_holdersAfter {d : Digest} {holders : Finset RegistryNodeId}
    {ops : List ObjectAction} {n : RegistryNodeId} (h : n ∈ holdersAfter d holders ops) :
    n ∈ holders ∨ ∃ ts, .stored ts d n ∈ ops := by
  induction ops using List.reverseRecOn with
  | nil => exact .inl h
  | append_singleton ops a ih =>
    rw [holdersAfter_snoc] at h
    by_cases hold : n ∈ holdersAfter d holders ops
    · exact (ih hold).imp_right fun ⟨ts, hts⟩ => ⟨ts, List.mem_append_left _ hts⟩
    · cases a with
      | stored ts e l =>
        simp only [moveHolder] at h
        split at h
        case isTrue he =>
          obtain rfl : n = l := (Finset.mem_insert.mp h).resolve_right hold
          subst he
          exact .inr ⟨ts, by simp⟩
        case isFalse => exact absurd h hold
      | unstored ts e l =>
        simp only [moveHolder] at h
        split at h
        · exact absurd (Finset.mem_of_mem_erase h) hold
        · exact absurd h hold
      | _ => exact absurd h hold

/-- The locations after a journal are the nodes that its actions leave as holders. -/
theorem applyActions_locations {s s' : Trees} {actions : List RegistryAction}
    (h : applyActions s actions = some s') (k : Kind) (d : Digest) :
    locationsOf (s'.tree k)[d]? =
      holdersAfter d (locationsOf (s.tree k)[d]?) (halves k actions) := by
  refine record_induction h k d
    (P := fun ops o => locationsOf o = holdersAfter d (locationsOf (s.tree k)[d]?) ops)
    rfl ?_ ?_
  · intro ops o a ih ha
    rw [holdersAfter_snoc, ← ih, moveHolder_other ha]
  · intro ops o a ih ha hp
    rw [locationsOf_act ha hp, holdersAfter_snoc, ← ih]

/-- A record that was there is gone after a journal exactly when the journal removed it. -/
theorem applyActions_eq_none {s s' : Trees} {actions : List RegistryAction}
    (h : applyActions s actions = some s') (k : Kind) (d : Digest)
    (hs : (s.tree k)[d]? ≠ none) :
    (s'.tree k)[d]? = none ↔ Removed d (locationsOf (s.tree k)[d]?) (halves k actions) := by
  set holders := locationsOf (s.tree k)[d]? with hh
  refine (record_induction h k d
    (P := fun ops o => locationsOf o = holdersAfter d holders ops ∧
      (o = none ↔ Removed d holders ops))
    ⟨rfl, by simp [hs, Removed, not_since_nil]⟩ (fun ops o a ih ha => ⟨?_, ?_⟩)
    (fun ops o a ih ha hp => ⟨?_, ?_⟩)).2
  · rw [holdersAfter_snoc, ← ih.1, moveHolder_other ha]
  · rw [ih.2, Removed, since_snoc, ← Removed]
    have hu : ∀ ts l, a ≠ .unstored ts d l := by rintro ts l rfl; exact ha rfl
    have hm : ∀ ts r, a ≠ .mounted ts d r := by rintro ts r rfl; exact ha rfl
    simp [hu, hm]
  · rw [locationsOf_act ha hp, holdersAfter_snoc, ← ih.1]
  · rw [Removed, since_snoc, ← Removed, ← ih.2, ← ih.1]
    subst ha
    cases a with
    | stored ts e l => cases o <;> simp [act]
    | unstored ts e l =>
      cases o with
      | none => simp [act, locationsOf]
      | some x => by_cases hl : x.locations.erase l = ∅ <;> simp [act, locationsOf, hl,
          ObjectAction.digest]
    | mounted ts e r => simp [act, ObjectAction.digest]
    | unmounted ts e r => cases o <;> simp [act]
    | info ts e ds ct => cases o <;> simp [act]
    | stat ts e n => cases o <;> simp [act]

/-- A journal keeps every record that was there exactly when it removes none of them. -/
theorem applyActions_keeps_iff {s s' : Trees} {actions : List RegistryAction}
    (h : applyActions s actions = some s') :
    (∀ (k : Kind) (d : Digest), (s.tree k)[d]? ≠ none → (s'.tree k)[d]? ≠ none) ↔
      ∀ k d o, (s.tree k)[d]? = some o → ¬ Removed d o.locations (halves k actions) := by
  constructor
  · intro hkeep k d o ho hrem
    have hs : (s.tree k)[d]? ≠ none := by simp [ho]
    refine hkeep k d hs ((applyActions_eq_none h k d hs).mpr ?_)
    rw [ho]
    exact hrem
  · intro hnot k d hs hnone
    obtain ⟨o, ho⟩ := Option.ne_none_iff_exists'.mp hs
    have hrem := (applyActions_eq_none h k d hs).mp hnone
    rw [ho] at hrem
    exact hnot k d o ho hrem

/-! ### Two entries for worked inputs -/

/-- The blob `hello, world` is uploaded on node 2. -/
def uploadOnTwo : Entry :=
  ⟨⟨⟨1, 2⟩, 0⟩, .normal (.transaction
    [.blobMounted 10 helloDigest ⟨"library/a"⟩ "alice", .blobStat 11 helloDigest 12,
     .blobStored 12 helloDigest 2 "alice"])⟩

/-- The collector of node 2 announces that it dropped the blob. -/
def dropOnTwo : Entry :=
  ⟨⟨⟨1, 2⟩, 1⟩, .normal (.transaction [.blobUnstored 20 helloDigest 2 "$system"])⟩

end Distribd.Store
