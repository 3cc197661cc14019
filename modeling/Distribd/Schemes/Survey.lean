import Mathlib.Data.Finset.Card
import Mathlib.Data.Finset.Image
import Mathlib.Logic.Relation

/-! Surveys. A survey keeps a set of entries that it has still to look at. A turn drains the set in
    any order and looks up each entry whose key has no record yet and is not to be skipped. The
    lookup fails, and the whole survey with it, or it yields a record for the key and further
    entries. Of several entries with one key only the first of a turn is looked up.

    `Ends` relates a survey to its possible ends over all orders. A survey can fail exactly if some
    entry that it may come to fails (`never_fails_iff`), and a survey that can succeed has only one
    end exactly if two fresh entries with one key never differ where it may come to
    (`ends_unique_iff`). Whatever the order, a success leaves nothing out (`ends_closed`). -/

namespace Distribd.Schemes

/-- The key of an entry, the keys that need no record, and what a lookup yields. -/
structure Survey (ε κ ρ : Type*) where
  key : ε → κ
  skip : κ → Prop
  find : ε → Option (ρ × Finset ε)

/-- How far a survey has come. -/
structure Tour (ε κ ρ : Type*) where
  records : Finset (κ × ρ)
  pending : Finset ε

variable {ε κ ρ : Type*} [DecidableEq ε] [DecidableEq κ] [DecidableEq ρ]

/-- An order of the elements of a set. -/
def IsOrder (s : Finset ε) (order : List ε) : Prop := order.Nodup ∧ order.toFinset = s

/-- Any element may come first. -/
theorem exists_order_cons {s : Finset ε} {e : ε} (he : e ∈ s) : ∃ es, IsOrder s (e :: es) := by
  refine ⟨(s.erase e).toList, ?_, ?_⟩
  · simp [Finset.nodup_toList]
  · rw [List.toFinset_cons, Finset.toList_toFinset, Finset.insert_erase he]

theorem IsOrder.mem_iff {s : Finset ε} {order : List ε} (h : IsOrder s order) {e : ε} :
    e ∈ order ↔ e ∈ s := by rw [← h.2, List.mem_toFinset]

theorem IsOrder.perm {s : Finset ε} {l l' : List ε} (h : IsOrder s l) (h' : IsOrder s l') :
    l.Perm l' :=
  List.perm_of_nodup_nodup_toFinset_eq h.1 h'.1 (h.2.trans h'.2.symm)

/-- The keys with a record. -/
def Tour.seen (t : Tour ε κ ρ) : Finset κ := t.records.image Prod.fst

/-- One record for each key. -/
def Tour.Functional (t : Tour ε κ ρ) : Prop :=
  ∀ p ∈ t.records, ∀ q ∈ t.records, p.1 = q.1 → p = q

namespace Survey

variable (V : Survey ε κ ρ) [DecidablePred V.skip]

/-- The entry is to be looked up. -/
def Fresh (t : Tour ε κ ρ) (e : ε) : Prop := V.key e ∉ t.seen ∧ ¬ V.skip (V.key e)

instance (t : Tour ε κ ρ) (e : ε) : Decidable (V.Fresh t e) := inferInstanceAs (Decidable (_ ∧ _))

/-- What one entry does. -/
def look (t : Tour ε κ ρ) (e : ε) : Option (Tour ε κ ρ) :=
  if V.Fresh t e then
    (V.find e).map fun found => ⟨insert (V.key e, found.1) t.records, t.pending ∪ found.2⟩
  else some t

/-- The entries in their order. -/
def lookAll : Tour ε κ ρ → List ε → Option (Tour ε κ ρ)
  | t, [] => some t
  | t, e :: es => (V.look t e).bind (lookAll · es)

/-- A turn drains what is pending in this order. -/
def turn (t : Tour ε κ ρ) (order : List ε) : Option (Tour ε κ ρ) :=
  V.lookAll { t with pending := ∅ } order

/-- What a survey may come to in one turn. -/
def Turns (t t' : Tour ε κ ρ) : Prop :=
  t.pending ≠ ∅ ∧ ∃ order, IsOrder t.pending order ∧ V.turn t order = some t'

/-- What it may come to. -/
abbrev Reached : Tour ε κ ρ → Tour ε κ ρ → Prop := Relation.ReflTransGen V.Turns

/-- How it may end; `none`: it fails. -/
inductive Ends : Tour ε κ ρ → Option (Tour ε κ ρ) → Prop
  | done {t : Tour ε κ ρ} (hdone : t.pending = ∅) : Ends t (some t)
  | turn {t t' : Tour ε κ ρ} {r : Option (Tour ε κ ρ)} (hturn : V.Turns t t') (hrest : Ends t' r) :
      Ends t r
  | fail {t : Tour ε κ ρ} {order : List ε} (hwork : t.pending ≠ ∅)
      (horder : IsOrder t.pending order) (hfail : V.turn t order = none) : Ends t none

/-- Fresh entries with one key are found the same, or fail alike. -/
def Clear (t : Tour ε κ ρ) : Prop :=
  ∀ e ∈ t.pending, ∀ f ∈ t.pending, V.key e = V.key f → V.Fresh t e → V.find f = V.find e

variable {V} {t t' u : Tour ε κ ρ} {e f : ε} {a : ρ} {more : Finset ε}

/-! ### One entry -/

theorem look_stale (h : ¬ V.Fresh t e) : V.look t e = some t := if_neg h

theorem look_none (h : V.Fresh t e) (hfind : V.find e = none) : V.look t e = none := by
  rw [look, if_pos h, hfind, Option.map_none]

theorem look_some (h : V.Fresh t e) (hfind : V.find e = some (a, more)) :
    V.look t e = some ⟨insert (V.key e, a) t.records, t.pending ∪ more⟩ := by
  rw [look, if_pos h, hfind, Option.map_some]

/-- Everything one entry can do. -/
theorem look_cases (h : V.look t e = some t') :
    (t' = t ∧ ¬ V.Fresh t e) ∨ (V.Fresh t e ∧ ∃ a more, V.find e = some (a, more) ∧
      t' = ⟨insert (V.key e, a) t.records, t.pending ∪ more⟩) := by
  by_cases hfresh : V.Fresh t e
  · right
    rw [look, if_pos hfresh, Option.map_eq_some_iff] at h
    obtain ⟨⟨a, more⟩, hfind, rfl⟩ := h
    exact ⟨hfresh, a, more, hfind, rfl⟩
  · rw [look_stale hfresh] at h
    exact .inl ⟨(Option.some.inj h).symm, hfresh⟩

omit [DecidableEq ε] [DecidablePred V.skip] in
/-- With a record more, its key is seen. -/
theorem fresh_insert {p : Finset ε} :
    V.Fresh ⟨insert (V.key e, a) t.records, p⟩ f ↔ V.key f ≠ V.key e ∧ V.Fresh t f := by
  simp only [Fresh, Tour.seen, Finset.image_insert, Finset.mem_insert, not_or, ne_eq, and_assoc]

theorem records_subset_of_look (h : V.look t e = some t') : t.records ⊆ t'.records := by
  rcases look_cases h with ⟨rfl, -⟩ | ⟨-, a, more, -, rfl⟩
  · exact Finset.Subset.refl _
  · exact Finset.subset_insert _ _

theorem fresh_of_look (h : V.look t e = some t') (hf : V.Fresh t' f) : V.Fresh t f := by
  rcases look_cases h with ⟨rfl, -⟩ | ⟨-, a, more, -, rfl⟩
  · exact hf
  · exact (fresh_insert.mp hf).2

theorem functional_look (h : V.look t e = some t') (hf : t.Functional) : t'.Functional := by
  rcases look_cases h with ⟨rfl, -⟩ | ⟨hfresh, a, more, -, rfl⟩
  · exact hf
  · have hnew : ∀ p ∈ t.records, p.1 ≠ V.key e := by
      intro p hp hkey
      exact hfresh.1 (Finset.mem_image.mpr ⟨p, hp, hkey⟩)
    intro p hp q hq hpq
    rcases Finset.mem_insert.mp hp with rfl | hp <;> rcases Finset.mem_insert.mp hq with rfl | hq
    · rfl
    · exact (hnew q hq hpq.symm).elim
    · exact (hnew p hp hpq).elim
    · exact hf p hp q hq hpq

/-- Two entries may change places, unless they have one key and are found differently. -/
theorem look_comm (hsame : V.key e = V.key f → V.Fresh t e → V.find f = V.find e) :
    (V.look t e).bind (V.look · f) = (V.look t f).bind (V.look · e) := by
  by_cases he : V.Fresh t e
  case neg =>
    rw [look_stale he, Option.bind_some]
    cases hlook : V.look t f with
    | none => rfl
    | some t' =>
      rw [Option.bind_some, look_stale (fun h => he (fresh_of_look hlook h))]
  case pos =>
    by_cases hf : V.Fresh t f
    case neg =>
      rw [look_stale hf, Option.bind_some]
      cases hlook : V.look t e with
      | none => rfl
      | some t' =>
        rw [Option.bind_some, look_stale (fun h => hf (fresh_of_look hlook h))]
    case pos =>
      by_cases hkey : V.key e = V.key f
      · have hfind := hsame hkey he
        cases hfound : V.find e with
        | none =>
          rw [hfound] at hfind
          rw [look_none he hfound, look_none hf hfind]
          rfl
        | some found =>
          rw [hfound] at hfind
          rw [look_some he hfound, look_some hf hfind, Option.bind_some, Option.bind_some,
            look_stale (fun h => (fresh_insert.mp h).1 hkey.symm),
            look_stale (fun h => (fresh_insert.mp h).1 hkey), hkey]
      · cases hfound : V.find e with
        | none =>
          rw [look_none he hfound]
          cases hother : V.find f with
          | none =>
            rw [look_none hf hother]
            rfl
          | some other =>
            rw [look_some hf hother, Option.bind_some,
              look_none (fresh_insert.mpr ⟨hkey, he⟩) hfound]
            rfl
        | some found =>
          cases hother : V.find f with
          | none =>
            rw [look_none hf hother, look_some he hfound, Option.bind_some,
              look_none (fresh_insert.mpr ⟨Ne.symm hkey, hf⟩) hother]
            rfl
          | some other =>
            rw [look_some he hfound, look_some hf hother, Option.bind_some, Option.bind_some,
              look_some (fresh_insert.mpr ⟨Ne.symm hkey, hf⟩) hother,
              look_some (fresh_insert.mpr ⟨hkey, he⟩) hfound, Finset.insert_comm,
              Finset.union_right_comm]

/-! ### A turn -/

theorem lookAll_cons (t : Tour ε κ ρ) (e : ε) (es : List ε) :
    V.lookAll t (e :: es) = (V.look t e).bind (V.lookAll · es) := rfl

theorem lookAll_cons_some {es : List ε} (h : V.lookAll t (e :: es) = some u) :
    ∃ t', V.look t e = some t' ∧ V.lookAll t' es = some u := Option.bind_eq_some_iff.mp h

theorem records_subset_of_lookAll {es : List ε} (h : V.lookAll t es = some u) :
    t.records ⊆ u.records := by
  induction es generalizing t with
  | nil =>
    obtain rfl := Option.some.inj h
    exact Finset.Subset.refl _
  | cons e es ih =>
    obtain ⟨t', hlook, hrest⟩ := lookAll_cons_some h
    exact (records_subset_of_look hlook).trans (ih hrest)

theorem functional_lookAll {es : List ε} (h : V.lookAll t es = some u) (hf : t.Functional) :
    u.Functional := by
  induction es generalizing t with
  | nil =>
    obtain rfl := Option.some.inj h
    exact hf
  | cons e es ih =>
    obtain ⟨t', hlook, hrest⟩ := lookAll_cons_some h
    exact ih hrest (functional_look hlook hf)

/-- Where entries with one key are found the same, their order does not matter. -/
theorem lookAll_perm {l l' : List ε} (h : l.Perm l') (t : Tour ε κ ρ)
    (hsame : ∀ e ∈ l, ∀ f ∈ l, V.key e = V.key f → V.Fresh t e → V.find f = V.find e) :
    V.lookAll t l = V.lookAll t l' := by
  induction h generalizing t with
  | nil => rfl
  | cons e _ ih =>
    rw [lookAll_cons, lookAll_cons]
    cases hlook : V.look t e with
    | none => rfl
    | some t' =>
      refine ih t' ?_
      intro x hx y hy hkey hfresh
      exact hsame x (List.mem_cons_of_mem _ hx) y (List.mem_cons_of_mem _ hy) hkey
        (fresh_of_look hlook hfresh)
  | swap e f l =>
    have hcomm : (V.look t f).bind (V.look · e) = (V.look t e).bind (V.look · f) :=
      look_comm (hsame f (by simp) e (by simp))
    calc V.lookAll t (f :: e :: l)
      _ = ((V.look t f).bind (V.look · e)).bind (V.lookAll · l) := (Option.bind_assoc ..).symm
      _ = ((V.look t e).bind (V.look · f)).bind (V.lookAll · l) := by rw [hcomm]
      _ = V.lookAll t (e :: f :: l) := Option.bind_assoc ..
  | trans h _ ih ih' =>
    rw [ih t hsame]
    refine ih' t ?_
    intro x hx y hy
    exact hsame x (h.mem_iff.mpr hx) y (h.mem_iff.mpr hy)

/-- Some entry fails when the entries fail. -/
theorem exists_of_lookAll_none {es : List ε} (h : V.lookAll t es = none) :
    ∃ e ∈ es, V.Fresh t e ∧ V.find e = none := by
  induction es generalizing t with
  | nil => cases h
  | cons e es ih =>
    cases hlook : V.look t e with
    | none =>
      by_cases hfresh : V.Fresh t e
      · rw [look, if_pos hfresh, Option.map_eq_none_iff] at hlook
        exact ⟨e, List.mem_cons_self .., hfresh, hlook⟩
      · rw [look_stale hfresh] at hlook
        cases hlook
    | some t' =>
      rw [lookAll_cons, hlook, Option.bind_some] at h
      obtain ⟨f, hf, hfresh, hfind⟩ := ih h
      exact ⟨f, List.mem_cons_of_mem _ hf, fresh_of_look hlook hfresh, hfind⟩

theorem turn_perm {l l' : List ε} (hclear : V.Clear t) (h : IsOrder t.pending l)
    (h' : IsOrder t.pending l') : V.turn t l = V.turn t l' :=
  lookAll_perm (h.perm h') _ fun e he f hf => hclear e (h.mem_iff.mp he) f (h.mem_iff.mp hf)

/-- A turn that begins with a fresh entry is decided by it. -/
theorem turn_cons (es : List ε) (hfresh : V.Fresh t e) :
    (V.find e = none → V.turn t (e :: es) = none) ∧
      ∀ a more, V.find e = some (a, more) → ∀ t', V.turn t (e :: es) = some t' →
        (V.key e, a) ∈ t'.records := by
  have hfresh' : V.Fresh { t with pending := ∅ } e := hfresh
  refine ⟨?_, ?_⟩
  · intro hfind
    rw [turn, lookAll_cons, look_none hfresh' hfind]
    rfl
  · intro a more hfind t' hturn
    obtain ⟨m, hlook, hrest⟩ := lookAll_cons_some hturn
    rw [look_some hfresh' hfind] at hlook
    obtain rfl := Option.some.inj hlook
    exact records_subset_of_lookAll hrest (Finset.mem_insert_self ..)

/-! ### The ends -/

theorem ends_of_reached {r : Option (Tour ε κ ρ)} (h : V.Reached t u) (hend : V.Ends u r) :
    V.Ends t r := by
  induction h using Relation.ReflTransGen.head_induction_on with
  | refl => exact hend
  | head hturn _ ih => exact .turn hturn ih

/-- A survey that has succeeded has nothing pending. -/
theorem pending_of_ends (h : V.Ends t (some u)) : u.pending = ∅ := by
  generalize hr : some u = r at h
  induction h with
  | done hdone =>
    obtain rfl := Option.some.inj hr
    exact hdone
  | turn _ _ ih => exact ih hr
  | fail => cases hr

theorem functional_ends (h : V.Ends t (some u)) (hf : t.Functional) :
    t.records ⊆ u.records ∧ u.Functional := by
  generalize hr : some u = r at h
  induction h with
  | done =>
    obtain rfl := Option.some.inj hr
    exact ⟨Finset.Subset.refl _, hf⟩
  | turn hturn _ ih =>
    obtain ⟨-, order, -, hturn⟩ := hturn
    obtain ⟨hsub, hfunctional⟩ := ih (functional_lookAll hturn hf) hr
    exact ⟨(records_subset_of_lookAll hturn).trans hsub, hfunctional⟩
  | fail => cases hr

/-- What a list of entries leaves: each of them is skipped or has a record, and each new record comes
    from a lookup whose entries are pending now. -/
theorem lookAll_found {es : List ε} (h : V.lookAll t es = some u) :
    (∀ e ∈ es, V.skip (V.key e) ∨ V.key e ∈ u.seen) ∧ t.pending ⊆ u.pending ∧
      ∀ p ∈ u.records, p ∈ t.records ∨ ∃ e more, V.key e = p.1 ∧ ¬ V.skip p.1 ∧
        V.find e = some (p.2, more) ∧ more ⊆ u.pending := by
  induction es generalizing t with
  | nil =>
    obtain rfl := Option.some.inj h
    exact ⟨by simp, Finset.Subset.refl _, fun p hp => .inl hp⟩
  | cons e es ih =>
    obtain ⟨t', hlook, hrest⟩ := lookAll_cons_some h
    obtain ⟨hdone, hpending, hfound⟩ := ih hrest
    have hseen : ∀ k ∈ t'.seen, k ∈ u.seen := fun k hk =>
      Finset.image_subset_image (records_subset_of_lookAll hrest) hk
    rcases look_cases hlook with ⟨rfl, hstale⟩ | ⟨hfresh, a, more, hfind, rfl⟩
    · refine ⟨?_, hpending, hfound⟩
      intro f hf
      rcases List.mem_cons.mp hf with rfl | hf
      · by_cases hskip : V.skip (V.key f)
        · exact .inl hskip
        · exact .inr (hseen _ (by_contra fun hnot => hstale ⟨hnot, hskip⟩))
      · exact hdone f hf
    · refine ⟨?_, Finset.subset_union_left.trans hpending, ?_⟩
      · intro f hf
        rcases List.mem_cons.mp hf with rfl | hf
        · exact .inr (hseen _ (by simp [Tour.seen]))
        · exact hdone f hf
      · intro p hp
        rcases hfound p hp with hold | hnew
        · rcases Finset.mem_insert.mp hold with rfl | hold
          · exact .inr ⟨e, more, rfl, hfresh.2, hfind, Finset.subset_union_right.trans hpending⟩
          · exact .inl hold
        · exact .inr hnew

/-- CLOSED: when a survey has succeeded, everything that was pending, and everything that its lookups
    have found, is skipped or has a record. -/
theorem ends_closed {r : Tour ε κ ρ} (h : V.Ends t (some r)) :
    (∀ e ∈ t.pending, V.skip (V.key e) ∨ V.key e ∈ r.seen) ∧ t.records ⊆ r.records ∧
      ∀ p ∈ r.records, p ∈ t.records ∨ ∃ e more, V.key e = p.1 ∧ ¬ V.skip p.1 ∧
        V.find e = some (p.2, more) ∧ ∀ f ∈ more, V.skip (V.key f) ∨ V.key f ∈ r.seen := by
  generalize hres : some r = res at h
  induction h with
  | done hdone =>
    obtain rfl := Option.some.inj hres
    refine ⟨?_, Finset.Subset.refl _, fun p hp => .inl hp⟩
    intro e he
    rw [hdone] at he
    simp at he
  | turn hturn hrest ih =>
    obtain ⟨hpending, hsub, hfound⟩ := ih hres
    obtain ⟨-, order, horder, hsome⟩ := hturn
    obtain ⟨hdone, -, hnew⟩ := lookAll_found hsome
    have hseen : ∀ k ∈ Tour.seen _, k ∈ r.seen := fun k hk => Finset.image_subset_image hsub hk
    refine ⟨?_, (records_subset_of_lookAll hsome).trans hsub, ?_⟩
    · intro e he
      rcases hdone e (horder.mem_iff.mpr he) with hskip | hrecord
      · exact .inl hskip
      · exact .inr (hseen _ hrecord)
    · intro p hp
      rcases hfound p hp with hold | hlater
      · rcases hnew p hold with hold | ⟨e, more, hkey, hskip, hfind, hmore⟩
        · exact .inl hold
        · exact .inr ⟨e, more, hkey, hskip, hfind, fun f hf => hpending f (hmore hf)⟩
      · exact .inr hlater
  | fail => cases hres

/-- It can succeed exactly if it can come to a state in which nothing is pending. -/
theorem succeeds_iff : (∃ r, V.Ends t (some r)) ↔ ∃ u, V.Reached t u ∧ u.pending = ∅ := by
  constructor
  · rintro ⟨r, h⟩
    generalize hr : some r = res at h
    induction h with
    | done hdone => exact ⟨_, .refl, hdone⟩
    | turn hturn _ ih =>
      obtain ⟨u, hu, hdone⟩ := ih hr
      exact ⟨u, .head hturn hu, hdone⟩
    | fail => cases hr
  · rintro ⟨u, hu, hdone⟩
    exact ⟨u, ends_of_reached hu (.done hdone)⟩

/-- NEVER FAILS: a survey cannot fail exactly if no fresh entry fails that it may come to. -/
theorem never_fails_iff : ¬ V.Ends t none ↔
    ∀ u, V.Reached t u → ∀ e ∈ u.pending, V.Fresh u e → (V.find e).isSome := by
  constructor
  · intro hnever u hu e he hfresh
    by_contra hfind
    obtain ⟨es, horder⟩ := exists_order_cons he
    have hfail := (turn_cons es hfresh).1 (by simpa using hfind)
    exact hnever (ends_of_reached hu (.fail (Finset.ne_empty_of_mem he) horder hfail))
  · intro hall hend
    generalize hr : (none : Option (Tour ε κ ρ)) = r at hend
    induction hend with
    | done => cases hr
    | turn hturn _ ih => exact ih (fun u hu => hall u (.head hturn hu)) hr
    | fail _ horder hfail =>
      obtain ⟨e, he, hfresh, hfind⟩ := exists_of_lookAll_none hfail
      have hsome := hall _ .refl e (horder.mem_iff.mp he) hfresh
      rw [hfind] at hsome
      cases hsome

/-- The keys among `nodes` without a record. -/
def unseen (nodes : Finset κ) (t : Tour ε κ ρ) : Finset κ := nodes \ t.seen

/-- A turn that leaves anything pending has made a record. -/
theorem lookAll_progress {nodes : Finset κ} (hnodes : ∀ e, (V.find e).isSome → V.key e ∈ nodes)
    {es : List ε} (h : V.lookAll t es = some u) :
    u = t ∨ (unseen nodes u).card < (unseen nodes t).card := by
  induction es generalizing t with
  | nil => exact .inl (Option.some.inj h).symm
  | cons e es ih =>
    obtain ⟨t', hlook, hrest⟩ := lookAll_cons_some h
    rcases look_cases hlook with ⟨rfl, -⟩ | ⟨hfresh, a, more, hfind, rfl⟩
    · exact ih hrest
    · have hkey : V.key e ∈ unseen nodes t :=
        Finset.mem_sdiff.mpr ⟨hnodes e (by rw [hfind]; rfl), hfresh.1⟩
      have hless : (unseen nodes ⟨insert (V.key e, a) t.records, t.pending ∪ more⟩).card <
          (unseen nodes t).card := by
        refine Finset.card_lt_card ((Finset.ssubset_iff_of_subset ?_).mpr ⟨V.key e, hkey, ?_⟩)
        · refine Finset.sdiff_subset_sdiff le_rfl ?_
          exact Finset.image_subset_image (Finset.subset_insert _ _)
        · simp [unseen, Tour.seen]
      rcases ih hrest with rfl | hrec
      · exact .inr hless
      · exact .inr (hrec.trans hless)

/-- TERMINATION: a survey of finitely many keys ends. -/
theorem exists_ends {nodes : Finset κ} (hnodes : ∀ e, (V.find e).isSome → V.key e ∈ nodes)
    (t : Tour ε κ ρ) : ∃ r, V.Ends t r := by
  generalize hn : (unseen nodes t).card = n
  induction n using Nat.strong_induction_on generalizing t with
  | _ n ih =>
    by_cases hdone : t.pending = ∅
    · exact ⟨_, .done hdone⟩
    · obtain ⟨e, he⟩ := Finset.nonempty_iff_ne_empty.mpr hdone
      obtain ⟨es, horder⟩ := exists_order_cons he
      cases hturn : V.turn t (e :: es) with
      | none => exact ⟨none, .fail hdone horder hturn⟩
      | some t' =>
        rcases lookAll_progress hnodes hturn with rfl | hless
        · exact ⟨_, .turn ⟨hdone, _, horder, hturn⟩ (.done rfl)⟩
        · subst hn
          obtain ⟨r, hr⟩ := ih _ hless t' rfl
          exact ⟨r, .turn ⟨hdone, _, horder, hturn⟩ hr⟩

/-- From a clear state there is one turn. -/
theorem turns_unique {t₁ t₂ : Tour ε κ ρ} (hclear : V.Clear t) (h₁ : V.Turns t t₁)
    (h₂ : V.Turns t t₂) : t₁ = t₂ := by
  obtain ⟨-, order₁, horder₁, hsome₁⟩ := h₁
  obtain ⟨-, order₂, horder₂, hsome₂⟩ := h₂
  rw [turn_perm hclear horder₁ horder₂, hsome₂] at hsome₁
  exact (Option.some.inj hsome₁).symm

/-- From clear states on, a success is the only end. -/
theorem eq_of_clear {r : Tour ε κ ρ} {r' : Option (Tour ε κ ρ)} (h : V.Ends t (some r))
    (hclear : ∀ u, V.Reached t u → V.Clear u) (h' : V.Ends t r') : r' = some r := by
  generalize hres : some r = res at h
  induction h with
  | done hdone =>
    cases h' with
    | done => rfl
    | turn hturn => exact (hturn.1 hdone).elim
    | fail hwork => exact (hwork hdone).elim
  | turn hturn _ ih =>
    cases h' with
    | done hdone => exact (hturn.1 hdone).elim
    | turn hturn' hrest' =>
      obtain rfl := turns_unique (hclear _ .refl) hturn' hturn
      exact ih (fun u hu => hclear u (.head hturn hu)) hrest' hres
    | fail _ horder' hfail =>
      obtain ⟨-, order, horder, hsome⟩ := hturn
      rw [turn_perm (hclear _ .refl) horder' horder, hsome] at hfail
      cases hfail
  | fail => cases hres

/-- Where a survey can succeed, and has one end only, it is clear. -/
theorem clear_of_unique {nodes : Finset κ} (hnodes : ∀ e, (V.find e).isSome → V.key e ∈ nodes)
    (hdet : ∀ {e f a more more'}, V.key e = V.key f → V.find e = some (a, more) →
      V.find f = some (a, more') → more = more') {r : Tour ε κ ρ} (h : V.Ends t (some r))
    (hf : t.Functional) (hunique : ∀ r', V.Ends t r' → r' = some r) : V.Clear t := by
  -- whichever of the entries comes first, the end has its record
  have hfirst : ∀ g ∈ t.pending, V.Fresh t g →
      ∃ a more, V.find g = some (a, more) ∧ (V.key g, a) ∈ r.records := by
    intro g hg hfresh
    have hwork : t.pending ≠ ∅ := Finset.ne_empty_of_mem hg
    obtain ⟨es, horder⟩ := exists_order_cons hg
    obtain ⟨hnone, hsome⟩ := turn_cons es hfresh
    cases hfind : V.find g with
    | none => cases hunique none (.fail hwork horder (hnone hfind))
    | some found =>
      obtain ⟨a, more⟩ := found
      refine ⟨a, more, rfl, ?_⟩
      cases hturn : V.turn t (g :: es) with
      | none => cases hunique none (.fail hwork horder hturn)
      | some t' =>
        obtain ⟨r', hend⟩ := exists_ends hnodes t'
        obtain rfl := hunique r' (.turn ⟨hwork, _, horder, hturn⟩ hend)
        exact (functional_ends hend (functional_lookAll hturn hf)).1 (hsome a more hfind t' hturn)
  intro e he f hf' hkey hfresh
  have hfresh' : V.Fresh t f := by rwa [Fresh, ← hkey]
  obtain ⟨a, more, hfind, hrecord⟩ := hfirst e he hfresh
  obtain ⟨b, more', hfind', hrecord'⟩ := hfirst f hf' hfresh'
  have hsame := (functional_ends h hf).2 _ hrecord _ hrecord' hkey
  obtain rfl : a = b := congrArg Prod.snd hsame
  rw [hfind, hfind', hdet hkey hfind hfind']

/-- And so is everything it may come to. -/
theorem reached_clear_of_unique {nodes : Finset κ}
    (hnodes : ∀ e, (V.find e).isSome → V.key e ∈ nodes)
    (hdet : ∀ {e f a more more'}, V.key e = V.key f → V.find e = some (a, more) →
      V.find f = some (a, more') → more = more') {r : Tour ε κ ρ} (h : V.Ends t (some r))
    (hf : t.Functional) (hunique : ∀ r', V.Ends t r' → r' = some r) (hu : V.Reached t u) :
    V.Clear u := by
  generalize hres : some r = res at h
  induction h with
  | done hdone =>
    rcases Relation.ReflTransGen.cases_head hu with rfl | ⟨t', hturn, -⟩
    · intro e he
      rw [hdone] at he
      simp at he
    · exact (hturn.1 hdone).elim
  | turn hturn hrest ih =>
    subst hres
    have hnow := clear_of_unique hnodes hdet (.turn hturn hrest) hf hunique
    rcases Relation.ReflTransGen.cases_head hu with rfl | ⟨t', hturn', hu'⟩
    · exact hnow
    · obtain rfl := turns_unique hnow hturn' hturn
      obtain ⟨-, order, -, hsome⟩ := hturn
      exact ih (functional_lookAll hsome hf) (fun r' h' => hunique r' (.turn hturn' h')) hu' rfl
  | fail => cases hres

/-- ONE END: over all its orders a survey ends in one way exactly if it cannot succeed at all, or two
    fresh entries with one key are found the same wherever it may come to. -/
theorem ends_unique_iff {nodes : Finset κ} (hnodes : ∀ e, (V.find e).isSome → V.key e ∈ nodes)
    (hdet : ∀ {e f a more more'}, V.key e = V.key f → V.find e = some (a, more) →
      V.find f = some (a, more') → more = more') (hf : t.Functional) :
    (∀ r r', V.Ends t r → V.Ends t r' → r = r') ↔
      ((∃ r, V.Ends t (some r)) → ∀ u, V.Reached t u → V.Clear u) := by
  constructor
  · rintro hunique ⟨r, h⟩ u hu
    exact reached_clear_of_unique hnodes hdet h hf (fun r' h' => hunique r' (some r) h' h) hu
  · intro hclear r r' h h'
    cases r with
    | some u => exact (eq_of_clear h (hclear ⟨u, h⟩) h').symm
    | none =>
      cases r' with
      | some u => exact eq_of_clear h' (hclear ⟨u, h'⟩) h
      | none => rfl

end Survey

end Distribd.Schemes
