import Mathlib.Data.List.Basic

/-! Past-time reading of an event list. A history predicate sees an event together with the events
    before it, so that "this removal was the last one" can itself be said in terms of the past.
    `Never Q pre post` says that no event of `post` is a `Q`, each judged with everything before it;
    `Since P Q xs` says that some event of `xs` is a `P` and no `Q` came after it. Both grow at the
    right end of the list one event at a time (`never_snoc`, `since_snoc`), which is how a journal
    grows; these two rules carry every induction over a journal. -/

namespace Distribd.Schemes

variable {α : Type*}

/-- No event of `post` is a `Q`, where `pre` has happened before `post`. -/
def Never (Q : List α → α → Prop) (pre post : List α) : Prop :=
  ∀ mid y tl, post = mid ++ y :: tl → ¬ Q (pre ++ mid) y

/-- Some event is a `P`, and no event after it is a `Q`. -/
def Since (P Q : List α → α → Prop) (xs : List α) : Prop :=
  ∃ pre x post, xs = pre ++ x :: post ∧ P pre x ∧ Never Q (pre ++ [x]) post

/-- Splitting a list around one element, seen from its right end. -/
theorem snoc_eq_split {xs pre post : List α} {a x : α} :
    xs ++ [a] = pre ++ x :: post ↔
      (post = [] ∧ xs = pre ∧ a = x) ∨ (∃ post', post = post' ++ [a] ∧ xs = pre ++ x :: post') := by
  rcases List.eq_nil_or_concat post with rfl | ⟨post', b, rfl⟩
  · constructor
    · intro h
      obtain ⟨hx, ha⟩ := List.append_inj' h rfl
      exact .inl ⟨rfl, hx, by simpa using ha⟩
    · rintro (⟨-, rfl, rfl⟩ | ⟨post', h, -⟩)
      · rfl
      · simp at h
  · rw [List.concat_eq_append]
    have hassoc : pre ++ x :: (post' ++ [b]) = (pre ++ x :: post') ++ [b] := by simp
    rw [hassoc]
    constructor
    · intro h
      obtain ⟨hx, hb⟩ := List.append_inj' h rfl
      obtain rfl : a = b := by simpa using hb
      exact .inr ⟨post', rfl, hx⟩
    · rintro (⟨h, -⟩ | ⟨p, hp, hx⟩)
      · simp at h
      · obtain ⟨rfl, hb⟩ := List.append_inj' hp rfl
        rw [hx, hb]

theorem never_nil (Q : List α → α → Prop) (pre : List α) : Never Q pre [] := by
  intro mid y tl h
  simp at h

/-- `Never` at the right end. -/
theorem never_snoc {Q : List α → α → Prop} {pre post : List α} {a : α} :
    Never Q pre (post ++ [a]) ↔ Never Q pre post ∧ ¬ Q (pre ++ post) a := by
  constructor
  · intro h
    refine ⟨?_, h post a [] rfl⟩
    intro mid y tl he
    exact h mid y (tl ++ [a]) (by rw [he]; simp)
  · rintro ⟨h, ha⟩ mid y tl he
    rcases snoc_eq_split.mp he with ⟨-, rfl, rfl⟩ | ⟨tl', -, rfl⟩
    · exact ha
    · exact h mid y tl' rfl

/-- What never happened in all of it never happened in its beginning. -/
theorem Never.of_append {Q : List α → α → Prop} {pre post rest : List α}
    (h : Never Q pre (post ++ rest)) : Never Q pre post := by
  intro mid y tl he
  exact h mid y (tl ++ rest) (by rw [he]; simp)

theorem not_since_nil (P Q : List α → α → Prop) : ¬ Since P Q [] := by
  rintro ⟨pre, x, post, h, -⟩
  simp at h

/-- `Since` at the right end: either the new event starts it, or it held and still does. -/
theorem since_snoc {P Q : List α → α → Prop} {xs : List α} {a : α} :
    Since P Q (xs ++ [a]) ↔ P xs a ∨ (Since P Q xs ∧ ¬ Q xs a) := by
  constructor
  · rintro ⟨pre, x, post, h, hp, hn⟩
    rcases snoc_eq_split.mp h with ⟨-, rfl, rfl⟩ | ⟨post', rfl, rfl⟩
    · exact .inl hp
    · obtain ⟨hn, hq⟩ := never_snoc.mp hn
      exact .inr ⟨⟨pre, x, post', rfl, hp, hn⟩, by simpa using hq⟩
  · rintro (hp | ⟨⟨pre, x, post, rfl, hp, hn⟩, hq⟩)
    · exact ⟨xs, a, [], rfl, hp, never_nil _ _⟩
    · exact ⟨pre, x, post ++ [a], by simp, hp, never_snoc.mpr ⟨hn, by simpa using hq⟩⟩

end Distribd.Schemes
