import Mathlib.Data.List.Basic

/-! Event-driven machines. A machine has a start state and a partial step: `step s e = none` means
    that the event `e` cannot happen in `s` (a guard fails, or the code panics). A run feeds a list
    of events to the step from left to right. Four rules do the work of every safety proof below:
    an invariant that each step keeps holds after every run (`run_inv`), the same when each step is
    also known to meet a side condition (`run_inv_of_meets`), a run can be cut at any event to look
    at the state in which that event happened (`run_append`, `meets_cut`), and a side condition that
    says exactly when one step keeps a property says exactly when a run does
    (`meets_iff_run_steps`, `meets_iff_run_inv`). -/

namespace Distribd.Schemes

/-- A start state and a partial step on events. -/
structure Machine (σ ε : Type*) where
  init : σ
  step : σ → ε → Option σ

namespace Machine

variable {σ ε : Type*} (M : Machine σ ε)

/-- The state after the events `es`, if each of them can happen. -/
def run : σ → List ε → Option σ
  | s, [] => some s
  | s, e :: es => (M.step s e).bind (run · es)

/-- Every step of the run over `es` from `s` meets the condition `G` on its state and event. -/
def Meets (G : σ → ε → Prop) : σ → List ε → Prop
  | _, [] => True
  | s, e :: es => G s e ∧ ∀ s', M.step s e = some s' → Meets G s' es

@[simp] theorem run_nil (s : σ) : M.run s [] = some s := rfl

theorem run_cons (s : σ) (e : ε) (es : List ε) :
    M.run s (e :: es) = (M.step s e).bind (M.run · es) := rfl

@[simp] theorem run_single (s : σ) (e : ε) : M.run s [e] = M.step s e := by
  rw [run_cons]; cases M.step s e <;> rfl

theorem run_append (s : σ) (es fs : List ε) :
    M.run s (es ++ fs) = (M.run s es).bind (M.run · fs) := by
  induction es generalizing s with
  | nil => rfl
  | cons e es ih =>
    rw [List.cons_append, run_cons, run_cons]
    cases M.step s e with
    | none => rfl
    | some s' => exact ih s'

/-- A run that reaches `t` over `es ++ fs` passes through a state after `es`. -/
theorem run_append_some {s t : σ} {es fs : List ε} (h : M.run s (es ++ fs) = some t) :
    ∃ m, M.run s es = some m ∧ M.run m fs = some t := by
  rw [run_append] at h
  exact Option.bind_eq_some_iff.mp h

theorem run_cons_some {s t : σ} {e : ε} {es : List ε} (h : M.run s (e :: es) = some t) :
    ∃ m, M.step s e = some m ∧ M.run m es = some t :=
  Option.bind_eq_some_iff.mp h

/-- Cutting a run before its last event. -/
theorem run_snoc_some {s t : σ} {e : ε} {es : List ε} (h : M.run s (es ++ [e]) = some t) :
    ∃ m, M.run s es = some m ∧ M.step m e = some t := by
  obtain ⟨m, hm, hst⟩ := M.run_append_some h
  exact ⟨m, hm, by simpa using hst⟩

/-- The condition at the event where the run is cut. -/
theorem meets_cut {G : σ → ε → Prop} {s t : σ} {e : ε} {es fs : List ε}
    (h : M.Meets G s (es ++ e :: fs)) (hr : M.run s es = some t) : G t e := by
  induction es generalizing s with
  | nil =>
    obtain rfl : s = t := by simpa using hr
    exact h.1
  | cons x xs ih =>
    obtain ⟨m, hm, hr⟩ := M.run_cons_some hr
    exact ih (h.2 m hm) hr

/-- The condition is met if it is at every event where the run can be cut. -/
theorem meets_of_cuts {G : σ → ε → Prop} :
    ∀ {es : List ε} {s : σ}, (∀ xs e ys t, es = xs ++ e :: ys → M.run s xs = some t → G t e) →
      M.Meets G s es
  | [], _, _ => trivial
  | e :: es, s, h => by
    refine ⟨h [] e es s rfl rfl, fun s' hs => meets_of_cuts ?_⟩
    intro xs f ys t he hr
    refine h (e :: xs) f ys t (by rw [he]; rfl) ?_
    rw [run_cons, hs]
    exact hr

theorem meets_of_append {G : σ → ε → Prop} {s : σ} {es fs : List ε} (h : M.Meets G s (es ++ fs)) :
    M.Meets G s es := by
  induction es generalizing s with
  | nil => trivial
  | cons x xs ih => exact ⟨h.1, fun s' hs => ih (h.2 s' hs)⟩

theorem meets_mono {G H : σ → ε → Prop} (hGH : ∀ s e, G s e → H s e) {s : σ} {es : List ε}
    (h : M.Meets G s es) : M.Meets H s es := by
  induction es generalizing s with
  | nil => trivial
  | cons x xs ih => exact ⟨hGH s x h.1, fun s' hs => ih (h.2 s' hs)⟩

/-- A run, and another one from where it ends. -/
theorem meets_append {G : σ → ε → Prop} {s : σ} {es fs : List ε} (h : M.Meets G s es)
    (hfs : ∀ t, M.run s es = some t → M.Meets G t fs) : M.Meets G s (es ++ fs) := by
  induction es generalizing s with
  | nil => exact hfs s rfl
  | cons x xs ih =>
    refine ⟨h.1, fun s' hs => ih (h.2 s' hs) fun t ht => hfs t ?_⟩
    rw [run_cons, hs]
    exact ht

/-- One more event at the end. -/
theorem meets_snoc {G : σ → ε → Prop} {s : σ} {e : ε} {es : List ε} (h : M.Meets G s es)
    (he : ∀ t, M.run s es = some t → G t e) : M.Meets G s (es ++ [e]) :=
  M.meets_append h fun t ht => ⟨he t ht, fun _ _ => trivial⟩

/-- A condition that can be evaluated can be evaluated along a run. -/
instance decidableMeets (G : σ → ε → Prop) [∀ s e, Decidable (G s e)] :
    ∀ (s : σ) (es : List ε), Decidable (M.Meets G s es)
  | _, [] => isTrue trivial
  | s, e :: es =>
    match hs : M.step s e with
    | none => decidable_of_iff (G s e)
        ⟨fun h => ⟨h, fun s' h' => by rw [hs] at h'; cases h'⟩, fun h => h.1⟩
    | some m =>
      haveI := decidableMeets G m es
      decidable_of_iff (G s e ∧ M.Meets G m es)
        ⟨fun h => ⟨h.1, fun s' h' => by rw [hs] at h'; cases h'; exact h.2⟩,
         fun h => ⟨h.1, h.2 m hs⟩⟩

/-- INVARIANT RULE under a side condition on the steps taken. -/
theorem run_inv_of_meets {G : σ → ε → Prop} {I : σ → Prop}
    (hstep : ∀ s e s', I s → G s e → M.step s e = some s' → I s') :
    ∀ {es : List ε} {s s' : σ}, I s → M.Meets G s es → M.run s es = some s' → I s'
  | [], s, s', hi, _, hr => by
    obtain rfl : s = s' := by simpa using hr
    exact hi
  | e :: es, s, s', hi, hg, hr => by
    obtain ⟨m, hm, hr⟩ := M.run_cons_some hr
    exact run_inv_of_meets hstep (hstep s e m hi hg.1 hm) (hg.2 m hm) hr

theorem meets_true : ∀ (es : List ε) (s : σ), M.Meets (fun _ _ => True) s es
  | [], _ => trivial
  | _ :: es, _ => ⟨trivial, fun s' _ => meets_true es s'⟩

/-- A condition on events alone. -/
theorem meets_of_forall {Q : ε → Prop} :
    ∀ {es : List ε} {s : σ}, (∀ e ∈ es, Q e) → M.Meets (fun _ e => Q e) s es
  | [], _, _ => trivial
  | e :: _, _, h => ⟨h e (List.mem_cons_self ..), fun _ _ =>
      meets_of_forall fun f hf => h f (List.mem_cons_of_mem _ hf)⟩

/-- INVARIANT RULE: what every step keeps, every run keeps. -/
theorem run_inv {I : σ → Prop} (hstep : ∀ s e s', I s → M.step s e = some s' → I s')
    {es : List ε} {s s' : σ} (hi : I s) (hr : M.run s es = some s') : I s' :=
  M.run_inv_of_meets (fun s e s' hi _ hs => hstep s e s' hi hs) hi (M.meets_true es s) hr

/-- EXACTNESS RULE: when a step from a good state ends in a good state and is itself good exactly if
    it meets the condition, a run passes through good states by good steps only exactly if all its
    steps meet it. The steps may be known to meet a second condition `A`, and an invariant `I` that
    such steps keep may be used along the way. -/
theorem meets_iff_run_steps {A G : σ → ε → Prop} {I P : σ → Prop} {R : σ → ε → σ → Prop}
    (hI : ∀ s e s', I s → A s e → M.step s e = some s' → I s')
    (hstep : ∀ s e s', I s → P s → A s e → M.step s e = some s' → (G s e ↔ P s' ∧ R s e s')) :
    ∀ {es : List ε} {s t : σ}, I s → P s → M.Meets A s es → M.run s es = some t →
      ((∀ xs ys m, es = xs ++ ys → M.run s xs = some m → P m) ∧
        (∀ xs e ys m m', es = xs ++ e :: ys → M.run s xs = some m → M.step m e = some m' →
          R m e m') ↔ M.Meets G s es)
  | [], s, t, _, hp, _, _ => by
    refine ⟨fun _ => trivial, ?_⟩
    rintro -
    constructor
    · intro xs ys m he hm
      obtain ⟨rfl, -⟩ := List.append_eq_nil_iff.mp he.symm
      obtain rfl : s = m := by simpa using hm
      exact hp
    · intro xs e ys m m' he
      cases xs <;> cases he
  | e :: es, s, t, hi, hp, ha, hr => by
    obtain ⟨m, hm, hr⟩ := M.run_cons_some hr
    have hone := hstep s e m hi hp ha.1 hm
    have hrec : P m → _ := fun hpm =>
      meets_iff_run_steps hI hstep (hI s e m hi ha.1 hm) hpm (ha.2 m hm) hr
    have hahead : ∀ xs u, M.run m xs = some u → M.run s (e :: xs) = some u := by
      intro xs u hu
      rw [run_cons, hm]
      exact hu
    constructor
    · rintro ⟨hstates, hsteps⟩
      have hpm : P m := hstates [e] es m rfl (by simpa using hm)
      refine ⟨hone.mpr ⟨hpm, hsteps [] e es s m rfl rfl hm⟩, ?_⟩
      intro m' hm'
      obtain rfl : m = m' := Option.some.inj (hm.symm.trans hm')
      refine (hrec hpm).mp ⟨?_, ?_⟩
      · intro xs ys u he hu
        exact hstates (e :: xs) ys u (by rw [he]; rfl) (hahead xs u hu)
      · intro xs f ys u u' he hu
        exact hsteps (e :: xs) f ys u u' (by rw [he]; rfl) (hahead xs u hu)
    · intro hg
      obtain ⟨hpm, hgood⟩ := hone.mp hg.1
      obtain ⟨hstates, hsteps⟩ := (hrec hpm).mpr (hg.2 m hm)
      constructor
      · intro xs ys u he hu
        cases xs with
        | nil =>
          obtain rfl : s = u := by simpa using hu
          exact hp
        | cons x xs =>
          obtain ⟨rfl, rfl⟩ := List.cons_eq_cons.mp he
          obtain ⟨m', hm', hu⟩ := M.run_cons_some hu
          obtain rfl : m = m' := Option.some.inj (hm.symm.trans hm')
          exact hstates xs ys u rfl hu
      · intro xs f ys u u' he hu hf
        cases xs with
        | nil =>
          obtain ⟨rfl, -⟩ := List.cons_eq_cons.mp he
          obtain rfl : s = u := by simpa using hu
          obtain rfl : m = u' := Option.some.inj (hm.symm.trans hf)
          exact hgood
        | cons x xs =>
          obtain ⟨rfl, rfl⟩ := List.cons_eq_cons.mp he
          obtain ⟨m', hm', hu⟩ := M.run_cons_some hu
          obtain rfl : m = m' := Option.some.inj (hm.symm.trans hm')
          exact hsteps xs f ys u u' rfl hu hf

/-- The rule for states alone. -/
theorem meets_iff_run_inv {A G : σ → ε → Prop} {I P : σ → Prop}
    (hI : ∀ s e s', I s → A s e → M.step s e = some s' → I s')
    (hstep : ∀ s e s', I s → P s → A s e → M.step s e = some s' → (G s e ↔ P s'))
    {es : List ε} {s t : σ} (hi : I s) (hp : P s) (ha : M.Meets A s es) (hr : M.run s es = some t) :
    (∀ xs ys m, es = xs ++ ys → M.run s xs = some m → P m) ↔ M.Meets G s es := by
  rw [← M.meets_iff_run_steps (R := fun _ _ _ => True) hI (fun s e s' hi hp ha hs =>
    (hstep s e s' hi hp ha hs).trans (and_iff_left trivial).symm) hi hp ha hr]
  exact (and_iff_left fun _ _ _ _ _ _ _ _ => trivial).symm

/-- SIMULATION RULE: machines whose steps over these events agree, up to a relation and on whether the
    event can happen, agree on runs over them. -/
theorem run_rel {τ : Type*} {N : Machine τ ε} {R : σ → τ → Prop} (es : List ε)
    (hstep : ∀ e ∈ es, ∀ s t, R s t → Option.Rel R (M.step s e) (N.step t e)) {s : σ} {t : τ}
    (h : R s t) : Option.Rel R (M.run s es) (N.run t es) := by
  induction es generalizing s t with
  | nil => exact .some h
  | cons e es ih =>
    obtain ⟨hhead, htail⟩ := List.forall_mem_cons.mp hstep
    have hrel := hhead s t h
    rw [run_cons, run_cons]
    cases hs : M.step s e with
    | none =>
      rw [hs] at hrel
      cases ht : N.step t e with
      | none => exact .none
      | some t' => rw [ht] at hrel; cases hrel
    | some s' =>
      rw [hs] at hrel
      cases ht : N.step t e with
      | none => rw [ht] at hrel; cases hrel
      | some t' =>
        rw [ht] at hrel
        cases hrel with
        | some h' => exact ih htail h'

end Machine

end Distribd.Schemes
