import Mathlib.Data.List.Perm.Basic
import Mathlib.Algebra.Order.Group.Multiset
import Mathlib.Tactic.Abel
import Distribd.Schemes.Machine

/-! A bounded mailbox with one worker. A sender waits for room, first come first served, and may give
    up. The worker takes one message after the other and does the jobs of each in turn; a job ends
    when it ends, with any result. When the worker comes down, what is queued is gone and every send
    fails.

    In every run each message that has been sent waits, has failed or was let in (`accounted_step`).
    The jobs that have ended are those of the messages let in, in their order and without a gap, and
    the messages whose jobs have not all ended are never more than the capacity and one
    (`flows_step`, `Flows.bounds`); when the worker has nothing to do, all have ended
    (`Flows.all_done`). -/

namespace Distribd.Schemes

/-- A mailbox, its worker, and what has become of the sends and of the jobs so far. -/
structure Mailbox (μ ι ρ : Type*) where
  waiting : List μ
  queue : List μ
  /-- The message in hand, and what is left to do for it. -/
  hand : Option (μ × List ι)
  alive : Bool
  /-- The messages whose send has returned. -/
  accepted : List μ
  /-- Those whose send has failed, or has been given up. -/
  failed : List μ
  ended : List (ι × ρ)

namespace Mailbox

variable {μ ι ρ : Type*}

/-- An empty mailbox. -/
def new : Mailbox μ ι ρ := ⟨[], [], none, true, [], [], []⟩

/-- What can happen. -/
inductive Event (μ ρ : Type*) where
  | send (message : μ)
  /-- There is room for the sender that has waited longest. -/
  | enter
  | giveUp (i : ℕ)
  /-- The worker has nothing left to do and takes the next message. -/
  | receive
  | finish (result : ρ)
  /-- The worker comes down. -/
  | stop

/-- The jobs that are left to do for the message in hand. -/
def todo (s : Mailbox μ ι ρ) : List ι := (s.hand.map Prod.snd).getD []

/-- One event. -/
def step (capacity : ℕ) (jobs : μ → List ι) (s : Mailbox μ ι ρ) :
    Event μ ρ → Option (Mailbox μ ι ρ)
  | .send m =>
    if s.alive then some { s with waiting := s.waiting ++ [m] }
    else some { s with failed := s.failed ++ [m] }
  | .enter =>
    match s.waiting with
    | m :: waiting =>
      if s.queue.length < capacity then
        some { s with waiting, queue := s.queue ++ [m], accepted := s.accepted ++ [m] }
      else none
    | [] => none
  | .giveUp i =>
    s.waiting[i]?.map fun m =>
      { s with waiting := s.waiting.eraseIdx i, failed := s.failed ++ [m] }
  | .receive =>
    match s.todo, s.queue with
    | [], m :: queue => some { s with queue, hand := some (m, jobs m) }
    | _, _ => none
  | .finish result =>
    match s.hand with
    | some (m, job :: rest) =>
      some { s with hand := some (m, rest), ended := s.ended ++ [(job, result)] }
    | _ => none
  | .stop =>
    if s.alive then
      some ⟨[], [], none, false, s.accepted, s.failed ++ s.waiting, s.ended⟩
    else none

/-- What is sent by an event. -/
def Event.sent : Event μ ρ → Multiset μ
  | .send m => {m}
  | _ => 0

/-- Every message that has been sent waits, or has failed, or was let in. -/
def Accounted (sent : Multiset μ) (s : Mailbox μ ι ρ) : Prop :=
  sent = (s.waiting : Multiset μ) + s.failed + s.accepted

/-- The message in hand, as a list. -/
def inHand (s : Mailbox μ ι ρ) : List μ := (s.hand.map Prod.fst).toList

/-- The worker is up and has gone through the messages `handled`. -/
structure Flowing (capacity : ℕ) (jobs : μ → List ι) (s : Mailbox μ ι ρ) (handled : List μ) :
    Prop where
  alive : s.alive = true
  room : s.queue.length ≤ capacity
  accepted : s.accepted = handled ++ s.inHand ++ s.queue
  ended : s.ended.map Prod.fst ++ s.todo = (handled ++ s.inHand).flatMap jobs
  todo : s.todo <:+ s.inHand.flatMap jobs

/-- What has ended are the jobs of the messages let in, in order, those of all but a few. -/
structure Bounds (capacity : ℕ) (jobs : μ → List ι) (s : Mailbox μ ι ρ) (handled : List μ) :
    Prop where
  inOrder : s.ended.map Prod.fst <+: s.accepted.flatMap jobs
  through : handled.flatMap jobs <+: s.ended.map Prod.fst
  first : handled <+: s.accepted
  backpressure : s.accepted.length ≤ handled.length + (capacity + 1)

/-- The worker is up and gets on, or it is down and nothing moves. -/
def Flows (capacity : ℕ) (jobs : μ → List ι) (s : Mailbox μ ι ρ) : Prop :=
  (∃ handled, s.Flowing capacity jobs handled) ∨
    s.alive = false ∧ s.waiting = [] ∧ s.queue = [] ∧ s.hand = none ∧
      ∃ handled, s.Bounds capacity jobs handled

section

variable {capacity : ℕ} {jobs : μ → List ι} {s s' : Mailbox μ ι ρ} {handled : List μ}

theorem length_inHand_le (s : Mailbox μ ι ρ) : s.inHand.length ≤ 1 := by
  unfold inHand
  cases s.hand <;> simp

/-- The jobs that have ended for the message in hand are those at its front. -/
theorem Flowing.bounds (h : s.Flowing capacity jobs handled) : s.Bounds capacity jobs handled := by
  obtain ⟨front, hfront⟩ := h.todo
  have hended : s.ended.map Prod.fst = handled.flatMap jobs ++ front := by
    have heq := h.ended
    rw [List.flatMap_append, ← hfront, ← List.append_assoc] at heq
    exact List.append_cancel_right heq
  refine ⟨?_, ?_, ?_, ?_⟩
  · rw [h.accepted, List.flatMap_append, ← h.ended, List.append_assoc]
    exact List.prefix_append ..
  · rw [hended]
    exact List.prefix_append ..
  · rw [h.accepted, List.append_assoc]
    exact List.prefix_append ..
  · rw [h.accepted]
    have hhand := s.length_inHand_le
    have hroom := h.room
    simp only [List.length_append]
    omega

/-- In every state the bounds hold. -/
theorem Flows.bounds (h : s.Flows capacity jobs) : ∃ handled, s.Bounds capacity jobs handled := by
  rcases h with ⟨handled, h⟩ | ⟨-, -, -, -, h⟩
  · exact ⟨handled, h.bounds⟩
  · exact h

theorem flows_new : (new : Mailbox μ ι ρ).Flows capacity jobs :=
  .inl ⟨[], rfl, Nat.zero_le _, rfl, rfl, List.suffix_refl _⟩

/-- Once the worker has done everything, every job of every message let in has ended. -/
theorem Flows.all_done (h : s.Flows capacity jobs) (halive : s.alive = true) (hqueue : s.queue = [])
    (htodo : s.todo = []) : s.ended.map Prod.fst = s.accepted.flatMap jobs := by
  rcases h with ⟨handled, h⟩ | ⟨hdown, -⟩
  · rw [h.accepted, hqueue, List.append_nil, ← h.ended, htodo, List.append_nil]
  · rw [halive] at hdown
    cases hdown

/-- STEP RULE: the mailbox keeps flowing. -/
theorem flows_step {e : Event μ ρ} (h : s.Flows capacity jobs)
    (hs : s.step capacity jobs e = some s') : s'.Flows capacity jobs := by
  cases e with
  | send m =>
    simp only [step] at hs
    split at hs
    · rename_i halive
      cases hs
      rcases h with ⟨handled, h⟩ | ⟨hdown, -⟩
      · exact .inl ⟨handled, h.alive, h.room, h.accepted, h.ended, h.todo⟩
      · rw [hdown] at halive
        cases halive
    · rename_i hdown
      cases hs
      rcases h with ⟨handled, h⟩ | ⟨hdown, hwaiting, hqueue, hhand, handled, h⟩
      · exact absurd h.alive hdown
      · exact .inr ⟨hdown, hwaiting, hqueue, hhand, handled, h.inOrder, h.through, h.first,
          h.backpressure⟩
  | enter =>
    simp only [step] at hs
    split at hs
    · rename_i m waiting hwaiting
      split at hs
      · rename_i hroom
        cases hs
        rcases h with ⟨handled, h⟩ | ⟨-, hnone, -⟩
        · refine .inl ⟨handled, h.alive, ?_, ?_, h.ended, h.todo⟩
          · simpa [Nat.succ_le_iff] using hroom
          · simp only [h.accepted, List.append_assoc]
            rfl
        · rw [hwaiting] at hnone
          cases hnone
      · cases hs
    · cases hs
  | giveUp i =>
    obtain ⟨m, hm, rfl⟩ := Option.map_eq_some_iff.mp hs
    rcases h with ⟨handled, h⟩ | ⟨-, hnone, -⟩
    · exact .inl ⟨handled, h.alive, h.room, h.accepted, h.ended, h.todo⟩
    · rw [hnone] at hm
      cases hm
  | receive =>
    simp only [step] at hs
    split at hs
    · rename_i m queue htodo hqueue
      cases hs
      rcases h with ⟨handled, h⟩ | ⟨-, -, hnone, -⟩
      · -- the message that was in hand has been handled
        refine .inl ⟨handled ++ s.inHand, h.alive, ?_, ?_, ?_, ?_⟩
        · have hroom := h.room
          rw [hqueue] at hroom
          exact Nat.le_of_succ_le hroom
        · rw [h.accepted, hqueue]
          simp [inHand]
        · have hended := h.ended
          rw [htodo, List.append_nil] at hended
          simp [todo, inHand, hended]
        · simp [todo, inHand]
      · rw [hqueue] at hnone
        cases hnone
    · cases hs
  | finish result =>
    simp only [step] at hs
    split at hs
    · rename_i m job rest hhand
      cases hs
      rcases h with ⟨handled, h⟩ | ⟨-, -, -, hnone, -⟩
      · have htodo : s.todo = job :: rest := by simp [todo, hhand]
        have hinHand : s.inHand = [m] := by simp [inHand, hhand]
        have hended := h.ended
        have hsuffix := h.todo
        rw [htodo, hinHand] at hended hsuffix
        refine .inl ⟨handled, h.alive, h.room, ?_, ?_, ?_⟩
        · rw [h.accepted, hinHand]
          rfl
        · rw [List.map_append, List.append_assoc]
          exact hended
        · exact (List.suffix_cons job rest).trans hsuffix
      · rw [hhand] at hnone
        cases hnone
    · cases hs
  | stop =>
    simp only [step] at hs
    split at hs
    · cases hs
      obtain ⟨handled, h⟩ := h.bounds
      exact .inr ⟨rfl, rfl, rfl, rfl, handled, h.inOrder, h.through, h.first, h.backpressure⟩
    · cases hs

/-- A list is one of its elements and what is left without it. -/
theorem coe_of_getElem? {l : List μ} {i : ℕ} {m : μ} (h : l[i]? = some m) :
    (l : Multiset μ) = {m} + (l.eraseIdx i : Multiset μ) := by
  obtain ⟨hi, rfl⟩ := List.getElem?_eq_some_iff.mp h
  exact (Multiset.coe_eq_coe.mpr (List.getElem_cons_eraseIdx_perm hi)).symm

/-- STEP RULE: no message goes missing. -/
theorem accounted_step {sent : Multiset μ} {e : Event μ ρ} (h : s.Accounted sent)
    (hs : s.step capacity jobs e = some s') : s'.Accounted (sent + e.sent) := by
  unfold Accounted at h ⊢
  cases e with
  | send m =>
    simp only [step] at hs
    split at hs
    · cases hs
      simp only [h, Event.sent, ← Multiset.coe_add, Multiset.coe_singleton]
      abel
    · cases hs
      simp only [h, Event.sent, ← Multiset.coe_add, Multiset.coe_singleton]
      abel
  | enter =>
    simp only [step] at hs
    split at hs
    · rename_i m waiting hwaiting
      split at hs
      · cases hs
        simp only [h, hwaiting, Event.sent, ← Multiset.coe_add, ← Multiset.cons_coe,
          ← Multiset.singleton_add]
        simp only [Multiset.coe_nil]
        abel
      · cases hs
    · cases hs
  | giveUp i =>
    obtain ⟨m, hm, rfl⟩ := Option.map_eq_some_iff.mp hs
    simp only [h, Event.sent, ← Multiset.coe_add, coe_of_getElem? hm, Multiset.coe_singleton]
    abel
  | receive =>
    simp only [step] at hs
    split at hs
    · cases hs
      simpa [Event.sent] using h
    · cases hs
  | finish result =>
    simp only [step] at hs
    split at hs
    · cases hs
      simpa [Event.sent] using h
    · cases hs
  | stop =>
    simp only [step] at hs
    split at hs
    · cases hs
      simp only [h, Event.sent, ← Multiset.coe_add, Multiset.coe_nil]
      abel
    · cases hs

end

end Mailbox

end Distribd.Schemes
