import Distribd.Store.Pending

/-! Requests that wait for an object (`store/mod.rs`, `app.rs`, the GET and HEAD handlers). A request
    that finds an object stored on other nodes only leaves a one-shot sender in the state machine and
    waits. `apply_to_state_machine` removes the senders of every digest that the batch stores on this
    node and fires them.

    Two things can go wrong. Every `send` is unwrapped, so a batch that announces an object brings the
    node down if one of the requests waiting for it has been cancelled (`bookkeeping_notified`;
    `Notifying` takes the batch apart, send by send). And a request looks at the record first and
    leaves its sender later, with no lock held in between: when the object arrives in the meantime
    nobody will wake it (`no_lost_wakeup` needs that the look is still good, or will be announced, at
    the registration). -/

namespace Distribd.Store
open Schemes

/-! ### Who is announced, who waits -/

/-- The waiters of a kind. -/
def RegistryStateMachine.waiters (sm : RegistryStateMachine) : Kind → Waiters
  | .blob => sm.blobWaiters
  | .manifest => sm.manifestWaiters

/-- The senders left for one digest. -/
def RegistryStateMachine.senders (sm : RegistryStateMachine) (k : Kind) (d : Digest) :
    List Waiter := ((sm.waiters k)[d]?).getD []

/-- The digest that an action announces as stored on node `id`. -/
def storedHere (id : RegistryNodeId) : ObjectAction → Option Digest
  | .stored _ d l => if l = id then some d else none
  | _ => none

/-- The digests of a kind that the actions announce as stored on node `id`. -/
def announced (id : RegistryNodeId) (k : Kind) (actions : List RegistryAction) : Finset Digest :=
  ((halves k actions).filterMap (storedHere id)).toFinset

/-- The requests behind the senders whose receivers are still there. -/
def live (senders : List Waiter) : Multiset ℕ := ((senders.filter (·.alive)).map (·.id) : List ℕ)

/-- The requests to be woken: the live ones among those that wait for an announced digest. -/
def RegistryStateMachine.signals (sm : RegistryStateMachine) (id : RegistryNodeId) (k : Kind)
    (actions : List RegistryAction) : Multiset ℕ :=
  ∑ d ∈ announced id k actions, live (sm.senders k d)

theorem storedHere_eq_some {id : RegistryNodeId} {a : ObjectAction} {d : Digest} :
    storedHere id a = some d ↔ ∃ ts, a = .stored ts d id := by
  cases a with
  | stored ts e l =>
    by_cases hl : l = id
    · simp [storedHere, hl]
    · simp [storedHere, hl]
  | _ => simp [storedHere]

theorem mem_announced {id : RegistryNodeId} {k : Kind} {actions : List RegistryAction}
    {d : Digest} : d ∈ announced id k actions ↔ ∃ ts, .stored ts d id ∈ halves k actions := by
  rw [announced, List.mem_toFinset, List.mem_filterMap]
  constructor
  · rintro ⟨a, ha, hd⟩
    obtain ⟨ts, rfl⟩ := storedHere_eq_some.mp hd
    exact ⟨ts, ha⟩
  · rintro ⟨ts, ha⟩
    exact ⟨_, ha, storedHere_eq_some.mpr ⟨ts, rfl⟩⟩

theorem announced_snoc (id : RegistryNodeId) (k : Kind) (actions : List RegistryAction)
    (a : RegistryAction) :
    announced id k (actions ++ [a]) = match (a.half k).bind (storedHere id) with
      | some d => insert d (announced id k actions)
      | none => announced id k actions := by
  cases ha : a.half k with
  | none => simp [announced, halves, ha]
  | some oa =>
    cases hd : storedHere id oa with
    | none => simp [announced, halves, ha, hd]
    | some d =>
      ext e
      simp [announced, halves, ha, hd]

/-! ### One announcement -/

theorem notify_eq (waiters : Waiters) (d : Digest) :
    notify waiters d =
      if ((waiters[d]?).getD []).all (·.alive) then
        some (waiters.erase d, ((waiters[d]?).getD []).map (·.id))
      else none := by
  unfold notify
  cases hd : waiters[d]? with
  | some senders => rfl
  | none =>
    have herase : waiters.erase d = waiters := by
      refine Std.ExtTreeMap.ext_getElem? fun {e} => ?_
      rw [Std.ExtTreeMap.getElem?_erase]
      split
      case isTrue he => rw [← Std.LawfulEqOrd.eq_of_compare he, hd]
      case isFalse => rfl
    simp [herase]

/-- The state machine with new pending digests and waiters of a kind, and more requests woken. -/
def RegistryStateMachine.put (sm : RegistryStateMachine) (k : Kind) (pending : Finset Digest)
    (waiters : Waiters) (woken : List ℕ) : RegistryStateMachine :=
  match k with
  | .blob =>
    { sm with pendingBlobs := pending, blobWaiters := waiters, woken := sm.woken ++ woken }
  | .manifest =>
    { sm with pendingManifests := pending, manifestWaiters := waiters, woken := sm.woken ++ woken }

theorem put_waiters (sm : RegistryStateMachine) (k k' : Kind) (pending : Finset Digest)
    (waiters : Waiters) (woken : List ℕ) :
    (sm.put k pending waiters woken).waiters k' = if k' = k then waiters else sm.waiters k' := by
  cases k <;> cases k' <;> rfl

theorem put_woken (sm : RegistryStateMachine) (k : Kind) (pending : Finset Digest)
    (waiters : Waiters) (woken : List ℕ) :
    (sm.put k pending waiters woken).woken = sm.woken ++ woken := by
  cases k <;> rfl

theorem half_other {a : RegistryAction} {k k' : Kind} {oa : ObjectAction}
    (h : a.half k = some oa) (hk : k' ≠ k) : a.half k' = none := by
  cases k <;> cases k' <;> first | exact absurd rfl hk | (cases a <;> first | rfl | cases h)

/-- An action that stores a digest here notifies its waiters. -/
theorem announce_here {id : RegistryNodeId} (t : Trees) (sm : RegistryStateMachine)
    {a : RegistryAction} {k : Kind} {d : Digest} (h : (a.half k).bind (storedHere id) = some d) :
    ∃ pending, announce id t sm a =
      if (sm.senders k d).all (·.alive) then
        some (sm.put k pending ((sm.waiters k).erase d) ((sm.senders k d).map (·.id)))
      else none := by
  obtain ⟨oa, hoa, hd⟩ := Option.bind_eq_some_iff.mp h
  obtain ⟨ts, rfl⟩ := storedHere_eq_some.mp hd
  refine ⟨refresh id (t.tree k) d (sm.pending k), ?_⟩
  cases k <;> cases a <;> cases hoa
  all_goals
    simp only [announce, notify_eq, ite_true]
    split
    case isTrue hall => exact (if_pos hall).symm
    case isFalse hall => exact (if_neg hall).symm

/-- Any other action leaves the waiters alone. -/
theorem announce_elsewhere {id : RegistryNodeId} (t : Trees) (sm : RegistryStateMachine)
    {a : RegistryAction} (h : ∀ k, (a.half k).bind (storedHere id) = none) :
    ∃ sm', announce id t sm a = some sm' ∧ (∀ k, sm'.waiters k = sm.waiters k) ∧
      sm'.woken = sm.woken := by
  have hb := h .blob
  have hm := h .manifest
  cases a <;> simp only [RegistryAction.half, Option.bind_some, storedHere, ite_eq_right_iff,
    reduceCtorEq, imp_false] at hb hm
  case blobStored | manifestStored =>
    simp only [announce, hb, hm, if_false]
    exact ⟨_, rfl, fun k => by cases k <;> rfl, rfl⟩
  all_goals exact ⟨_, rfl, fun k => by cases k <;> rfl, rfl⟩

/-! ### The whole loop -/

/-- What the loop has done after `actions`: every waiter of an announced digest was alive, is gone
    from the map and has been woken, and the rest is as it was. -/
structure Notified (id : RegistryNodeId) (sm : RegistryStateMachine)
    (actions : List RegistryAction) (sm' : RegistryStateMachine) : Prop where
  alive : ∀ k, ∀ d ∈ announced id k actions, ∀ w ∈ sm.senders k d, w.alive
  waiters : ∀ (k : Kind) (d : Digest), (sm'.waiters k)[d]? =
    if d ∈ announced id k actions then none else (sm.waiters k)[d]?
  woken : ∃ signalled : List ℕ, sm'.woken = sm.woken ++ signalled ∧
    (signalled : Multiset ℕ) = sm.signals id .blob actions + sm.signals id .manifest actions

theorem notified_nil (id : RegistryNodeId) (sm : RegistryStateMachine) : Notified id sm [] sm where
  alive k d hd := by simp [announced, halves] at hd
  waiters k d := by simp [announced, halves]
  woken := ⟨[], by simp, by simp [RegistryStateMachine.signals, announced, halves]⟩

/-- The senders that the loop still finds for a digest. -/
theorem Notified.senders {id : RegistryNodeId} {sm sm' : RegistryStateMachine}
    {actions : List RegistryAction} (h : Notified id sm actions sm') (k : Kind) (d : Digest) :
    sm'.senders k d = if d ∈ announced id k actions then [] else sm.senders k d := by
  rw [RegistryStateMachine.senders, h.waiters k d]
  split <;> rfl

theorem live_eq {senders : List Waiter} (h : ∀ w ∈ senders, w.alive) :
    live senders = (senders.map (·.id) : List ℕ) := by
  rw [live, List.filter_eq_self.mpr h]

/-- What one more announcement adds to the requests to be woken. -/
theorem signals_snoc (sm : RegistryStateMachine) (id : RegistryNodeId) (k : Kind)
    (actions : List RegistryAction) (a : RegistryAction) :
    sm.signals id k (actions ++ [a]) = match (a.half k).bind (storedHere id) with
      | some d => if d ∈ announced id k actions then sm.signals id k actions
          else live (sm.senders k d) + sm.signals id k actions
      | none => sm.signals id k actions := by
  rw [RegistryStateMachine.signals, announced_snoc]
  cases (a.half k).bind (storedHere id) with
  | none => rfl
  | some d =>
    simp only
    split
    case isTrue hd => rw [Finset.insert_eq_of_mem hd, RegistryStateMachine.signals]
    case isFalse hd => rw [Finset.sum_insert hd, RegistryStateMachine.signals]

/-- One more action that announces nothing. -/
theorem Notified.idle {id : RegistryNodeId} {sm sm' sm'' : RegistryStateMachine}
    {actions : List RegistryAction} {a : RegistryAction} (h : Notified id sm actions sm')
    (ha : ∀ k, (a.half k).bind (storedHere id) = none)
    (hw : ∀ k, sm''.waiters k = sm'.waiters k) (hwoken : sm''.woken = sm'.woken) :
    Notified id sm (actions ++ [a]) sm'' := by
  have hann : ∀ k, announced id k (actions ++ [a]) = announced id k actions := by
    intro k
    rw [announced_snoc, ha k]
  have hsig : ∀ k, sm.signals id k (actions ++ [a]) = sm.signals id k actions := by
    intro k
    rw [signals_snoc, ha k]
  refine ⟨?_, ?_, ?_⟩
  · intro k d hd
    rw [hann k] at hd
    exact h.alive k d hd
  · intro k d
    rw [hw k, hann k]
    exact h.waiters k d
  · rw [hwoken, hsig, hsig]
    exact h.woken

/-- One more action that announces a digest whose remaining waiters are alive. -/
theorem Notified.fire {id : RegistryNodeId} {sm sm' : RegistryStateMachine}
    {actions : List RegistryAction} {a : RegistryAction} (h : Notified id sm actions sm')
    {k : Kind} {d : Digest} (ha : (a.half k).bind (storedHere id) = some d)
    (hall : ∀ w ∈ sm'.senders k d, w.alive) (pending : Finset Digest) :
    Notified id sm (actions ++ [a])
      (sm'.put k pending ((sm'.waiters k).erase d) ((sm'.senders k d).map (·.id))) := by
  obtain ⟨oa, hoa, -⟩ := Option.bind_eq_some_iff.mp ha
  have hother : ∀ k', k' ≠ k → (a.half k').bind (storedHere id) = none := by
    intro k' hk'
    rw [half_other hoa hk']
    rfl
  have hann : ∀ k', announced id k' (actions ++ [a]) =
      if k' = k then insert d (announced id k actions) else announced id k' actions := by
    intro k'
    rcases eq_or_ne k' k with rfl | hk'
    · rw [announced_snoc, ha, if_pos rfl]
    · rw [announced_snoc, hother k' hk', if_neg hk']
  refine ⟨?_, ?_, ?_⟩
  · intro k' e he w hw
    rw [hann] at he
    split at he
    case isFalse => exact h.alive k' e he w hw
    case isTrue hk' =>
      subst hk'
      -- the digest is new, or its waiters have been seen alive before
      by_cases hold : e ∈ announced id k' actions
      · exact h.alive k' e hold w hw
      · obtain rfl : e = d := (Finset.mem_insert.mp he).resolve_right hold
        refine hall w ?_
        rw [h.senders, if_neg hold]
        exact hw
  · intro k' e
    rw [put_waiters, hann]
    split
    case isFalse => exact h.waiters k' e
    case isTrue hk' =>
      subst hk'
      rw [Std.ExtTreeMap.getElem?_erase, h.waiters k' e]
      by_cases hed : d = e
      · simp [hed]
      · have hne : e ≠ d := fun he => hed he.symm
        simp [hed, hne]
  · obtain ⟨signalled, hwoken, hsum⟩ := h.woken
    refine ⟨signalled ++ (sm'.senders k d).map (·.id), ?_, ?_⟩
    · rw [put_woken, hwoken, List.append_assoc]
    · have hnew : (((sm'.senders k d).map (·.id) : List ℕ) : Multiset ℕ) +
          sm.signals id k actions = sm.signals id k (actions ++ [a]) := by
        rw [signals_snoc, ha, h.senders]
        simp only
        split
        case isTrue => simp
        case isFalse hd =>
          rw [live_eq]
          intro w hw
          refine hall w ?_
          rw [h.senders, if_neg hd]
          exact hw
      have hsame : ∀ k', k' ≠ k →
          sm.signals id k' (actions ++ [a]) = sm.signals id k' actions := by
        intro k' hk'
        rw [signals_snoc, hother k' hk']
      rw [← Multiset.coe_add, hsum]
      cases k with
      | blob => rw [← hnew, hsame .manifest (by simp)]; abel
      | manifest => rw [← hnew, hsame .blob (by simp)]; abel

/-- The loop does this whenever it gets to its end. -/
theorem bookkeeping_notified {id : RegistryNodeId} {t : Trees} {actions : List RegistryAction}
    {sm sm' : RegistryStateMachine} (h : (bookkeeping id t).run sm actions = some sm') :
    Notified id sm actions sm' := by
  induction actions using List.reverseRecOn generalizing sm' with
  | nil =>
    obtain rfl := Option.some.inj h
    exact notified_nil id sm
  | append_singleton actions a ih =>
    obtain ⟨m, hm, hstep⟩ := (bookkeeping id t).run_snoc_some h
    replace hstep : announce id t m a = some sm' := hstep
    by_cases ha : ∃ k d, (a.half k).bind (storedHere id) = some d
    · obtain ⟨k, d, ha⟩ := ha
      obtain ⟨pending, hp⟩ := announce_here t m ha
      rw [hp] at hstep
      split at hstep
      case isTrue hall =>
        obtain rfl := Option.some.inj hstep
        exact (ih hm).fire ha (List.all_eq_true.mp hall) pending
      case isFalse => cases hstep
    · have hnone : ∀ k, (a.half k).bind (storedHere id) = none := by
        intro k
        refine Option.eq_none_iff_forall_ne_some.mpr ?_
        intro d hd
        exact ha ⟨k, d, hd⟩
      obtain ⟨m', hm', hw, hwoken⟩ := announce_elsewhere t m hnone
      obtain rfl : m' = sm' := Option.some.inj (hm'.symm.trans hstep)
      exact (ih hm).idle hnone hw hwoken

/-- The loop gets to its end when every waiter of an announced digest is alive. -/
theorem bookkeeping_isSome_of_alive (id : RegistryNodeId) (t : Trees)
    {actions : List RegistryAction} {sm : RegistryStateMachine}
    (h : ∀ k, ∀ d ∈ announced id k actions, ∀ w ∈ sm.senders k d, w.alive) :
    ((bookkeeping id t).run sm actions).isSome := by
  induction actions using List.reverseRecOn with
  | nil => rfl
  | append_singleton actions a ih =>
    have hmono : ∀ k, announced id k actions ⊆ announced id k (actions ++ [a]) := by
      intro k d hd
      obtain ⟨ts, hts⟩ := mem_announced.mp hd
      refine mem_announced.mpr ⟨ts, ?_⟩
      simp only [halves, List.filterMap_append]
      exact List.mem_append_left _ hts
    obtain ⟨m, hm⟩ := Option.isSome_iff_exists.mp (ih fun k d hd => h k d (hmono k hd))
    rw [(bookkeeping id t).run_append, hm, Option.bind_some, Machine.run_single]
    change (announce id t m a).isSome
    by_cases ha : ∃ k d, (a.half k).bind (storedHere id) = some d
    · obtain ⟨k, d, ha⟩ := ha
      obtain ⟨pending, hp⟩ := announce_here t m ha
      have hall : (m.senders k d).all (·.alive) := by
        refine List.all_eq_true.mpr ?_
        intro w hw
        rw [(bookkeeping_notified hm).senders] at hw
        split at hw
        case isTrue => cases hw
        case isFalse =>
          refine h k d ?_ w hw
          rw [announced_snoc, ha]
          exact Finset.mem_insert_self ..
      rw [hp, if_pos hall]
      rfl
    · have hnone : ∀ k, (a.half k).bind (storedHere id) = none := by
        intro k
        refine Option.eq_none_iff_forall_ne_some.mpr ?_
        intro d hd
        exact ha ⟨k, d, hd⟩
      obtain ⟨m', hm', -⟩ := announce_elsewhere t m hnone
      rw [hm']
      rfl

/-- The mirror of node 1 has fetched the blob. -/
def mirroredOnOne : Entry :=
  ⟨⟨⟨1, 2⟩, 1⟩, .normal (.transaction [.blobStored 20 helloDigest 1 "$internal"])⟩

end Distribd.Store
