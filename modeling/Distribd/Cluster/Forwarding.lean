import Distribd.Cluster.Submit

/-! How a transaction gets to the leader (`app.rs`, `client.rs`, `network/api.rs`). `submit_write`, and
    the first half of `consistent_write`, hand it to the raft of their own node. If that is not the
    leader, and knows who is, a client posts it there, and follows two more such answers at most; a
    repair from the command line starts with the client, and an import is posted as a document, of
    which each copy that arrives is a `submit_write` of its own. Nothing tells a copy of a request
    from a new request, so each copy that raft takes is written.

    A request gets lost, or its answer does, and then nobody knows whether it has been written or
    will be. So it matters that the loop goes on only after an answer that says that the request has
    been refused: then a transaction is written once at most, whatever gets lost, and once if the
    answer is `true` (`written_at_most_once`). The client of the command line gives up this much: it
    has a retry policy, and sends again what has got no answer. -/

namespace Distribd.Cluster
open Schemes Store

namespace Forwarding

/-! ### Requests and answers -/

/-- `openraft::error::ForwardToLeader`. -/
structure ForwardToLeader where
  leaderId : Option RegistryNodeId
  leaderNode : Option BasicNode
  deriving DecidableEq

/-- What has become of one copy of a request: it is on its way, or raft has it; raft has written it;
    raft has refused it, and will not write it. -/
inductive Status where
  | pending
  | committed (value : ℕ)
  | refused (forward : ForwardToLeader)
  deriving DecidableEq

/-- One copy of a request: for raft on the node itself, or posted to an address. -/
structure Attempt where
  target : Option (RegistryNodeId × String)
  status : Status
  deriving DecidableEq

/-- What `client_write` returns, once it is known; the error tells the leader if it can. -/
def Attempt.outcome (a : Attempt) : Option (Except (Option ForwardToLeader) ℕ) :=
  match a.status with
  | .pending => none
  | .committed value => some (.ok value)
  | .refused forward => some (.error (some forward))

/-- `openraft::error::RPCError`, as far as it is looked at. -/
inductive RPCError where
  | network
  | remoteError (target : RegistryNodeId) (forward : Option ForwardToLeader)

/-- `RPCError::forward_to_leader`. -/
def RPCError.forwardToLeader : RPCError → Option ForwardToLeader
  | .network => none
  | .remoteError _ forward => forward

/-- `RegistryClient`; how often its middleware sends a request again, if it has one. -/
structure RegistryClient where
  leader : RegistryNodeId × String
  maxRetries : ℕ
  deriving DecidableEq

/-- `RegistryClient::new`. -/
def RegistryClient.new (leaderId : RegistryNodeId) (leaderAddr : String)
    (retryPolicy : Option ℕ) : RegistryClient := ⟨(leaderId, leaderAddr), retryPolicy.getD 0⟩

/-- What a call waits for. -/
inductive Phase where
  /-- `self.raft.client_write`. -/
  | raft
  /-- `do_send_rpc_to_leader`, with so many turns of the loop ahead, this one included, and so many
      sends of the middleware. -/
  | http (client : RegistryClient) (nRetry resends : ℕ)
  | returned (ok : Bool)
  deriving DecidableEq

/-- A call: its transaction, the copies of the request, the latest first, and how many of them the
    middleware has made; `maxRetries` is that of its clients. -/
structure Call where
  actions : List RegistryAction
  maxRetries : ℕ
  attempts : List Attempt
  resent : ℕ
  phase : Phase
  deriving DecidableEq

/-- The POST of `do_send_rpc_to_leader`. -/
def Call.post (c : Call) (client : RegistryClient) (nRetry : ℕ) : Call :=
  { c with
    attempts := ⟨some client.leader, .pending⟩ :: c.attempts
    phase := .http client nRetry client.maxRetries }

/-- `submit_write` on what its own raft returns. -/
def Call.afterRaft (c : Call) : Except (Option ForwardToLeader) ℕ → Call
  | .ok _ => { c with phase := .returned true }
  | .error (some ⟨some leaderId, some leaderNode⟩) =>
    c.post (.new leaderId leaderNode.addr none) 3
  | .error _ => { c with phase := .returned false }

/-- The loop of `send_rpc_to_leader` on what a POST returns, and `submit_write` after it. -/
def Call.afterRpc (c : Call) (client : RegistryClient) (nRetry : ℕ) : Except RPCError ℕ → Call
  | .ok _ => { c with phase := .returned true }
  | .error e =>
    match e.forwardToLeader with
    | some ⟨some leaderId, some leaderNode⟩ =>
      let client := { client with leader := (leaderId, leaderNode.addr) }
      let nRetry := nRetry - 1
      if 0 < nRetry then c.post client nRetry else { c with phase := .returned false }
    | _ => { c with phase := .returned false }

/-- `submit_write` begins. -/
def Call.submitWrite (actions : List RegistryAction) : Call :=
  ⟨actions, 0, [⟨none, .pending⟩], 0, .raft⟩

/-- A command that writes begins, with the node that listens on its own host. -/
def Call.command (nodeId : RegistryNodeId) (actions : List RegistryAction) : Call :=
  (Call.mk actions 3 [] 0 .raft).post (.new nodeId "127.0.0.1:8080" (some 3)) 3

/-! ### The cluster -/

/-- A committed entry, and the call that it comes from. -/
structure Committed where
  call : Option ℕ
  entry : Entry
  deriving DecidableEq

/-- The log and the calls so far. -/
structure State where
  log : List Committed
  calls : List Call
  deriving DecidableEq

/-- What can happen. -/
inductive Event where
  | submitWrite (actions : List RegistryAction)
  | command (nodeId : RegistryNodeId) (actions : List RegistryAction)
  /-- The raft that has the `j`-th copy of the `i`-th call writes it; nobody needs to wait for it any
      more. -/
  | commit (i j : ℕ) (leader : LeaderId)
  /-- Any other entry is committed. -/
  | commitOther (leader : LeaderId) (payload : EntryPayload)
  /-- The raft that has the copy is not the leader, or no longer. -/
  | refuse (i j : ℕ) (forward : ForwardToLeader)
  /-- The answer to the latest copy gets back. -/
  | reply (i : ℕ)
  /-- Another error in its place: of raft, of the network, a timeout, or an answer that cannot be
      read. -/
  | lost (i : ℕ)
  /-- The middleware of the client sends the request again. -/
  | resend (i : ℕ)

/-- The entry of an event. -/
def State.push (s : State) (call : Option ℕ) (leader : LeaderId) (payload : EntryPayload) :
    List Committed :=
  s.log ++ [⟨call, ⟨⟨leader, s.log.length⟩, payload⟩⟩]

/-- A copy of the request gets this status. -/
def Call.settle (c : Call) (j : ℕ) (status : Status) : Option Call :=
  c.attempts[j]?.bind fun a =>
    if a.status = .pending then some { c with attempts := c.attempts.set j { a with status } }
    else none

/-- The answer to the latest copy. -/
def Call.reply (c : Call) : Option Call :=
  c.attempts.head?.bind fun a => a.outcome.bind fun res =>
    match c.phase with
    | .raft => some (c.afterRaft res)
    | .http client nRetry _ =>
      some (c.afterRpc client nRetry (res.mapError (.remoteError client.leader.1)))
    | .returned _ => none

/-- No answer. -/
def Call.lost (c : Call) : Option Call :=
  match c.phase with
  | .raft => some (c.afterRaft (.error none))
  | .http client nRetry _ => some (c.afterRpc client nRetry (.error .network))
  | .returned _ => none

/-- The middleware. -/
def Call.resend (c : Call) : Option Call :=
  match c.phase with
  | .http client nRetry (resends + 1) => some
      { c with
        attempts := ⟨some client.leader, .pending⟩ :: c.attempts
        resent := c.resent + 1
        phase := .http client nRetry resends }
  | _ => none

/-- A call changes. -/
def State.change (s : State) (i : ℕ) (f : Call → Option Call) : Option State :=
  s.calls[i]?.bind fun c => (f c).map fun c => { s with calls := s.calls.set i c }

/-- One event. -/
def step (s : State) : Event → Option State
  | .submitWrite actions => some { s with calls := s.calls ++ [.submitWrite actions] }
  | .command nodeId actions => some { s with calls := s.calls ++ [.command nodeId actions] }
  | .commit i j leader =>
    s.calls[i]?.bind fun c =>
      ({ s with log := s.push (some i) leader (.normal (.transaction c.actions)) }).change i
        fun c => c.settle j (.committed s.log.length)
  | .commitOther leader payload => some { s with log := s.push none leader payload }
  | .refuse i j forward => s.change i fun c => c.settle j (.refused forward)
  | .reply i => s.change i Call.reply
  | .lost i => s.change i Call.lost
  | .resend i => s.change i Call.resend

/-- An empty log and no calls. -/
def system : Machine State Event := ⟨⟨[], []⟩, step⟩

/-- How often the transaction of a call has been written. -/
def State.written (s : State) (i : ℕ) : ℕ := s.log.countP (·.call = some i)

/-! ### One call -/

/-- The copy has been written, or may still be. -/
def Attempt.live (a : Attempt) : Bool :=
  match a.status with
  | .refused _ => false
  | _ => true

/-- The copy has been written. -/
def Attempt.written (a : Attempt) : Bool :=
  match a.status with
  | .committed _ => true
  | _ => false

/-- How far a call has got, against what its clients may do. -/
def Call.Bounded (c : Call) : Prop :=
  match c.phase with
  | .raft => c.maxRetries = 0 ∧ c.resent = 0 ∧ c.attempts.length = 1
  | .http client nRetry resends => 1 ≤ nRetry ∧ nRetry ≤ 3 ∧ client.maxRetries = c.maxRetries ∧
      c.resent + resends ≤ (4 - nRetry) * c.maxRetries ∧
      c.attempts.length ≤ 5 - nRetry + c.resent
  | .returned _ => c.resent ≤ 3 * c.maxRetries ∧ c.attempts.length ≤ 4 + c.resent

/-- All copies but the latest have been refused, except for one for each that the middleware made. -/
structure Call.Ok (c : Call) : Prop where
  settled : c.attempts.tail.countP Attempt.live ≤ c.resent
  bounded : c.Bounded
  answered : c.phase = .returned true → ∃ a ∈ c.attempts.head?, a.written = true

theorem live_le (l : List Attempt) : l.countP Attempt.live ≤ 1 + l.tail.countP Attempt.live := by
  cases l with
  | nil => simp
  | cons a l =>
    rw [List.countP_cons, List.tail_cons]
    split <;> omega

theorem written_le_live (l : List Attempt) : l.countP Attempt.written ≤ l.countP Attempt.live := by
  refine List.countP_mono_left ?_
  intro a _ h
  unfold Attempt.written Attempt.live at *
  split at h
  · rename_i hstatus
    rw [hstatus]
  · cases h

/-- With a copy that has been refused in front, the rest counts. -/
theorem live_of_refused {c : Call} (h : c.Ok) {a : Attempt} (ha : c.attempts.head? = some a)
    (hlive : a.live = false) : c.attempts.countP Attempt.live ≤ c.resent := by
  obtain ⟨l, hl⟩ : ∃ l, c.attempts = a :: l := by
    cases hc : c.attempts with
    | nil => simp [hc] at ha
    | cons b l =>
      rw [hc] at ha
      exact ⟨l, by rw [Option.some.inj ha]⟩
  have hsettled := h.settled
  rw [hl, List.tail_cons] at hsettled
  rw [hl, List.countP_cons, hlive]
  simpa using hsettled

/-- What bounds a call bounds its end. -/
theorem Call.Bounded.ends {c : Call} (h : c.Bounded) :
    c.resent ≤ 3 * c.maxRetries ∧ c.attempts.length ≤ 4 + c.resent := by
  unfold Call.Bounded at h
  split at h
  · omega
  · obtain ⟨hlow, hhigh, -, hresent, hlength⟩ := h
    rename_i nRetry resends _
    have hmono : (4 - nRetry) * c.maxRetries ≤ 3 * c.maxRetries :=
      Nat.mul_le_mul_right _ (by omega)
    omega
  · exact h

/-- A call that ends. -/
theorem Call.Ok.returned {c : Call} (h : c.Ok) (ok : Bool)
    (hok : ok = true → ∃ a ∈ c.attempts.head?, a.written = true) :
    ({ c with phase := .returned ok } : Call).Ok where
  settled := h.settled
  bounded := h.bounded.ends
  answered hphase := hok (Phase.returned.inj hphase)

theorem written_of_outcome {a : Attempt} {v : ℕ} (h : a.outcome = some (.ok v)) :
    a.written = true := by
  unfold Attempt.outcome at h
  split at h
  · cases h
  · rename_i hstatus
    rw [Attempt.written, hstatus]
  · cases h

theorem live_of_outcome {a : Attempt} {e : Option ForwardToLeader}
    (h : a.outcome = some (.error e)) : a.live = false := by
  unfold Attempt.outcome at h
  split at h
  · cases h
  · cases h
  · rename_i hstatus
    rw [Attempt.live, hstatus]

theorem Call.Ok.afterRaft {c : Call} (h : c.Ok) (hphase : c.phase = .raft) {a : Attempt}
    (ha : c.attempts.head? = some a) {res : Except (Option ForwardToLeader) ℕ}
    (hres : a.outcome = some res ∨ res = .error none) : (c.afterRaft res).Ok := by
  have hbounded := h.bounded
  simp only [Call.Bounded, hphase] at hbounded
  obtain ⟨hresends, hresent, hlength⟩ := hbounded
  unfold Call.afterRaft
  split
  · refine h.returned true fun _ => ⟨a, ha, ?_⟩
    rcases hres with hres | hres
    · exact written_of_outcome hres
    · cases hres
  · have hlive : a.live = false := by
      rcases hres with hres | hres
      · exact live_of_outcome hres
      · cases hres
    refine ⟨live_of_refused h ha hlive, ?_, fun hreturned => by cases hreturned⟩
    refine ⟨by omega, le_rfl, hresends.symm, ?_, ?_⟩
    · simp [RegistryClient.new, Call.post, hresent]
    · simp [Call.post, hlength, hresent]
  · exact h.returned false nofun

theorem Call.Ok.afterRpc {c : Call} (h : c.Ok) {client : RegistryClient} {nRetry resends : ℕ}
    (hphase : c.phase = .http client nRetry resends) {a : Attempt}
    (ha : c.attempts.head? = some a) {res : Except (Option ForwardToLeader) ℕ}
    (hres : a.outcome = some res) (target : RegistryNodeId) :
    (c.afterRpc client nRetry (res.mapError (.remoteError target))).Ok := by
  have hbounded := h.bounded
  simp only [Call.Bounded, hphase] at hbounded
  obtain ⟨hlow, hhigh, hpolicy, hresent, hlength⟩ := hbounded
  cases res with
  | ok v => exact h.returned true fun _ => ⟨a, ha, written_of_outcome hres⟩
  | error e =>
    simp only [Except.mapError, Call.afterRpc, RPCError.forwardToLeader]
    split
    · split
      · rename_i hmore
        refine ⟨live_of_refused h ha (live_of_outcome hres), ?_, fun hreturned => by cases hreturned⟩
        -- each turn of the loop has a share of its own in what the middleware may send
        have hshare : (4 - (nRetry - 1)) * c.maxRetries =
            (4 - nRetry) * c.maxRetries + c.maxRetries := by
          rw [show 4 - (nRetry - 1) = 4 - nRetry + 1 by omega, Nat.add_mul, Nat.one_mul]
        refine ⟨hmore, by omega, hpolicy, ?_, ?_⟩
        · simp only [Call.post, hpolicy, hshare]
          omega
        · simp only [Call.post, List.length_cons]
          omega
      · exact h.returned false nofun
    · exact h.returned false nofun

theorem Call.Ok.lost {c c' : Call} (h : c.Ok) (hlost : c.lost = some c') :
    c'.Ok ∧ c'.actions = c.actions ∧ c'.attempts = c.attempts := by
  unfold Call.lost at hlost
  split at hlost
  · obtain rfl := Option.some.inj hlost
    exact ⟨h.returned false nofun, rfl, rfl⟩
  · obtain rfl := Option.some.inj hlost
    exact ⟨h.returned false nofun, rfl, rfl⟩
  · cases hlost

/-- The answer to the latest copy ends the call, or brings a new copy after the refused one. -/
theorem Call.Ok.reply {c c' : Call} (h : c.Ok) (hreply : c.reply = some c') :
    c'.Ok ∧ c'.actions = c.actions ∧
      c'.attempts.countP Attempt.written = c.attempts.countP Attempt.written := by
  obtain ⟨a, ha, hreply⟩ := Option.bind_eq_some_iff.mp hreply
  obtain ⟨res, hres, hreply⟩ := Option.bind_eq_some_iff.mp hreply
  split at hreply
  · rename_i hphase
    obtain rfl := Option.some.inj hreply
    refine ⟨h.afterRaft hphase ha (.inl hres), ?_⟩
    unfold Call.afterRaft
    split <;> simp [Call.post, Attempt.written]
  · rename_i client nRetry resends hphase
    obtain rfl := Option.some.inj hreply
    refine ⟨h.afterRpc hphase ha hres _, ?_⟩
    unfold Call.afterRpc
    split
    · exact ⟨rfl, rfl⟩
    · split
      · simp only
        split <;> simp [Call.post, Attempt.written]
      · exact ⟨rfl, rfl⟩
  · cases hreply

theorem Call.Ok.resend {c c' : Call} (h : c.Ok) (hresend : c.resend = some c') :
    c'.Ok ∧ c'.actions = c.actions ∧
      c'.attempts.countP Attempt.written = c.attempts.countP Attempt.written := by
  unfold Call.resend at hresend
  split at hresend
  · rename_i client nRetry resends hphase
    obtain rfl := Option.some.inj hresend
    have hbounded := h.bounded
    simp only [Call.Bounded, hphase] at hbounded
    obtain ⟨hlow, hhigh, hpolicy, hresent, hlength⟩ := hbounded
    refine ⟨⟨?_, ⟨hlow, hhigh, hpolicy, ?_, ?_⟩, fun hreturned => by cases hreturned⟩, rfl, ?_⟩
    · have hlive := live_le c.attempts
      have hsettled := h.settled
      simp only [List.tail_cons]
      omega
    · simp only
      omega
    · simp only [List.length_cons]
      omega
    · simp [Attempt.written]
  · cases hresend

theorem countP_set_of_getElem? {l : List Attempt} {j : ℕ} {a : Attempt} (h : l[j]? = some a)
    (b : Attempt) (p : Attempt → Bool) :
    (l.set j b).countP p + (if p a then 1 else 0) = l.countP p + if p b then 1 else 0 := by
  obtain ⟨hj, rfl⟩ := List.getElem?_eq_some_iff.mp h
  have hle := List.boole_getElem_le_countP (p := p) hj
  rw [List.countP_set hj]
  omega

theorem live_set_tail {l : List Attempt} {j : ℕ} {a : Attempt} (h : l[j]? = some a)
    (hlive : a.live = true) (b : Attempt) :
    (l.set j b).tail.countP Attempt.live ≤ l.tail.countP Attempt.live := by
  cases l with
  | nil => simp
  | cons x l =>
    cases j with
    | zero => simp
    | succ j =>
      have hcount := countP_set_of_getElem? (l := l) (by simpa using h) b Attempt.live
      rw [hlive, if_pos rfl] at hcount
      rw [List.set_cons_succ, List.tail_cons, List.tail_cons]
      split at hcount <;> omega

/-- A copy that is on its way is written or refused. -/
theorem Call.Ok.settle {c c' : Call} (h : c.Ok) {j : ℕ} {status : Status}
    (hsettle : c.settle j status = some c') :
    c'.Ok ∧ c'.actions = c.actions ∧
      c'.attempts.countP Attempt.written = c.attempts.countP Attempt.written +
        if (⟨none, status⟩ : Attempt).written then 1 else 0 := by
  obtain ⟨a, ha, hsettle⟩ := Option.bind_eq_some_iff.mp hsettle
  split at hsettle
  case isFalse => cases hsettle
  case isTrue hpending =>
    obtain rfl := Option.some.inj hsettle
    have hwritten : a.written = false := by rw [Attempt.written, hpending]
    have hlive : a.live = true := by rw [Attempt.live, hpending]
    refine ⟨⟨?_, ?_, ?_⟩, rfl, ?_⟩
    · exact (live_set_tail ha hlive _).trans h.settled
    · have hbounded := h.bounded
      simpa only [Call.Bounded, List.length_set] using hbounded
    · intro hphase
      obtain ⟨b, hb, hb'⟩ := h.answered hphase
      refine ⟨b, ?_, hb'⟩
      -- the answer that came back was that of the latest copy, which is no longer on its way
      cases j with
      | zero =>
        rw [← List.head?_eq_getElem?, hb] at ha
        obtain rfl := Option.some.inj ha
        rw [hwritten] at hb'
        cases hb'
      | succ j =>
        rw [List.head?_eq_getElem?] at hb ⊢
        rw [Option.mem_def, List.getElem?_set_ne (by omega)]
        exact hb
    · have hcount := countP_set_of_getElem? ha { a with status } Attempt.written
      rw [hwritten, if_neg Bool.false_ne_true, Nat.add_zero] at hcount
      exact hcount

/-! ### All calls -/

/-- The calls are in order, and what has been written of each is in the log. -/
structure Sound (s : State) : Prop where
  calls : ∀ (i : ℕ) (c : Call), s.calls[i]? = some c →
    c.Ok ∧ s.written i = c.attempts.countP Attempt.written
  payloads : ∀ e ∈ s.log, ∀ i, e.call = some i →
    ∃ c, s.calls[i]? = some c ∧ e.entry.payload = .normal (.transaction c.actions)

/-- What is counted for a call is in the log. -/
theorem Sound.later {s : State} (h : Sound s) {i : ℕ} (hi : s.calls.length ≤ i) :
    s.written i = 0 := by
  refine List.countP_eq_zero.mpr ?_
  intro e he hcall
  obtain ⟨c, hc, -⟩ := h.payloads e he i (of_decide_eq_true hcall)
  rw [List.getElem?_eq_none hi] at hc
  cases hc

theorem Sound.call {s : State} (h : Sound s) {c : Call} (hc : c.Ok)
    (hnone : c.attempts.countP Attempt.written = 0) : Sound { s with calls := s.calls ++ [c] } where
  calls i c' hc' := by
    rw [List.getElem?_append] at hc'
    split at hc'
    · exact h.calls i c' hc'
    · rename_i hi
      rw [List.getElem?_singleton] at hc'
      split at hc'
      · obtain rfl := Option.some.inj hc'
        exact ⟨hc, (h.later (by omega)).trans hnone.symm⟩
      · cases hc'
  payloads e he i hcall := by
    obtain ⟨c', hc', hpayload⟩ := h.payloads e he i hcall
    exact ⟨c', (List.getElem?_append_left (List.getElem?_eq_some_iff.mp hc').1).trans hc', hpayload⟩

/-- One call changes, with what is written of it. -/
theorem Sound.change {s s' : State} (h : Sound s) {log : List Committed} {i n : ℕ}
    {f : Call → Option Call} (hs' : ({ s with log } : State).change i f = some s')
    (hcount : ∀ i', ({ s with log } : State).written i' = s.written i' + if i' = i then n else 0)
    (hlog : ∀ e ∈ log, e ∈ s.log ∨ ∀ i', e.call = some i' →
      ∃ c, s.calls[i']? = some c ∧ e.entry.payload = .normal (.transaction c.actions))
    (hf : ∀ c c', s.calls[i]? = some c → c.Ok → f c = some c' → c'.Ok ∧ c'.actions = c.actions ∧
      c'.attempts.countP Attempt.written = c.attempts.countP Attempt.written + n) :
    Sound s' := by
  obtain ⟨c, hc, hs'⟩ := Option.bind_eq_some_iff.mp hs'
  obtain ⟨c', hc', rfl⟩ := Option.map_eq_some_iff.mp hs'
  obtain ⟨hok, hwritten⟩ := h.calls i c hc
  obtain ⟨hok', hactions, hwritten'⟩ := hf c c' hc hok hc'
  have hlt : i < s.calls.length := (List.getElem?_eq_some_iff.mp hc).1
  refine ⟨?_, ?_⟩
  · intro i' x hx
    by_cases heq : i' = i
    · subst heq
      obtain rfl := Option.some.inj ((List.getElem?_set_self hlt).symm.trans hx)
      refine ⟨hok', (hcount i').trans ?_⟩
      rw [if_pos rfl, hwritten', hwritten]
    · replace hx := (List.getElem?_set_ne (Ne.symm heq)).symm.trans hx
      refine ⟨(h.calls i' x hx).1, (hcount i').trans ?_⟩
      rw [if_neg heq, Nat.add_zero]
      exact (h.calls i' x hx).2
  · intro e he i' hcall
    have hold : ∃ x, s.calls[i']? = some x ∧ e.entry.payload = .normal (.transaction x.actions) := by
      rcases hlog e he with he | hnew
      · exact h.payloads e he i' hcall
      · exact hnew i' hcall
    obtain ⟨x, hx, hpayload⟩ := hold
    by_cases heq : i' = i
    · subst heq
      rw [hc] at hx
      obtain rfl := Option.some.inj hx
      exact ⟨c', List.getElem?_set_self hlt, by rw [hpayload, hactions]⟩
    · exact ⟨x, (List.getElem?_set_ne (Ne.symm heq)).trans hx, hpayload⟩

theorem written_push (s : State) (call : Option ℕ) (leader : LeaderId) (payload : EntryPayload)
    (i : ℕ) : ({ s with log := s.push call leader payload } : State).written i =
      s.written i + if call = some i then 1 else 0 := by
  simp [State.written, State.push, List.countP_append, List.countP_cons]

theorem ok_submitWrite (actions : List RegistryAction) : (Call.submitWrite actions).Ok :=
  ⟨by simp [Call.submitWrite], ⟨rfl, rfl, rfl⟩, fun h => by cases h⟩

theorem ok_command (nodeId : RegistryNodeId) (actions : List RegistryAction) :
    (Call.command nodeId actions).Ok :=
  ⟨by simp [Call.command, Call.post], ⟨by omega, le_rfl, rfl, le_rfl, by simp [Call.command,
    Call.post]⟩, fun h => by cases h⟩

/-- STEP: every event keeps the books. -/
theorem sound_step (s : State) (e : Event) (s' : State) (hs : Sound s) (h : step s e = some s') :
    Sound s' := by
  have hsame : ∀ i i', s.written i' = s.written i' + if i' = i then 0 else 0 := by simp
  cases e with
  | submitWrite actions =>
    obtain rfl := Option.some.inj h
    exact hs.call (ok_submitWrite actions) rfl
  | command nodeId actions =>
    obtain rfl := Option.some.inj h
    exact hs.call (ok_command nodeId actions) rfl
  | commit i j leader =>
    obtain ⟨c, hc, h⟩ := Option.bind_eq_some_iff.mp h
    refine hs.change h (n := 1) ?_ ?_ ?_
    · intro i'
      rw [written_push]
      simp only [Option.some.injEq, eq_comm]
    · intro e he
      rcases List.mem_append.mp he with he | he
      · exact .inl he
      · obtain rfl := List.mem_singleton.mp he
        refine .inr fun i' hcall => ⟨c, ?_, rfl⟩
        rw [← Option.some.inj hcall]
        exact hc
    · intro c c' _ hc hsettle
      exact hc.settle hsettle
  | commitOther leader payload =>
    obtain rfl := Option.some.inj h
    refine ⟨fun i c hc => ?_, fun e he i hcall => ?_⟩
    · rw [written_push]
      exact hs.calls i c hc
    · rcases List.mem_append.mp he with he | he
      · exact hs.payloads e he i hcall
      · obtain rfl := List.mem_singleton.mp he
        cases hcall
  | refuse i j forward =>
    exact hs.change h (hsame i) (fun e he => .inl he) fun c c' _ hc hsettle => hc.settle hsettle
  | reply i =>
    exact hs.change h (hsame i) (fun e he => .inl he) fun c c' _ hc hreply => hc.reply hreply
  | lost i =>
    refine hs.change h (hsame i) (fun e he => .inl he) ?_
    intro c c' _ hc hlost
    obtain ⟨hok, hactions, hattempts⟩ := hc.lost hlost
    exact ⟨hok, hactions, by rw [hattempts, Nat.add_zero]⟩
  | resend i =>
    exact hs.change h (hsame i) (fun e he => .inl he) fun c c' _ hc hresend => hc.resend hresend

theorem sound_init : Sound system.init := by
  refine ⟨?_, fun e he => by cases he⟩
  intro i c hc
  simp [system] at hc

theorem sound_run {es : List Event} {s : State} (h : system.run system.init es = some s) :
    Sound s := system.run_inv sound_step sound_init h

/-! ### What is over stays so -/

/-- The call has returned, and all its copies have been refused. -/
def Over (i : ℕ) (s : State) : Prop :=
  ∃ c, s.calls[i]? = some c ∧ (∃ ok, c.phase = .returned ok) ∧ ∀ a ∈ c.attempts, a.live = false

/-- Neither raft nor the client does anything more with it. -/
theorem over_change {i i' : ℕ} {s s' : State} (h : Over i s) {log : List Committed}
    {f : Call → Option Call} (hs' : ({ s with log } : State).change i' f = some s')
    (hf : ∀ c, (∃ ok, c.phase = .returned ok) → (∀ a ∈ c.attempts, a.live = false) → f c = none) :
    Over i s' := by
  obtain ⟨c, hc, hphase, hdead⟩ := h
  obtain ⟨x, hx, hs'⟩ := Option.bind_eq_some_iff.mp hs'
  obtain ⟨x', hx', rfl⟩ := Option.map_eq_some_iff.mp hs'
  have hne : i' ≠ i := by
    intro heq
    subst heq
    rw [hc] at hx
    obtain rfl := Option.some.inj hx
    rw [hf c hphase hdead] at hx'
    cases hx'
  exact ⟨c, (List.getElem?_set_ne hne).trans hc, hphase, hdead⟩

theorem settle_none {c : Call} (hdead : ∀ a ∈ c.attempts, a.live = false) (j : ℕ)
    (status : Status) : c.settle j status = none := by
  unfold Call.settle
  cases ha : c.attempts[j]? with
  | none => rfl
  | some a =>
    have hlive := hdead a (List.mem_of_getElem? ha)
    refine if_neg fun hpending => ?_
    rw [Attempt.live, hpending] at hlive
    cases hlive

theorem over_step (i : ℕ) (s : State) (e : Event) (s' : State) (hs : Over i s)
    (h : step s e = some s') : Over i s' := by
  have hcall : ∀ c, Over i { s with calls := s.calls ++ [c] } := by
    obtain ⟨c, hc, hover⟩ := hs
    intro x
    exact ⟨c, (List.getElem?_append_left (List.getElem?_eq_some_iff.mp hc).1).trans hc, hover⟩
  cases e with
  | submitWrite actions =>
    obtain rfl := Option.some.inj h
    exact hcall _
  | command nodeId actions =>
    obtain rfl := Option.some.inj h
    exact hcall _
  | commit i' j leader =>
    obtain ⟨c, -, h⟩ := Option.bind_eq_some_iff.mp h
    exact over_change hs h fun c _ hdead => settle_none hdead j _
  | commitOther leader payload =>
    obtain rfl := Option.some.inj h
    exact hs
  | refuse i' j forward => exact over_change hs h fun c _ hdead => settle_none hdead j _
  | reply i' =>
    refine over_change hs h ?_
    rintro c ⟨ok, hphase⟩ -
    simp [Call.reply, hphase]
  | lost i' =>
    refine over_change hs h ?_
    rintro c ⟨ok, hphase⟩ -
    rw [Call.lost, hphase]
  | resend i' =>
    refine over_change hs h ?_
    rintro c ⟨ok, hphase⟩ -
    rw [Call.resend, hphase]

/-! ### What a call begins with -/

/-- The transaction of a call that begins, and how often its middleware sends again: `submit_write` has
    none, a command has one. -/
def Event.begins : Event → Option (List RegistryAction × ℕ)
  | .submitWrite actions => some (actions, 0)
  | .command _ actions => some (actions, 3)
  | _ => none

/-- The same, of a call that has begun. -/
def Call.origin (c : Call) : List RegistryAction × ℕ := (c.actions, c.maxRetries)

theorem origin_settle {c c' : Call} {j : ℕ} {status : Status} (h : c.settle j status = some c') :
    c'.origin = c.origin := by
  obtain ⟨a, -, h⟩ := Option.bind_eq_some_iff.mp h
  split at h
  · cases h
    rfl
  · cases h

theorem origin_afterRaft (c : Call) (res : Except (Option ForwardToLeader) ℕ) :
    (c.afterRaft res).origin = c.origin := by
  unfold Call.afterRaft
  split <;> rfl

theorem origin_afterRpc (c : Call) (client : RegistryClient) (nRetry : ℕ)
    (res : Except RPCError ℕ) : (c.afterRpc client nRetry res).origin = c.origin := by
  unfold Call.afterRpc
  split
  · rfl
  · split
    · simp only
      split <;> rfl
    · rfl

theorem origin_reply {c c' : Call} (h : c.reply = some c') : c'.origin = c.origin := by
  obtain ⟨a, -, h⟩ := Option.bind_eq_some_iff.mp h
  obtain ⟨res, -, h⟩ := Option.bind_eq_some_iff.mp h
  split at h
  · cases h
    exact origin_afterRaft ..
  · cases h
    exact origin_afterRpc ..
  · cases h

theorem origin_lost {c c' : Call} (h : c.lost = some c') : c'.origin = c.origin := by
  unfold Call.lost at h
  split at h
  · cases h
    exact origin_afterRaft ..
  · cases h
    exact origin_afterRpc ..
  · cases h

theorem origin_resend {c c' : Call} (h : c.resend = some c') : c'.origin = c.origin := by
  unfold Call.resend at h
  split at h
  · cases h
    rfl
  · cases h

/-- A change of one call leaves all origins. -/
theorem origins_change {s s' : State} {i : ℕ} {f : Call → Option Call}
    (hf : ∀ {c c'}, f c = some c' → c'.origin = c.origin) (h : s.change i f = some s') :
    s'.calls.map Call.origin = s.calls.map Call.origin := by
  obtain ⟨c, hc, h⟩ := Option.bind_eq_some_iff.mp h
  obtain ⟨c', hc', rfl⟩ := Option.map_eq_some_iff.mp h
  obtain ⟨hi, -⟩ := List.getElem?_eq_some_iff.mp hc
  refine List.ext_getElem? fun j => ?_
  rw [List.getElem?_map, List.getElem?_map]
  by_cases hij : i = j
  · subst hij
    rw [List.getElem?_set_self hi, hc]
    exact congrArg some (hf hc')
  · rw [List.getElem?_set_ne hij]

theorem origins_step {s s' : State} {e : Event} (h : step s e = some s') :
    s'.calls.map Call.origin = s.calls.map Call.origin ++ e.begins.toList := by
  cases e with
  | submitWrite actions =>
    cases h
    simp [Event.begins, Call.submitWrite, Call.origin]
  | command nodeId actions =>
    cases h
    simp [Event.begins, Call.command, Call.post, Call.origin]
  | commit i j leader =>
    obtain ⟨c, -, h⟩ := Option.bind_eq_some_iff.mp h
    simpa [Event.begins] using origins_change origin_settle h
  | commitOther leader payload =>
    cases h
    simp [Event.begins]
  | refuse i j forward => simpa [Event.begins] using origins_change origin_settle h
  | reply i => simpa [Event.begins] using origins_change origin_reply h
  | lost i => simpa [Event.begins] using origins_change origin_lost h
  | resend i => simpa [Event.begins] using origins_change origin_resend h

/-- The calls are those that have begun, with what they began with. -/
theorem origins_run {es : List Event} {s : State} (h : system.run system.init es = some s) :
    s.calls.map Call.origin = es.filterMap Event.begins := by
  induction es using List.reverseRecOn generalizing s with
  | nil =>
    obtain rfl : system.init = s := by simpa using h
    rfl
  | append_singleton es e ih =>
    obtain ⟨m, hm, hstep⟩ := system.run_snoc_some h
    rw [origins_step hstep, ih hm, List.filterMap_append]
    cases hbegins : e.begins <;> simp [hbegins]

/-- MAIN RESULT: in every run, what a call hands over is written as often as its middleware has sent
    again and once more at most: at most once for `submit_write`, which has no middleware, and at
    most ten times for a command. If the call returns `true` it has been written; if it returns, and
    every copy has been refused, then it never will be. What is written is the transaction that the
    call has begun with. -/
theorem written_at_most_once {es : List Event} {s : State}
    (h : system.run system.init es = some s) {i : ℕ} {c : Call} (hc : s.calls[i]? = some c) :
    (es.filterMap Event.begins)[i]? = some (c.actions, c.maxRetries) ∧
    (c.maxRetries = 0 ∨ c.maxRetries = 3) ∧
    s.written i ≤ 1 + c.resent ∧ c.resent ≤ 3 * c.maxRetries ∧
    c.attempts.length ≤ 4 + c.resent ∧
    (∀ e ∈ s.log, e.call = some i → e.entry.payload = .normal (.transaction c.actions)) ∧
    (c.phase = .returned true → 1 ≤ s.written i) ∧
    ((∃ ok, c.phase = .returned ok) → (∀ a ∈ c.attempts, a.live = false) →
      ∀ fs s', system.run s fs = some s' → s'.written i = 0) := by
  have hsound := sound_run h
  obtain ⟨hok, hwritten⟩ := hsound.calls i c hc
  obtain ⟨hresent, hlength⟩ := hok.bounded.ends
  have horigin : (es.filterMap Event.begins)[i]? = some (c.actions, c.maxRetries) := by
    rw [← origins_run h, List.getElem?_map, hc]
    rfl
  refine ⟨horigin, ?_, ?_, hresent, hlength, ?_, ?_, ?_⟩
  · obtain ⟨e, -, he⟩ := List.mem_filterMap.mp (List.mem_of_getElem? horigin)
    cases e with
    | submitWrite actions => exact .inl (Prod.mk.inj (Option.some.inj he)).2.symm
    | command nodeId actions => exact .inr (Prod.mk.inj (Option.some.inj he)).2.symm
    | _ => cases he
  · calc s.written i = c.attempts.countP Attempt.written := hwritten
      _ ≤ c.attempts.countP Attempt.live := written_le_live _
      _ ≤ 1 + c.attempts.tail.countP Attempt.live := live_le _
      _ ≤ 1 + c.resent := by have := hok.settled; omega
  · intro e he hcall
    obtain ⟨x, hx, hpayload⟩ := hsound.payloads e he i hcall
    rw [hc] at hx
    rw [hpayload, Option.some.inj hx]
  · intro hphase
    obtain ⟨a, ha, hawritten⟩ := hok.answered hphase
    rw [hwritten]
    exact List.countP_pos_iff.mpr ⟨a, List.mem_of_mem_head? ha, hawritten⟩
  · intro hphase hdead fs s' hs'
    obtain ⟨x, hx, -, hdead⟩ := system.run_inv (over_step i) ⟨c, hc, hphase, hdead⟩ hs'
    rw [((system.run_inv sound_step hsound hs').calls i x hx).2]
    refine List.countP_eq_zero.mpr ?_
    intro a ha hawritten
    have hle := written_le_live [a]
    rw [List.countP_singleton, List.countP_singleton, if_pos hawritten,
      if_neg (by rw [hdead a ha]; exact Bool.false_ne_true)] at hle
    omega

/-- The second node does not lead; the leader writes what is posted to it. -/
def forwardedRun : List Event :=
  [.submitWrite [], .refuse 0 0 ⟨some 1, some ⟨"10.0.0.1:8080"⟩⟩, .reply 0, .commit 0 0 ⟨1, 1⟩,
    .reply 0]

theorem written_at_most_once_forwardedRun : ∃ s c, system.run system.init forwardedRun = some s ∧
    s.calls[0]? = some c ∧ c.phase = .returned true ∧ c.maxRetries = 0 ∧ s.written 0 = 1 := by
  refine ⟨⟨[⟨some 0, ⟨⟨⟨1, 1⟩, 0⟩, .normal (.transaction [])⟩⟩],
    [⟨[], 0, [⟨some (1, "10.0.0.1:8080"), .committed 0⟩,
      ⟨none, .refused ⟨some 1, some ⟨"10.0.0.1:8080"⟩⟩⟩], 0, .returned true⟩]⟩, _, ?_, rfl, rfl, rfl,
    ?_⟩
  · decide +kernel
  · have hrun : system.run system.init forwardedRun = some _ := rfl
    obtain ⟨-, -, hupper, -, -, -, hlower, -⟩ := written_at_most_once hrun (i := 0) rfl
    exact le_antisymm hupper (hlower rfl)

/-- A command whose first answer has got lost is sent again, and written twice. -/
example : (system.run system.init [.command 1 [], .commit 0 0 ⟨1, 1⟩, .resend 0, .commit 0 0 ⟨1, 1⟩,
    .reply 0]).map (·.written 0) = some 2 := by
  decide +kernel

end Forwarding

end Distribd.Cluster
