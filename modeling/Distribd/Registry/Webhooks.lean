import Distribd.Schemes.Json
import Distribd.Schemes.Mailbox
import Distribd.Registry.ReadBack
import Distribd.Registry.Routing

/-! The webhooks of a node (`webhook.rs`, and the end of `manifests/put.rs`). When `consistent_write`
    has returned, the PUT of a manifest hands an event to the worker of its node, over a channel with
    room for 100, and waits for its place before it answers. The worker takes one event after the
    other and makes the POSTs of each, to the webhooks that match, in the order of the configuration;
    it waits for every answer, and does not try again.

    The machine is the registry and the webhooks of one node. A handler may end before it sends: when
    the answer of the leader is lost, or when its client has gone.

    What is announced is in the log, and comes from a request that was let through; every push is
    announced at most once, to each webhook that matches, and in the end exactly once if its handler
    got so far; a webhook that does not answer holds up all but 101 of the pushes that come after it
    (`pushes_announced`). -/

namespace Distribd.Registry
open Schemes Store Cluster

/-! ### Events and posts -/

/-- `webhook::Event`. -/
structure WebhookEvent where
  repository : RepositoryName
  digest : Digest
  contentType : String
  tag : String
  deriving DecidableEq

/-- `config::WebhookConfig`; the regular expression is what it matches. -/
structure WebhookConfig where
  url : String
  matcher : String → Bool

/-- The body of a POST. -/
def WebhookEvent.payload (event : WebhookEvent) : Json :=
  .object
    [("id", .string ""),
     ("timestamp", .string "2016-03-09T14:44:26.402973972-08:00"),
     ("action", .string "push"),
     ("target", .object
       [("mediaType", .string event.contentType),
        ("size", .unsigned 708),
        ("digest", .string (Digest.text event.digest)),
        ("length", .unsigned 708),
        ("repository", .string event.repository.name),
        ("url", .string (Location.manifest event.repository event.digest).text),
        ("tag", .string event.tag)]),
     ("request", .object
       [("id", .string ""),
        ("addr", .string "192.168.64.11:42961"),
        ("host", .string "192.168.100.227:5000"),
        ("method", .string "PUT"),
        ("useragent", .string "curl/7.38.0")]),
     ("actor", .object []),
     ("source", .object
       [("addr", .string "xtal.local:5000"),
        ("instanceID", .string "a53db899-3b4b-4a62-a067-8dd013beaca4")])]

/-- What the matchers look at. -/
def WebhookEvent.matchTarget (event : WebhookEvent) : String :=
  event.repository.name ++ ":" ++ event.tag

/-- A POST that the worker makes. -/
structure Post where
  url : String
  payload : Json

/-- The POSTs for an event. -/
def posts (webhooks : List WebhookConfig) (event : WebhookEvent) : List Post :=
  webhooks.filterMap fun hook =>
    if hook.matcher event.matchTarget then some ⟨hook.url, event.payload⟩ else none

/-- What the node `id` announces of a request, if it gets through. -/
def announcement (id : RegistryNodeId) : Request → Option WebhookEvent
  | .put location repository tag digest _ extracted _ =>
    if location = id then some ⟨repository, digest, extracted.contentType, tag⟩ else none
  | _ => none

/-! ### The machine -/

/-- The answer to a POST: a status, or none. -/
abbrev PostResult := Option ℕ

/-- The registry, and at one node: the PUTs that are committed and not yet announced, those that
    ended so, and the channel with its worker. -/
structure Announcing where
  cluster : State
  returning : List WebhookEvent
  silent : List WebhookEvent
  channel : Mailbox WebhookEvent Post PostResult

/-- What can happen. -/
inductive AnnouncingEvent where
  | registry (e : Event)
  /-- `consistent_write` has returned `true` to the `j`-th PUT, which sends its event. -/
  | send (j : ℕ)
  /-- The `j`-th PUT ends without that. -/
  | abandon (j : ℕ)
  | channel (e : Mailbox.Event WebhookEvent PostResult)

/-- The PUT of the node that an event commits. -/
def committedPut (id : RegistryNodeId) (s : State) : Event → Option WebhookEvent
  | .commit i _ => s.underWay[i]?.bind fun sub => announcement id sub.request
  | _ => none

/-- One event; `mpsc::channel(100)`. -/
def announcingStep (sha : Sha256) (id : RegistryNodeId) (webhooks : List WebhookConfig)
    (s : Announcing) : AnnouncingEvent → Option Announcing
  | .registry e => (registryStep sha s.cluster e).map fun cluster =>
      { s with cluster, returning := s.returning ++ (committedPut id s.cluster e).toList }
  | .send j => s.returning[j]?.bind fun event =>
      (s.channel.step 100 (posts webhooks) (.send event)).map fun channel =>
        { s with returning := s.returning.eraseIdx j, channel }
  | .abandon j => s.returning[j]?.map fun event =>
      { s with returning := s.returning.eraseIdx j, silent := s.silent ++ [event] }
  | .channel (.send _) => none
  | .channel e => (s.channel.step 100 (posts webhooks) e).map fun channel => { s with channel }

/-- The registry and the webhooks of a node, from the empty state. -/
def announcing (sha : Sha256) (id : RegistryNodeId) (webhooks : List WebhookConfig) :
    Machine Announcing AnnouncingEvent :=
  ⟨⟨(registry sha).init, [], [], .new⟩, announcingStep sha id webhooks⟩

/-- The events of the registry among them. -/
def AnnouncingEvent.inner : AnnouncingEvent → Option Event
  | .registry e => some e
  | _ => none

/-! ### The pushes in the log -/

/-- What a transaction of the log says about a push on the node `id`. -/
def pushedOn (id : RegistryNodeId) : List RegistryAction → Option WebhookEvent
  | .manifestMounted _ digest repository _ :: .manifestStored _ _ location _ :: .manifestStat .. ::
      .manifestInfo _ _ _ contentType :: rest =>
    match rest.getLast? with
    | some (.hashTagged _ _ _ tag _) =>
      if location = id then some ⟨repository, digest, contentType, tag⟩ else none
    | _ => none
  | _ => none

/-- The pushes on the node `id`, in the order of the log. -/
def pushes (id : RegistryNodeId) (log : List Entry) : List WebhookEvent :=
  log.filterMap fun entry => pushedOn id entry.actions

/-- The event comes from a PUT of this manifest under this tag, with the right to push, on the
    node. -/
def PushedBy (sha : Sha256) (id : RegistryNodeId) (event : WebhookEvent) (request : HttpRequest) :
    Prop :=
  request.node = id ∧ request.call = .putManifest event.repository event.tag ∧
    request.found.contentType = some event.contentType ∧
    request.token.hasPermission event.repository "push" = true ∧
    ∃ bytes ∈ request.found.file.content, sha.digest bytes = event.digest

section

variable {sha : Sha256} {id : RegistryNodeId} {webhooks : List WebhookConfig}

theorem pushedOn_put (now : Clock) (location : RegistryNodeId) (r : RepositoryName) (t : String)
    (d : Digest) (n : ℕ) (x : Extracted) (u : String) :
    pushedOn id (putActions now location r t d n x u) =
      announcement id (.put location r t d n x u) := by
  simp [putActions, Extracted.actions, pushedOn, announcement]

theorem pushedOn_cons {a : RegistryAction} {rest : List RegistryAction}
    (h : ∀ ts d r u, a ≠ .manifestMounted ts d r u) : pushedOn id (a :: rest) = none := by
  cases a <;> first | rfl | exact (h _ _ _ _ rfl).elim

/-- What a transaction says is what its request is about. -/
theorem pushedOn_transaction {now : Clock} {db : Db} {req : Request} {actions : List RegistryAction}
    (h : req.transaction now db = some actions) : pushedOn id actions = announcement id req := by
  have hmember : ∀ {l : List RegistryAction}, (∀ a ∈ l, ∀ ts d r u, a ≠ .manifestMounted ts d r u) →
      pushedOn id l = none := by
    intro l hl
    cases l with
    | nil => rfl
    | cons a rest => exact pushedOn_cons (hl a List.mem_cons_self)
  rcases transaction_cases h with ⟨id', r, d, n, u, rfl, rfl⟩ | ⟨r, src, d, u, rfl, rfl⟩ |
    ⟨id', r, t, d, n, x, u, rfl, rfl⟩ | ⟨k, d, r, u, hreq, rfl⟩ | ⟨k, id', d, rfl, -, rfl⟩ |
    ⟨w, rfl, rfl⟩ | ⟨w, id', rfl, rfl⟩
  · rfl
  · rfl
  · exact pushedOn_put ..
  · rcases hreq with rfl | ⟨t, rfl⟩ <;> cases k <;> rfl
  · cases k <;> rfl
  · refine hmember ?_
    intro a ha ts d r u
    obtain ⟨k, d', o, r', -, -, -, -, rfl⟩ := mem_phase1 ha
    cases k <;> simp [unmountedAction]
  · refine hmember ?_
    intro a ha ts d r u
    obtain ⟨k, d', -, rfl⟩ := mem_phase2 ha
    cases k <;> simp [unstoredAction]

/-! ### Where pushes come from -/

/-- The request is the push of a manifest. -/
def IsPut : Request → Prop
  | .put .. => True
  | _ => False

section

variable {app : App} {token : Token} {repository : RepositoryName} {file : UploadFile}
  {req : Request}

theorem startUpload_not_isPut {d : Option Digest} {u : String} {opened : Bool}
    (h : (startUpload app sha repository d u file opened).result = .ok (.submits req)) :
    ¬ IsPut req := by
  obtain ⟨d, n, rfl, -⟩ := startUpload_submits h
  exact id

theorem post_not_isPut {query : BlobUploadPostQuery} {opened : Bool}
    (h : (Uploads.post app sha token repository query file opened).result = .ok (.submits req)) :
    ¬ IsPut req := by
  unfold Uploads.post at h
  split at h
  · cases h
  · split at h
    · cases h
    · split at h
      · split at h
        · cases h
        · split at h
          · cases h
          · split at h
            · split at h
              · cases h
                exact id
              · exact startUpload_not_isPut h
            · exact startUpload_not_isPut h
      · exact startUpload_not_isPut h

theorem put_not_isPut {d : Digest} {isFile : Bool}
    (h : (Uploads.put app sha token repository d file isFile).result = .ok (.submits req)) :
    ¬ IsPut req := by
  obtain ⟨-, h⟩ := pushAuthorized_submits h
  split at h
  · cases h
  · split at h
    · cases h
    · obtain ⟨⟨n, rfl⟩, -⟩ := finishUpload_submits h
      exact id

theorem deleteObject_not_isPut {k : Kind} {d : Digest}
    (h : (deleteObject app token k repository d).result = .ok (.submits req)) : ¬ IsPut req := by
  obtain ⟨-, h⟩ := pushAuthorized_submits h
  split at h
  · cases h
    exact id
  · cases h

theorem deleteByTag_not_isPut {tag : String}
    (h : (Manifests.deleteByTag app token repository tag).result = .ok (.submits req)) :
    ¬ IsPut req := by
  obtain ⟨-, h⟩ := pushAuthorized_submits h
  split at h
  · cases h
  · split at h
    · cases h
      exact id
    · cases h

/-- No other handler pushes manifests. -/
theorem put_of_handle {found : Found} {call : Call} {reply : Reply Response}
    {location : RegistryNodeId} {r : RepositoryName} {t : String} {d : Digest} {n : ℕ}
    {x : Extracted} {u : String} (h : handle app sha token found call = some reply)
    (hreq : reply.submitted = some (.put location r t d n x u)) :
    location = app.id ∧ call = .putManifest r t ∧ found.contentType = some x.contentType := by
  have hserved : ∀ {answer : Reply Served}, answer.as .served ≠ reply := by
    rintro answer rfl
    rw [submitted_as_served] at hreq
    cases hreq
  have hread : ∀ {text : String} {answer : Digest → Reply Served},
      (Digest.tryFrom text).map (fun d => (answer d).as .served) ≠ some reply := by
    intro text answer hanswer
    obtain ⟨d, -, hd⟩ := Option.map_eq_some_iff.mp hanswer
    exact hserved hd
  cases call with
  | getBlob r' d' => exact absurd h hread
  | headBlob r' d' => exact absurd h hread
  | getManifest r' d' => exact absurd h hread
  | headManifest r' d' => exact absurd h hread
  | getManifestByTag r' t' => exact absurd (Option.some.inj h) hserved
  | headManifestByTag r' t' => exact absurd (Option.some.inj h) hserved
  | peer k d' => cases k <;> exact absurd h hread
  | postUpload r' mount source digest =>
    obtain ⟨mount, -, h⟩ := Option.bind_eq_some_iff.mp h
    obtain ⟨digest, -, rfl⟩ := Option.map_eq_some_iff.mp h
    exact absurd trivial (post_not_isPut (submitted_as_accepted hreq))
  | putUpload r' d' =>
    obtain ⟨digest, -, rfl⟩ := Option.map_eq_some_iff.mp h
    exact absurd trivial (put_not_isPut (submitted_as_accepted hreq))
  | putManifest r' t' =>
    obtain ⟨answer, hanswer, rfl⟩ := Option.map_eq_some_iff.mp h
    obtain ⟨ct, size, content, x', user, hct, -, -, rfl, -, heq⟩ :=
      putManifest_submits hanswer (submitted_as_accepted hreq)
    cases heq
    exact ⟨rfl, rfl, hct⟩
  | deleteBlob r' d' =>
    obtain ⟨digest, -, rfl⟩ := Option.map_eq_some_iff.mp h
    exact absurd trivial (deleteObject_not_isPut (submitted_as_accepted hreq))
  | deleteManifest r' d' =>
    obtain ⟨digest, -, rfl⟩ := Option.map_eq_some_iff.mp h
    exact absurd trivial (deleteObject_not_isPut (submitted_as_accepted hreq))
  | deleteManifestByTag r' t' =>
    cases h
    exact absurd trivial (deleteByTag_not_isPut (submitted_as_accepted hreq))

end

/-- What is announced of a transaction comes from a request that may push. -/
theorem pushedBy_of_sent {xs : List Event} {m : State} {e : Event} {sub : Submission}
    (h : SentBy sha xs m e sub) {event : WebhookEvent}
    (hevent : announcement id sub.request = some event) :
    ∃ request, e = .http request ∧ PushedBy sha id event request := by
  obtain ⟨-, now, db, hsub, -, -⟩ := h
  cases hrequest : sub.request with
  | put location r t d n x u =>
    rw [hrequest] at hsub hevent
    simp only [announcement] at hevent
    split at hevent
    · rename_i hlocation
      cases hevent
      cases e with
      | http request =>
        obtain ⟨req, hreq, heq⟩ := Option.map_eq_some_iff.mp hsub
        obtain ⟨rfl, -, -⟩ : req = .put location r t d n x u ∧ request.now = now ∧
            request.readAt = sub.readAt := by
          simpa using heq
        obtain ⟨reply, hreply, hsubmitted⟩ := Option.bind_eq_some_iff.mp hreq
        obtain ⟨db', -, hhandle⟩ := Option.bind_eq_some_iff.mp hreply
        obtain ⟨hnode, hcall, hct⟩ := put_of_handle hhandle hsubmitted
        obtain ⟨hpush, hbytes⟩ := handle_permitted hhandle hsubmitted
        exact ⟨request, rfl, hnode.symm.trans hlocation, hcall, hct, hpush, hbytes⟩
      | mirror k id' d' content now' readAt =>
        simp only [submission] at hsub
        split at hsub <;> simp at hsub
      | phase1 w now' readAt => simp [submission] at hsub
      | phase2 w id' now' readAt => simp [submission] at hsub
      | commit i leader => cases hsub
      | lose i => cases hsub
      | blank leader => cases hsub
      | membership leader mem => cases hsub
      | visit env r' w e' readAt => cases hsub
    · cases hevent
  | _ =>
    rw [hrequest] at hevent
    cases hevent

/-- One event of the registry: the log gains the push that the event commits. -/
theorem registryStep_pushes {es : List Event} {s s' : State} {e : Event} (hs : Accounted sha es s)
    (h : registryStep sha s e = some s') :
    pushes id s'.log = pushes id s.log ++ (committedPut id s e).toList := by
  by_cases he : ∃ i leader, e = .commit i leader
  · obtain ⟨i, leader, rfl⟩ := he
    obtain ⟨sub, hsub, rfl⟩ := Option.map_eq_some_iff.mp h
    obtain ⟨xs, m, f, ys, -, -, now, db, -, -, hactions⟩ :=
      hs.underWay sub (List.mem_of_getElem? hsub)
    have hpushed : pushedOn id sub.actions = announcement id sub.request :=
      pushedOn_transaction hactions
    simp only [pushes, List.filterMap_append, committedPut, hsub, Option.bind_some, ← hpushed]
    simp only [nextEntry, List.filterMap_cons, List.filterMap_nil, Entry.actions]
    cases pushedOn id sub.actions <;> rfl
  · have hnone : committedPut id s e = none := by
      cases e with
      | commit i leader => exact absurd ⟨i, leader, rfl⟩ he
      | _ => rfl
    rw [hnone]
    rcases registryStep_cases h with ⟨sub, now, db, -, -, -, rfl⟩ | ⟨i, leader, sub, rfl, -, -⟩ |
      ⟨i, rfl⟩ | ⟨entry, hentry, rfl⟩ | rfl
    · simp
    · exact absurd ⟨i, leader, rfl⟩ he
    · simp
    · simp [pushes, hentry, pushedOn]
    · simp

/-- Every push in the log has been let through. -/
theorem pushedBy_of_run {es : List Event} {s : State}
    (h : (registry sha).run (registry sha).init es = some s) :
    ∀ event ∈ pushes id s.log, ∃ request, .http request ∈ es ∧ PushedBy sha id event request := by
  induction es using List.reverseRecOn generalizing s with
  | nil =>
    obtain rfl : (registry sha).init = s := by simpa using h
    intro event hevent
    cases hevent
  | append_singleton es e ih =>
    obtain ⟨m, hm, hstep⟩ := (registry sha).run_snoc_some h
    have haccounted := run_accounted hm
    intro event hevent
    rw [registryStep_pushes haccounted hstep] at hevent
    rcases List.mem_append.mp hevent with hevent | hevent
    · obtain ⟨request, hmem, hpushed⟩ := ih hm event hevent
      exact ⟨request, List.mem_append_left _ hmem, hpushed⟩
    · -- the event commits it, so one before has handed it in
      cases e with
      | commit i leader =>
        obtain ⟨sub, hsub, hann⟩ := Option.bind_eq_some_iff.mp (Option.mem_toList.mp hevent)
        obtain ⟨xs, m', f, ys, rfl, hsent⟩ := haccounted.underWay sub (List.mem_of_getElem? hsub)
        obtain ⟨request, rfl, hpushed⟩ := pushedBy_of_sent hsent hann
        exact ⟨request, by simp, hpushed⟩
      | _ => cases hevent

/-! ### Runs -/

/-- What every step keeps of the pushes and the channel. -/
structure Announcing.Sound (id : RegistryNodeId) (webhooks : List WebhookConfig) (s : Announcing) :
    Prop where
  accounted : ∃ sent, s.channel.Accounted sent ∧ (pushes id s.cluster.log : Multiset WebhookEvent) =
    (s.returning : Multiset WebhookEvent) + s.silent + sent
  flows : s.channel.Flows 100 (posts webhooks)

/-- One event. -/
theorem sound_announcingStep {es : List Event} {s s' : Announcing} {e : AnnouncingEvent}
    (hs : s.Sound id webhooks) (haccounted : Accounted sha es s.cluster)
    (h : announcingStep sha id webhooks s e = some s') : s'.Sound id webhooks := by
  obtain ⟨sent, hchannel, hpushes⟩ := hs.accounted
  cases e with
  | registry e =>
    obtain ⟨cluster, hcluster, rfl⟩ := Option.map_eq_some_iff.mp h
    refine ⟨⟨sent, hchannel, ?_⟩, hs.flows⟩
    simp only [registryStep_pushes haccounted hcluster, ← Multiset.coe_add, hpushes]
    abel
  | send j =>
    obtain ⟨event, hevent, h⟩ := Option.bind_eq_some_iff.mp h
    obtain ⟨channel, hstep, rfl⟩ := Option.map_eq_some_iff.mp h
    refine ⟨⟨_, Mailbox.accounted_step hchannel hstep, ?_⟩, Mailbox.flows_step hs.flows hstep⟩
    simp only [hpushes, Mailbox.coe_of_getElem? hevent, Mailbox.Event.sent]
    abel
  | abandon j =>
    obtain ⟨event, hevent, rfl⟩ := Option.map_eq_some_iff.mp h
    refine ⟨⟨sent, hchannel, ?_⟩, hs.flows⟩
    simp only [hpushes, Mailbox.coe_of_getElem? hevent, ← Multiset.coe_add,
      Multiset.coe_singleton]
    abel
  | channel e =>
    cases e with
    | send event => cases h
    | _ =>
      obtain ⟨channel, hstep, rfl⟩ := Option.map_eq_some_iff.mp h
      refine ⟨⟨sent, ?_, hpushes⟩, Mailbox.flows_step hs.flows hstep⟩
      simpa [Mailbox.Event.sent] using Mailbox.accounted_step hchannel hstep

/-- A run of the registry with its webhooks is one of the registry, and sound. -/
theorem announcing_run {es : List AnnouncingEvent} {s : Announcing}
    (h : (announcing sha id webhooks).run (announcing sha id webhooks).init es = some s) :
    (registry sha).run (registry sha).init (es.filterMap AnnouncingEvent.inner) = some s.cluster ∧
      s.Sound id webhooks := by
  induction es using List.reverseRecOn generalizing s with
  | nil =>
    obtain rfl : (announcing sha id webhooks).init = s := by simpa using h
    exact ⟨rfl, ⟨0, rfl, rfl⟩, Mailbox.flows_new⟩
  | append_singleton es e ih =>
    obtain ⟨m, hm, hstep⟩ := (announcing sha id webhooks).run_snoc_some h
    obtain ⟨hrun, hsound⟩ := ih hm
    refine ⟨?_, sound_announcingStep hsound (run_accounted hrun) hstep⟩
    rw [List.filterMap_append, Machine.run_append, hrun]
    cases e with
    | registry e =>
      obtain ⟨cluster, hcluster, rfl⟩ := Option.map_eq_some_iff.mp hstep
      exact (Machine.run_single ..).trans hcluster
    | send j =>
      obtain ⟨event, hevent, hstep⟩ := Option.bind_eq_some_iff.mp hstep
      obtain ⟨channel, -, rfl⟩ := Option.map_eq_some_iff.mp hstep
      rfl
    | abandon j =>
      obtain ⟨event, -, rfl⟩ := Option.map_eq_some_iff.mp hstep
      rfl
    | channel e =>
      cases e with
      | send event => cases hstep
      | _ =>
        obtain ⟨channel, -, rfl⟩ := Option.map_eq_some_iff.mp hstep
        rfl

/-- PUSHES ANNOUNCED: over every run, each push at the node that is in the log is about to be
    announced, was given up, waits for its place, failed or has it, once; each has been let through
    by the handler. What has been posted are the POSTs of the pushes that have had their place, in
    their order, without a gap, and all of them when the worker has nothing to do; and no more than
    101 pushes are ahead of what has been posted. -/
theorem pushes_announced {es : List AnnouncingEvent} {s : Announcing}
    (h : (announcing sha id webhooks).run (announcing sha id webhooks).init es = some s) :
    (pushes id s.cluster.log : Multiset WebhookEvent) = (s.returning : Multiset WebhookEvent) +
      s.silent + ((s.channel.waiting : Multiset WebhookEvent) + s.channel.failed +
        s.channel.accepted) ∧
    (∀ event ∈ pushes id s.cluster.log, ∃ request, .registry (.http request) ∈ es ∧
      PushedBy sha id event request) ∧
    s.channel.ended.map Prod.fst <+: s.channel.accepted.flatMap (posts webhooks) ∧
    (s.channel.alive = true → s.channel.queue = [] → s.channel.todo = [] →
      s.channel.ended.map Prod.fst = s.channel.accepted.flatMap (posts webhooks)) ∧
    ∃ handled, handled <+: s.channel.accepted ∧
      handled.flatMap (posts webhooks) <+: s.channel.ended.map Prod.fst ∧
      s.channel.accepted.length ≤ handled.length + 101 := by
  obtain ⟨hrun, hsound⟩ := announcing_run h
  obtain ⟨sent, hchannel, hpushes⟩ := hsound.accounted
  obtain ⟨handled, hbounds⟩ := hsound.flows.bounds
  refine ⟨?_, ?_, hbounds.inOrder, hsound.flows.all_done, handled, hbounds.first, hbounds.through,
    hbounds.backpressure⟩
  · rw [hpushes, hchannel]
  · intro event hevent
    obtain ⟨request, hmem, hpushed⟩ := pushedBy_of_run hrun event hevent
    obtain ⟨f, hf, hinner⟩ := List.mem_filterMap.mp hmem
    cases f with
    | registry e =>
      cases hinner
      exact ⟨request, hf, hpushed⟩
    | _ => cases hinner

end

/-- A webhook for the tag `latest` of `library/a`. -/
def latestHook : WebhookConfig := ⟨"http://localhost:1234", fun text => text = "library/a:latest"⟩

/-- The list is pushed to node 1, which makes its POST. -/
def pushListAnnounced : List AnnouncingEvent :=
  [.registry (.http ⟨1, 0, ticking 10, .anonymous, .putManifest ⟨"library/a"⟩ "latest",
      { foundWith listText.toUTF8.toList with
        file := ⟨true, some listText.toUTF8.toList, some listText,
          some listText.toUTF8.toList.length, true⟩
        contentType := some "application/vnd.docker.distribution.manifest.list.v2+json"
        extractor := listEnv }⟩),
    .registry (.commit 0 ⟨1, 1⟩), .send 0, .channel .enter, .channel .receive,
    .channel (.finish (some 200))]

theorem pushes_announced_latest :
    ∃ s event, (announcing listSha 1 [latestHook]).run (announcing listSha 1 [latestHook]).init
        pushListAnnounced = some s ∧ event ∈ pushes 1 s.cluster.log ∧ event.tag = "latest" ∧
      s.channel.ended.map Prod.fst = s.channel.accepted.flatMap (posts [latestHook]) ∧
      ∃ request, .registry (.http request) ∈ pushListAnnounced ∧
        PushedBy listSha 1 event request := by
  have hfacts : ((announcing listSha 1 [latestHook]).run
      (announcing listSha 1 [latestHook]).init pushListAnnounced).map (fun s =>
        ((pushes 1 s.cluster.log)[0]?.map (·.tag), s.channel.alive, s.channel.queue,
          s.channel.todo.map (·.url), s.channel.ended.map (·.1.url))) =
      some (some "latest", true, [], [], ["http://localhost:1234"]) := by
    decide +kernel
  obtain ⟨s, hs, hfacts⟩ := Option.map_eq_some_iff.mp hfacts
  obtain ⟨hfirst, halive, hqueue, htodo, -⟩ : _ ∧ _ ∧ _ ∧ _ ∧ _ := by
    simpa only [Prod.mk.injEq] using hfacts
  obtain ⟨event, hevent, htag⟩ := Option.map_eq_some_iff.mp hfirst
  have hmem := List.mem_of_getElem? hevent
  obtain ⟨-, hpushed, -, hall, -⟩ := pushes_announced hs
  exact ⟨s, event, hs, hmem, htag, hall halive hqueue (List.map_eq_nil_iff.mp htodo),
    hpushed event hmem⟩

end Distribd.Registry
