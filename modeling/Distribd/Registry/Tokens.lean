import Distribd.Registry.Provenance

/-! Who a request comes from (`extractors/token.rs`). Before a handler runs, its token is made from
    the `Authorization` header: without a token server everybody is an admin, without a header nobody
    is known, and a bearer token has to verify against the key of the token server. A header that is
    no such thing is answered 403, or brings the handler down, and in both cases it does not run.

    The log names a user with every mount, every unmount and every tag. With a token server, that is
    the subject of a token which the server has issued for this registry and for a push to that
    repository, and which the request brought along while it was valid (`recorded_as_issued`). -/

namespace Distribd.Registry
open Schemes Store Cluster

/-! ### From the header to the token -/

/-- `extractors::token::TokenError`. -/
inductive TokenError where | missing | invalid
  deriving DecidableEq

/-- The status code of its response, which has no body. -/
def TokenError.statusCode : TokenError → ℕ
  | .missing | .invalid => 403

/-- `JWTClaims<AdditionalClaims>`, what is read of it. -/
structure JwtClaims where
  subject : Option String
  access : List Access

/-- `VerificationOptions`, where they are not the default; durations are in nanoseconds. -/
structure VerificationOptions where
  timeTolerance : ℤ
  maxValidity : ℤ
  allowedIssuers : Finset String
  allowedAudiences : Finset String

/-- `config::TokenConfig`. The public key is what it verifies, at a time and under options. -/
structure TokenConfig where
  issuer : String
  service : String
  realm : String
  verifyToken : DateTime → String → VerificationOptions → Option JwtClaims

/-- Minutes in nanoseconds. -/
def minutes (n : ℤ) : ℤ := n * 60 * 1000000000

/-- The options that tokens are verified under. -/
def TokenConfig.options (config : TokenConfig) : VerificationOptions where
  timeTolerance := minutes 15
  maxValidity := minutes 60
  allowedIssuers := {config.issuer}
  allowedAudiences := {config.service}

/-- `HeaderValue::to_str`: visible ASCII, spaces and tabs. -/
def toStr (bytes : List UInt8) : Option String :=
  if bytes.all fun b => (32 ≤ b && b < 127) || b == 9 then
    some (String.ofList (bytes.map fun b => Char.ofNat b.toNat))
  else none

/-- `split_once(' ')`. -/
def splitOnceSpace (text : String) : Option (String × String) :=
  match text.toList.span (· ≠ ' ') with
  | (type, _ :: rest) => some (String.ofList type, String.ofList rest)
  | (_, []) => none

/-- The token of a request without a header. -/
def TokenConfig.unvalidated (config : TokenConfig) : Token where
  access := []
  sub := "anonymous"
  validatedToken := false
  admin := false
  realm := some config.realm
  service := some config.service
  configured _ := ⟨rfl, rfl⟩

/-- The token of claims that have been verified. -/
def TokenConfig.validated (config : TokenConfig) (subject : String) (access : List Access) :
    Token where
  access
  sub := subject
  validatedToken := true
  admin := false
  realm := some config.realm
  service := some config.service
  configured _ := ⟨rfl, rfl⟩

/-- A header with a token server, read as text. -/
def TokenConfig.fromHeader (config : TokenConfig) (now : DateTime) (header : String) :
    Except TokenError Token :=
  match splitOnceSpace header with
  | none => .error .missing
  | some (tokenType, tokenBytes) =>
    if tokenType.toList.map Char.toLower ≠ "bearer".toList then .error .invalid
    else match config.verifyToken now tokenBytes config.options with
      | none => .error .invalid
      | some claims =>
        match claims.subject with
        | some subject => .ok (config.validated subject claims.access)
        | none => .error .invalid

/-- `Token::from_request`; `none`: it panics. -/
def fromRequest (config : Option TokenConfig) (now : DateTime)
    (authorization : Option (List UInt8)) : Option (Except TokenError Token) :=
  match config with
  | none => some (.ok .anonymous)
  | some config =>
    match authorization with
    | none => some (.ok config.unvalidated)
    | some header => (toStr header).map (config.fromHeader now)

/-! ### The registry behind it -/

/-- A request on the registry port as it arrives. -/
structure Arrival where
  node : RegistryNodeId
  readAt : ℕ
  now : Clock
  /-- When the token is looked at. -/
  receivedAt : DateTime
  authorization : Option (List UInt8)
  call : Call
  found : Found

/-- The request as its handler gets it; `none`: no handler runs. -/
def Arrival.request (config : Option TokenConfig) (arrival : Arrival) : Option HttpRequest :=
  match fromRequest config arrival.receivedAt arrival.authorization with
  | some (.ok token) =>
    some ⟨arrival.node, arrival.readAt, arrival.now, token, arrival.call, arrival.found⟩
  | _ => none

/-- The event is a request. -/
def Event.IsHttp (e : Event) : Prop := ∃ request, e = .http request

/-- What can happen to the cluster: a request arrives, or something that is no request happens. -/
inductive Incoming where
  | http (arrival : Arrival)
  | internal (e : { e : Event // ¬ e.IsHttp })

/-- What the registry makes of it. -/
def Incoming.event (config : Option TokenConfig) : Incoming → Option Event
  | .http arrival => (arrival.request config).map .http
  | .internal e => some e.1

/-- The registry, with the headers of its requests. -/
def gateway (config : Option TokenConfig) (sha : Sha256) : Machine State Incoming where
  init := cluster.init
  step s i :=
    match i.event config with
    | some e => registryStep sha s e
    | none => some s

/-- It runs as the registry does on what the headers let through. -/
theorem gateway_run (config : Option TokenConfig) (sha : Sha256) (s : State) (es : List Incoming) :
    (gateway config sha).run s es = (registry sha).run s (es.filterMap (·.event config)) := by
  induction es generalizing s with
  | nil => rfl
  | cons i es ih =>
    rw [Machine.run_cons]
    cases he : i.event config with
    | none =>
      rw [List.filterMap_cons_none he]
      simpa [gateway, he] using ih s
    | some e =>
      rw [List.filterMap_cons_some he, Machine.run_cons]
      simp only [gateway, he, registry]
      exact congrArg _ (funext ih)

/-! ### What the token server vouches for -/

/-- A token that has been issued. -/
structure Issued where
  text : String
  claims : JwtClaims
  issuer : String
  audiences : Finset String
  issuedAt : Option DateTime
  expiresAt : Option DateTime

/-- The options admit the token at this time. -/
structure VerificationOptions.Admits (options : VerificationOptions) (now : DateTime)
    (t : Issued) : Prop where
  issuer : t.issuer ∈ options.allowedIssuers
  audience : ∃ a ∈ t.audiences, a ∈ options.allowedAudiences
  fresh : ∀ i ∈ t.issuedAt, now ≤ i + options.maxValidity
  unexpired : ∀ e ∈ t.expiresAt, now ≤ e + options.timeTolerance

/-- The key verifies nothing but issued tokens, and those only as the options admit. -/
def TokenConfig.Trusts (config : TokenConfig) (issued : Set Issued) : Prop :=
  ∀ now text options claims, config.verifyToken now text options = some claims →
    ∃ t ∈ issued, t.text = text ∧ t.claims = claims ∧ options.Admits now t

/-- The token stands in the header, as a bearer token. -/
def Arrival.Bears (arrival : Arrival) (t : Issued) : Prop :=
  ∃ header ∈ arrival.authorization, ∃ tokenType,
    toStr header = some (tokenType ++ " " ++ t.text) ∧
      tokenType.toList.map Char.toLower = "bearer".toList

/-- The request may push to the repository in the name of the user. -/
def Arrival.Entitled (config : Option TokenConfig) (issued : Set Issued) (arrival : Arrival)
    (repository : RepositoryName) (user : String) : Prop :=
  match config with
  | none => user = "anonymous"
  | some config => ∃ t ∈ issued, arrival.Bears t ∧ config.options.Admits arrival.receivedAt t ∧
      t.claims.subject = some user ∧
      ∃ access ∈ t.claims.access, access.repository = repository ∧ "push" ∈ access.permissions

theorem splitOnceSpace_eq {text type rest : String}
    (h : splitOnceSpace text = some (type, rest)) : text = type ++ " " ++ rest := by
  unfold splitOnceSpace at h
  split at h
  · rename_i front c back hspan
    cases h
    rw [List.span_eq_takeWhile_dropWhile, Prod.mk.injEq] at hspan
    obtain ⟨hfront, hback⟩ := hspan
    have hspace : c = ' ' := by
      have hhead := List.head?_dropWhile_not (· ≠ ' ') text.toList
      rw [hback] at hhead
      simpa using hhead
    refine String.toList_injective ?_
    rw [← List.takeWhile_append_dropWhile (p := (· ≠ ' ')) (l := text.toList), hfront, hback, hspace]
    simp
  · cases h

/-- A token with a permission was issued, unless everybody is an admin. -/
theorem entitled_of_request {config : Option TokenConfig} {issued : Set Issued}
    (htrust : ∀ c ∈ config, c.Trusts issued) {arrival : Arrival} {request : HttpRequest}
    (h : arrival.request config = some request) {r : RepositoryName}
    (hpush : request.token.hasPermission r "push" = true) :
    arrival.Entitled config issued r request.token.sub := by
  unfold Arrival.request at h
  split at h
  · rename_i token hfrom
    cases h
    cases config with
    | none =>
      cases hfrom
      rfl
    | some config =>
      unfold fromRequest at hfrom
      cases hheader : arrival.authorization with
      | none =>
        rw [hheader] at hfrom
        cases hfrom
        exact absurd (validated_of_hasPermission hpush) Bool.false_ne_true
      | some header =>
        rw [hheader] at hfrom
        obtain ⟨text, htext, hok⟩ := Option.map_eq_some_iff.mp hfrom
        unfold TokenConfig.fromHeader at hok
        split at hok
        · cases hok
        · rename_i tokenType tokenBytes hsplit
          split at hok
          · cases hok
          · rename_i htype
            split at hok
            · cases hok
            · rename_i claims hverify
              split at hok
              · rename_i subject hsubject
                cases hok
                obtain ⟨t, ht, rfl, rfl, hadmits⟩ := htrust config rfl _ _ _ _ hverify
                refine ⟨t, ht, ⟨header, hheader, tokenType, ?_, not_not.mp htype⟩, hadmits, hsubject,
                  ?_⟩
                · rw [htext, splitOnceSpace_eq hsplit]
                · simpa [Token.hasPermission, TokenConfig.validated] using hpush
              · cases hok
  · cases h

/-! ### Whom a transaction is recorded for -/

/-- The repository that an action names, and the user that it is recorded for. -/
def recordedFor : RegistryAction → Option (RepositoryName × String)
  | .blobMounted _ _ r u | .blobUnmounted _ _ r u | .manifestMounted _ _ r u
  | .manifestUnmounted _ _ r u | .hashTagged _ _ r _ u => some (r, u)
  | _ => none

/-- The repository of a request, and its user. -/
def onBehalfOf : Request → Option (RepositoryName × String)
  | .upload _ r _ _ u | .mount r _ _ u | .put _ r _ _ _ _ u | .delete _ r _ u
  | .deleteTag r _ u => some (r, u)
  | .mirror .. | .phase1 .. | .phase2 .. => none

theorem onBehalfOf_of_transaction {now : Clock} {db : Db} {req : Request}
    {actions : List RegistryAction} (h : req.transaction now db = some actions)
    {a : RegistryAction} (ha : a ∈ actions) {r : RepositoryName} {u : String}
    (hrecorded : recordedFor a = some (r, u)) :
    onBehalfOf req = some (r, u) ∨ (∃ w, req = .phase1 w) ∧ u = "$system" := by
  rcases transaction_cases h with ⟨id, r', d, n, u', rfl, rfl⟩ | ⟨r', src, d, u', rfl, rfl⟩ |
    ⟨id, r', t, d, n, x, u', rfl, rfl⟩ | ⟨k, d, r', u', hreq, rfl⟩ | ⟨k, id, d, rfl, -, rfl⟩ |
    ⟨w, rfl, rfl⟩ | ⟨w, id, rfl, rfl⟩
  · simp only [uploadActions, List.mem_cons, List.not_mem_nil, or_false] at ha
    rcases ha with rfl | rfl | rfl <;> cases hrecorded
    exact .inl rfl
  · cases List.mem_singleton.mp ha
    exact .inl hrecorded
  · simp only [putActions, Extracted.actions, List.mem_append, List.mem_cons, List.not_mem_nil,
      or_false, List.mem_mapIdx] at ha
    rcases ha with ((rfl | rfl | rfl) | (rfl | ⟨i, hi, rfl⟩)) | rfl <;> cases hrecorded
    · exact .inl rfl
    · exact .inl rfl
  · cases List.mem_singleton.mp ha
    rcases hreq with rfl | ⟨t, rfl⟩ <;> cases k <;> exact .inl hrecorded
  · cases List.mem_singleton.mp ha
    cases k <;> cases hrecorded
  · obtain ⟨k, d, o, r', -, -, -, -, rfl⟩ := mem_phase1 ha
    cases k <;> cases hrecorded <;> exact .inr ⟨⟨w, rfl⟩, rfl⟩
  · obtain ⟨k, d, -, rfl⟩ := mem_phase2 ha
    cases k <;> cases hrecorded

section

variable {app : App} {sha : Sha256} {token : Token} {repository : RepositoryName}
  {file : UploadFile} {req : Request}

theorem onBehalfOf_post {query : BlobUploadPostQuery} {opened : Bool}
    (h : (Uploads.post app sha token repository query file opened).result = .ok (.submits req)) :
    onBehalfOf req = some (repository, token.sub) := by
  have hstart : ∀ {d : Option Digest},
      (startUpload app sha repository d token.sub file opened).result = .ok (.submits req) →
        onBehalfOf req = some (repository, token.sub) := by
    intro d hd
    obtain ⟨d, n, rfl, -⟩ := startUpload_submits hd
    rfl
  unfold Uploads.post at h
  split at h
  · cases h
  · split at h
    · cases h
    · split at h
      · split at h
        · cases h
        · split at h
          · cases h
          · split at h
            · split at h
              · cases h
                rfl
              · exact hstart h
            · exact hstart h
      · exact hstart h

theorem onBehalfOf_put {d : Digest} {isFile : Bool}
    (h : (Uploads.put app sha token repository d file isFile).result = .ok (.submits req)) :
    onBehalfOf req = some (repository, token.sub) := by
  obtain ⟨-, h⟩ := pushAuthorized_submits h
  split at h
  · cases h
  · split at h
    · cases h
    · obtain ⟨⟨n, rfl⟩, -⟩ := finishUpload_submits h
      rfl

theorem onBehalfOf_putManifest {env : ExtractEnv} {tag : String} {contentType : Option String}
    {reply : Reply Accepted}
    (h : Manifests.put app sha env token repository tag contentType file = some reply)
    (hreq : reply.result = .ok (.submits req)) :
    onBehalfOf req = some (repository, token.sub) := by
  unfold Manifests.put at h
  split at h
  · cases h
    cases hreq
  · split at h
    · unfold putManifest at h
      split at h
      · obtain ⟨ct, -, h⟩ := Option.bind_eq_some_iff.mp h
        obtain ⟨res, -, rfl⟩ := Option.map_eq_some_iff.mp h
        cases res with
        | ok found =>
          simp only at hreq
          split at hreq
          · cases hreq
            rfl
          · cases hreq
        | error e => cases hreq
      · cases h
        cases hreq
    · cases h
      cases hreq

theorem onBehalfOf_deleteObject {k : Kind} {d : Digest}
    (h : (deleteObject app token k repository d).result = .ok (.submits req)) :
    onBehalfOf req = some (repository, token.sub) := by
  obtain ⟨-, h⟩ := pushAuthorized_submits h
  split at h
  · cases h
    rfl
  · cases h

theorem onBehalfOf_deleteByTag {tag : String}
    (h : (Manifests.deleteByTag app token repository tag).result = .ok (.submits req)) :
    onBehalfOf req = some (repository, token.sub) := by
  obtain ⟨-, h⟩ := pushAuthorized_submits h
  split at h
  · cases h
  · split at h
    · cases h
      rfl
    · cases h

end

/-- Every handler acts for the repository of the call, in the name of its token. -/
theorem user_of_handle {app : App} {sha : Sha256} {token : Token} {found : Found} {call : Call}
    {reply : Reply Response} {req : Request} (h : handle app sha token found call = some reply)
    (hreq : reply.submitted = some req) :
    ∃ r, call.repository = some r ∧ onBehalfOf req = some (r, token.sub) := by
  have hserved : ∀ {answer : Reply Served}, answer.as .served = reply →
      ∃ r, call.repository = some r ∧ onBehalfOf req = some (r, token.sub) := by
    rintro answer rfl
    rw [submitted_as_served] at hreq
    cases hreq
  have hread : ∀ {text : String} {answer : Digest → Reply Served},
      (Digest.tryFrom text).map (fun d => (answer d).as .served) = some reply →
        ∃ r, call.repository = some r ∧ onBehalfOf req = some (r, token.sub) := by
    intro text answer hanswer
    obtain ⟨d, -, hd⟩ := Option.map_eq_some_iff.mp hanswer
    exact hserved hd
  cases call with
  | getBlob r d => exact hread h
  | headBlob r d => exact hread h
  | getManifest r d => exact hread h
  | headManifest r d => exact hread h
  | getManifestByTag r t => exact hserved (Option.some.inj h)
  | headManifestByTag r t => exact hserved (Option.some.inj h)
  | peer k d =>
    cases k
    · exact hread h
    · exact hread h
  | postUpload r mount source digest =>
    obtain ⟨mount, -, h⟩ := Option.bind_eq_some_iff.mp h
    obtain ⟨digest, -, rfl⟩ := Option.map_eq_some_iff.mp h
    exact ⟨r, rfl, onBehalfOf_post (submitted_as_accepted hreq)⟩
  | putUpload r d =>
    obtain ⟨digest, -, rfl⟩ := Option.map_eq_some_iff.mp h
    exact ⟨r, rfl, onBehalfOf_put (submitted_as_accepted hreq)⟩
  | putManifest r t =>
    obtain ⟨answer, hanswer, rfl⟩ := Option.map_eq_some_iff.mp h
    exact ⟨r, rfl, onBehalfOf_putManifest hanswer (submitted_as_accepted hreq)⟩
  | deleteBlob r d =>
    obtain ⟨digest, -, rfl⟩ := Option.map_eq_some_iff.mp h
    exact ⟨r, rfl, onBehalfOf_deleteObject (submitted_as_accepted hreq)⟩
  | deleteManifest r d =>
    obtain ⟨digest, -, rfl⟩ := Option.map_eq_some_iff.mp h
    exact ⟨r, rfl, onBehalfOf_deleteObject (submitted_as_accepted hreq)⟩
  | deleteManifestByTag r t =>
    cases h
    exact ⟨r, rfl, onBehalfOf_deleteByTag (submitted_as_accepted hreq)⟩

/-- What is handed in for a user may be: the handler has checked it. -/
theorem push_of_permitted {app : App} {sha : Sha256} {token : Token} {file : UploadFile}
    {req : Request} (h : Permitted app sha token file req) {r : RepositoryName} {u : String}
    (hreq : onBehalfOf req = some (r, u)) : token.hasPermission r "push" = true := by
  cases req with
  | upload id r' d n u' =>
    cases hreq
    exact h.1
  | mount r' source d u' =>
    cases hreq
    exact h.1
  | put id r' t d n x u' =>
    cases hreq
    exact h.1
  | delete k r' d u' =>
    cases hreq
    exact h
  | deleteTag r' t u' =>
    cases hreq
    exact h
  | mirror k id d => exact h.elim
  | phase1 w => exact h.elim
  | phase2 w id => exact h.elim

/-! ### The log and the token server -/

/-- A repository's change that is handed in comes from the collector or from a request with the
    right to push. -/
theorem sender_of_recorded {sha : Sha256} {xs : List Event} {m : State} {e : Event}
    {sub : Submission} (h : SentBy sha xs m e sub) {a : RegistryAction} (ha : a ∈ sub.actions)
    {r : RepositoryName} {u : String} (hrecorded : recordedFor a = some (r, u)) :
    (u = "$system" ∧ ∃ w now readAt db, e = .phase1 w now readAt ∧ dbAt m readAt = some db ∧
      a ∈ w.phase1 db.toTrees) ∨
      ∃ request, e = .http request ∧ request.token.sub = u ∧
        request.token.hasPermission r "push" = true := by
  obtain ⟨-, now, db, hsub, hdb, hactions⟩ := h
  have hfor := onBehalfOf_of_transaction hactions ha hrecorded
  cases e with
  | http request =>
    obtain ⟨req, hreq, heq⟩ := Option.map_eq_some_iff.mp hsub
    obtain ⟨rfl, -, -⟩ : req = sub.request ∧ request.now = now ∧ request.readAt = sub.readAt := by
      simpa using heq
    obtain ⟨reply, hreply, hsubmitted⟩ := Option.bind_eq_some_iff.mp hreq
    obtain ⟨db', -, hhandle⟩ := Option.bind_eq_some_iff.mp hreply
    obtain ⟨r', -, hr'⟩ := user_of_handle hhandle hsubmitted
    rcases hfor with hfor | ⟨⟨w, hw⟩, -⟩
    · obtain ⟨rfl, husub⟩ : r' = r ∧ request.token.sub = u := by simpa [hr'] using hfor
      exact .inr ⟨request, rfl, husub,
        push_of_permitted (handle_permitted hhandle hsubmitted) hfor⟩
    · rw [hw] at hr'
      cases hr'
  | mirror k id d content now readAt =>
    simp only [submission] at hsub
    split at hsub
    · obtain ⟨hreq, -, -⟩ : .mirror k id d = sub.request ∧ _ ∧ _ := by simpa using hsub
      rw [← hreq] at hfor
      rcases hfor with hfor | ⟨⟨w, hw⟩, -⟩
      · cases hfor
      · cases hw
    · cases hsub
  | phase1 w now' readAt =>
    obtain ⟨hreq, rfl, rfl⟩ : .phase1 w = sub.request ∧ now' = now ∧ readAt = sub.readAt := by
      simpa [submission] using hsub
    rw [← hreq] at hfor hactions
    rcases hfor with hfor | ⟨-, hu⟩
    · cases hfor
    · refine .inl ⟨hu, w, now', sub.readAt, db, rfl, hdb, ?_⟩
      rwa [nonempty_eq_some hactions] at ha
  | phase2 w id now readAt =>
    obtain ⟨hreq, -, -⟩ : .phase2 w id = sub.request ∧ _ ∧ _ := by simpa [submission] using hsub
    rw [← hreq] at hfor
    rcases hfor with hfor | ⟨⟨w, hw⟩, -⟩
    · cases hfor
    · cases hw
  | commit i leader => cases hsub
  | lose i => cases hsub
  | blank leader => cases hsub
  | membership leader mem => cases hsub
  | visit env r w e readAt => cases hsub

/-- The log of the registry only grows. -/
theorem registry_log_grows {sha : Sha256} {es : List Event} {s s' : State}
    (h : (registry sha).run s es = some s') : s.log <+: s'.log := by
  refine (registry sha).run_inv (I := fun t => s.log <+: t.log) ?_ (List.prefix_refl _) h
  intro t e t' ht hstep
  rcases registryStep_cases hstep with ⟨sub, now, db, -, -, -, rfl⟩ | ⟨i, leader, sub, -, -, rfl⟩ |
    ⟨i, rfl⟩ | ⟨entry, -, rfl⟩ | rfl
  · exact ht
  · exact ht.trans (List.prefix_append _ _)
  · exact ht
  · exact ht.trans (List.prefix_append _ _)
  · exact ht

/-- What a node sees stays what the log begins with. -/
theorem replay_of_dbAt {s s' : State} {readAt : ℕ} {db : Db} (h : dbAt s readAt = some db)
    (hlog : s.log <+: s'.log) : replay (s'.log.take readAt) = some db := by
  unfold dbAt at h
  split at h
  · rename_i hle
    obtain ⟨rest, hrest⟩ := hlog
    rwa [← hrest, List.take_append_of_le_length hle]
  · cases h

/-- A pass of phase 1 among these events has sent the action, on what its node saw of the log. -/
def Collected (es : List Incoming) (log : List Entry) (a : RegistryAction) : Prop :=
  ∃ e, .internal e ∈ es ∧ ∃ w now readAt db, e.1 = .phase1 w now readAt ∧
    replay (log.take readAt) = some db ∧ a ∈ w.phase1 db.toTrees

/-- RECORDED AS ISSUED: over every run of the cluster, whoever is named with a mount, an unmount or a
    tag of a repository has sent a request with a token that the token server issued to him for this
    registry, that lets him push to the repository and that was valid then; or it is a pass of the
    collector that has unmounted it, under the name of the system. As long as no token is issued to
    somebody of that name, it only ever stands for the collector; and without a token server
    everybody is anonymous. -/
theorem recorded_as_issued {config : Option TokenConfig} {issued : Set Issued}
    (htrust : ∀ c ∈ config, c.Trusts issued) {sha : Sha256} {es : List Incoming} {s : State}
    (h : (gateway config sha).run (gateway config sha).init es = some s) {a : RegistryAction}
    (ha : a ∈ actionsOf s.log) {r : RepositoryName} {user : String}
    (hrecorded : recordedFor a = some (r, user)) :
    ((user = "$system" ∧ Collected es s.log a) ∨
      ∃ arrival, .http arrival ∈ es ∧ arrival.Entitled config issued r user) ∧
    ((∀ t ∈ issued, t.claims.subject ≠ some "$system") → user = "$system" →
      Collected es s.log a) := by
  have hsent : (user = "$system" ∧ Collected es s.log a) ∨
      ∃ arrival, .http arrival ∈ es ∧ arrival.Entitled config issued r user := by
    rw [gateway_run] at h
    obtain ⟨xs, m, e, sub, hsent, hmem, hcommit⟩ := (run_accounted h).log a ha
    obtain ⟨ys, i, leader, zs, t, heq, -⟩ := hcommit
    have hin : e ∈ es.filterMap (·.event config) := by
      rw [heq]
      simp
    have hgrown : m.log <+: s.log := by
      rw [heq, List.append_assoc, List.append_assoc] at h
      obtain ⟨m', hm', hrest⟩ := (registry sha).run_append_some h
      obtain rfl := Option.some.inj (hsent.1.symm.trans hm')
      exact registry_log_grows hrest
    obtain ⟨i, hi, hevent⟩ := List.mem_filterMap.mp hin
    rcases sender_of_recorded hsent hmem hrecorded with
      ⟨hu, w, now, readAt, db, rfl, hdb, hphase⟩ | ⟨request, rfl, rfl, hpush⟩
    · cases i with
      | http arrival =>
        obtain ⟨request, -, heq⟩ := Option.map_eq_some_iff.mp hevent
        cases heq
      | internal e =>
        exact .inl ⟨hu, e, hi, w, now, readAt, db, Option.some.inj hevent,
          replay_of_dbAt hdb hgrown, hphase⟩
    · cases i with
      | http arrival =>
        obtain ⟨request', hrequest, heq⟩ := Option.map_eq_some_iff.mp hevent
        cases heq
        exact .inr ⟨arrival, hi, entitled_of_request htrust hrequest hpush⟩
      | internal e => exact absurd ⟨request, Option.some.inj hevent⟩ e.2
  refine ⟨hsent, ?_⟩
  rintro hnobody rfl
  rcases hsent with ⟨-, hcollected⟩ | ⟨arrival, -, hentitled⟩
  · exact hcollected
  · exfalso
    cases config with
    | none => exact absurd hentitled (by simp [Arrival.Entitled])
    | some config =>
      obtain ⟨t, ht, -, -, hsubject, -⟩ := hentitled
      exact hnobody t ht hsubject

/-- A token for `library/a`, which is good for five minutes. -/
def aliceToken : Issued where
  text := "eyJhbGciOiJFUzI1NiJ9.alice"
  claims := ⟨some "alice", [⟨⟨"library/a"⟩, {"pull", "push"}⟩]⟩
  issuer := "auth.local"
  audiences := {"registry.local"}
  issuedAt := some 0
  expiresAt := some (minutes 5)

/-- A token server that has issued this token only. -/
def aliceConfig : TokenConfig where
  issuer := "auth.local"
  service := "registry.local"
  realm := "https://auth.local/token"
  verifyToken now text options :=
    if text = aliceToken.text ∧ "auth.local" ∈ options.allowedIssuers ∧
        "registry.local" ∈ options.allowedAudiences ∧ now ≤ 0 + options.maxValidity ∧
        now ≤ minutes 5 + options.timeTolerance then some aliceToken.claims
    else none

theorem aliceConfig_trusts : aliceConfig.Trusts {aliceToken} := by
  intro now text options claims h
  simp only [aliceConfig] at h
  split at h
  · rename_i hok
    obtain ⟨rfl, hissuer, haudience, hfresh, hunexpired⟩ := hok
    cases h
    exact ⟨aliceToken, rfl, rfl, rfl, hissuer, ⟨_, by simp [aliceToken], haudience⟩,
      by simpa [aliceToken] using hfresh, by simpa [aliceToken] using hunexpired⟩
  · cases h

/-- A commit is no request. -/
def committing (i : ℕ) (leader : LeaderId) : Incoming :=
  .internal ⟨.commit i leader, by rintro ⟨request, h⟩; cases h⟩

/-- An upload into `library/a`, seventeen minutes after the token was issued. -/
def uploadWithToken : List Incoming :=
  [.http ⟨1, 0, ticking 10, minutes 17,
      some ("bEARER eyJhbGciOiJFUzI1NiJ9.alice".toUTF8.toList),
      .postUpload ⟨"library/a"⟩ none none (some ("sha256:" ++ helloDigest.hash)),
      foundWith "hello, world".toUTF8.toList⟩,
    committing 0 ⟨1, 1⟩]

theorem recorded_as_issued_uploadWithToken :
    ∃ s a, (gateway (some aliceConfig) helloSha).run (gateway (some aliceConfig) helloSha).init
        uploadWithToken = some s ∧
      a ∈ actionsOf s.log ∧ recordedFor a = some (⟨"library/a"⟩, "alice") ∧
      ∃ arrival, .http arrival ∈ uploadWithToken ∧
        arrival.Entitled (some aliceConfig) {aliceToken} ⟨"library/a"⟩ "alice" := by
  have hfacts : ((gateway (some aliceConfig) helloSha).run
      (gateway (some aliceConfig) helloSha).init uploadWithToken).bind (fun s =>
        (actionsOf s.log)[0]?.map recordedFor) = some (some (⟨"library/a"⟩, "alice")) := by
    decide +kernel
  obtain ⟨s, hs, hfirst⟩ := Option.bind_eq_some_iff.mp hfacts
  obtain ⟨a, ha, hrecorded⟩ := Option.map_eq_some_iff.mp hfirst
  have hmem := List.mem_of_getElem? ha
  have htrust : ∀ c ∈ some aliceConfig, c.Trusts {aliceToken} := by
    rintro c ⟨⟩
    exact aliceConfig_trusts
  rcases (recorded_as_issued htrust hs hmem hrecorded).1 with ⟨hsystem, -⟩ | hentitled
  · exact absurd hsystem (by decide)
  · exact ⟨s, a, hs, hmem, hrecorded, hentitled⟩

end Distribd.Registry
