import Distribd.Node.Content

/-! Content addressing. Every file in the store has the content of its digest, and every committed
    size is the length of that content, as long as no request writes to a session file that a PUT
    has hashed and not yet moved, makes such a file anew under its name, or still writes to a file
    that is already in the store (`content_addressed`). The code takes no lock on a session, so a
    PATCH that is open at the wrong moment breaks it. -/

namespace Distribd.Node
open Schemes

/-! ### The invariant -/

/-- The file of the request is open or waits for its rename. -/
def Stage.opened : Stage → Bool
  | .writing _ _ | .written _ | .sized _ | .hashed _ _ | .ready _ _ _ => true
  | _ => false

/-- The name is not in the store. -/
def Path.outside : Path → Bool
  | .object _ _ => false
  | _ => true

theorem Job.path_outside (n : ℕ) (job : Job) : (job.path n).outside = true := by
  cases job <;> rfl

theorem Job.path_cases (n : ℕ) (job : Job) :
    (∃ id, job.path n = .session id) ∨ job.path n = .temp n := by
  cases job <;> simp [Job.path]

/-- What is known of one request. -/
structure Req.Ok (hex : Bytes → String) (fs : FileSystem Path UInt8) (moved : List Bytes) (n : ℕ)
    (r : Req) : Prop where
  temp : r.stage.opened → r.job.path n = .temp n → fs.link (.temp n) ≠ none
  handle : ∀ i received, r.stage = .writing i received → i < fs.next ∧
    ∀ q, q.outside → fs.link q = some i → q = r.job.path n
  sized : ∀ size, r.stage = .sized size → r.job = .manifest ∧
    ∀ j, fs.link (.temp n) = some j → (fs.data j).length = size
  taken : ∀ d i, r.stage.taken = some (d, i) → i < fs.next ∧ d = fromSha256 (hex (fs.data i)) ∧
    ∀ j, fs.link (r.job.path n) = some j → j = i
  size : ∀ d i size, r.stage = .ready d i (some size) → size = (fs.data i).length
  placed : ∀ d size, r.stage = .placed d (some size) →
    ∃ c ∈ moved, fromSha256 (hex c) = d ∧ c.length = size

/-- What holds along every run that meets the condition. -/
structure Sound (hex : Bytes → String) (s : State) : Prop where
  requests : ∀ (n : ℕ) (r : Req), s.requests[n]? = some r → r.Ok hex s.fs s.moved n
  known : ∀ id, s.fs.link (.session id) ≠ none → id ∈ s.sessions
  named : ∀ (n : ℕ) (r : Req) (id : String), s.requests[n]? = some r →
    r.job.path n = .session id → id ∈ s.sessions
  store : ∀ k h i, s.fs.link (.object k h) = some i →
    hex (s.fs.data i) = h ∧ s.fs.data i ∈ s.moved
  stats : ∀ x ∈ s.stats, ∃ c ∈ s.moved, fromSha256 (hex c) = x.2.1 ∧ c.length = x.2.2

variable {hex : Bytes → String}

theorem goTo_get {s : State} {n m : ℕ} {r r' : Req} {stage : Stage}
    (h : (s.goTo n r stage).requests[m]? = some r') :
    (m = n ∧ r' = { r with stage }) ∨ (m ≠ n ∧ s.requests[m]? = some r') := by
  by_cases hmn : m = n
  · subst hmn
    rw [State.goTo, List.getElem?_set] at h
    simp only [if_true] at h
    split at h
    · exact .inl ⟨rfl, (Option.some.inj h).symm⟩
    · cases h
  · rw [State.goTo, List.getElem?_set_ne (Ne.symm hmn)] at h
    exact .inr ⟨hmn, h⟩

/-- A request that goes on keeps its name. -/
theorem named_goTo {s : State} (h : Sound hex s) {n m : ℕ} {r r' : Req} {stage : Stage}
    {id : String} (hr : s.requests[n]? = some r)
    (hr' : (s.goTo n r stage).requests[m]? = some r') (hp : r'.job.path m = .session id) :
    id ∈ s.sessions := by
  rcases goTo_get hr' with ⟨rfl, rfl⟩ | ⟨-, hold⟩
  · exact h.named m r id hr hp
  · exact h.named m r' id hold hp

theorem opened_of_taken {stage : Stage} {d : Digest} {i : ℕ} (h : stage.taken = some (d, i)) :
    stage.opened = true := by
  cases stage <;> first | rfl | cases h

/-- FRAME RULE: what is known of a request survives a change of the files that gives old inodes no
    new names outside the store, keeps a private file, and leaves what the request has hashed or
    measured as it is. -/
theorem Req.Ok.frame {fs fs' : FileSystem Path UInt8} {moved moved' : List Bytes} {n : ℕ} {r : Req}
    (h : r.Ok hex fs moved n) (hnext : fs.next ≤ fs'.next)
    (hlink : ∀ q i, q.outside → i < fs.next → fs'.link q = some i → fs.link q = some i)
    (htemp : r.stage.opened → r.job.path n = .temp n → fs.link (.temp n) ≠ none →
      fs'.link (.temp n) ≠ none)
    (htaken : ∀ d i, r.stage.taken = some (d, i) → fs'.data i = fs.data i ∧
      ∀ j, fs'.link (r.job.path n) = some j → fs.link (r.job.path n) = some j)
    (hsized : ∀ size, r.stage = .sized size → r.job = .manifest → ∀ j,
      fs'.link (.temp n) = some j → fs.link (.temp n) = some j ∧ fs'.data j = fs.data j)
    (hmoved : moved ⊆ moved') : r.Ok hex fs' moved' n where
  temp ho hp := htemp ho hp (h.temp ho hp)
  handle i received hs := by
    obtain ⟨hlt, hown⟩ := h.handle i received hs
    exact ⟨hlt.trans_le hnext, fun q hq hl => hown q hq (hlink q i hq hlt hl)⟩
  sized size hs := by
    obtain ⟨hj, hlen⟩ := h.sized size hs
    refine ⟨hj, ?_⟩
    intro j hl
    obtain ⟨hl', hd⟩ := hsized size hs hj j hl
    rw [hd, hlen j hl']
  taken d i hs := by
    obtain ⟨hlt, hd, hown⟩ := h.taken d i hs
    obtain ⟨hdata, hl⟩ := htaken d i hs
    exact ⟨hlt.trans_le hnext, by rw [hdata, ← hd], fun j hj => hown j (hl j hj)⟩
  size d i size hs := by
    rw [(htaken d i (by rw [hs]; rfl)).1]
    exact h.size d i size hs
  placed d size hs := by
    obtain ⟨c, hc, hd⟩ := h.placed d size hs
    exact ⟨c, hmoved hc, hd⟩

/-- A new file leaves a request alone that has not hashed or measured a file of this name. -/
theorem Req.Ok.create {fs fs' : FileSystem Path UInt8} {moved : List Bytes} {n : ℕ} {r : Req}
    {p : Path} (h : r.Ok hex fs moved n)
    (hlink : fs'.link = Function.update fs.link p (some fs.next))
    (hdata : fs'.data = Function.update fs.data fs.next []) (hnext : fs'.next = fs.next + 1)
    (hne : r.stage.taken ≠ none → r.job.path n ≠ p)
    (hsz : ∀ size, r.stage = .sized size → r.job = .manifest → Path.temp n ≠ p) :
    r.Ok hex fs' moved n := by
  refine h.frame (by omega) ?_ ?_ ?_ ?_ (List.Subset.refl _)
  · intro q i _ hlt hq
    rw [hlink] at hq
    by_cases hqp : q = p
    · rw [hqp, Function.update_self] at hq
      exact absurd (Option.some.inj hq) (by omega)
    · rwa [Function.update_of_ne hqp] at hq
  · intro _ _ hn
    rw [hlink]
    by_cases hqp : Path.temp n = p
    · rw [hqp, Function.update_self]
      simp
    · rwa [Function.update_of_ne hqp]
  · intro d i ht
    have hlt := (h.taken d i ht).1
    have hpath := hne (by rw [ht]; simp)
    refine ⟨by rw [hdata, Function.update_of_ne (by omega)], ?_⟩
    intro j hj
    rwa [hlink, Function.update_of_ne hpath] at hj
  · intro size hs hj j hl
    have hpath := hsz size hs hj
    rw [hlink, Function.update_of_ne hpath] at hl
    have hlt := fs.link_lt _ _ hl
    exact ⟨hl, by rw [hdata, Function.update_of_ne (by omega)]⟩

/-- Fewer names outside the store, the same bytes, and the private file still there. -/
theorem Req.Ok.shrink {fs fs' : FileSystem Path UInt8} {moved moved' : List Bytes} {n : ℕ} {r : Req}
    (h : r.Ok hex fs moved n) (hdata : fs'.data = fs.data) (hnext : fs'.next = fs.next)
    (hlink : ∀ q i, q.outside → fs'.link q = some i → fs.link q = some i)
    (htemp : r.job.path n = .temp n → fs'.link (.temp n) = fs.link (.temp n))
    (hmoved : moved ⊆ moved') : r.Ok hex fs' moved' n := by
  refine h.frame hnext.ge (fun q i hq _ => hlink q i hq) ?_ ?_ ?_ hmoved
  · intro _ hp hn
    rwa [htemp hp]
  · intro d i _
    exact ⟨by rw [hdata], fun j => hlink _ j (r.job.path_outside n)⟩
  · intro size _ _ j hl
    exact ⟨hlink _ j rfl hl, by rw [hdata]⟩

/-- The files stay as they are and one request goes on. -/
theorem sound_goTo {s : State} (h : Sound hex s) {n : ℕ} {r : Req} {stage : Stage}
    (hr : s.requests[n]? = some r) (hnew : ({ r with stage } : Req).Ok hex s.fs s.moved n) :
    Sound hex (s.goTo n r stage) where
  requests m r' hr' := by
    rcases goTo_get hr' with ⟨rfl, rfl⟩ | ⟨-, hr'⟩
    · exact hnew
    · exact h.requests m r' hr'
  known := h.known
  named _ _ _ hr' hp := named_goTo h hr hr' hp
  store := h.store
  stats := h.stats

/-- A new file outside the store leaves the store alone. -/
theorem store_create {fs fs' : FileSystem Path UInt8} {moved : List Bytes} {p : Path}
    (h : ∀ k hash i, fs.link (.object k hash) = some i →
      hex (fs.data i) = hash ∧ fs.data i ∈ moved)
    (hp : p.outside = true) (hlink : fs'.link = Function.update fs.link p (some fs.next))
    (hdata : fs'.data = Function.update fs.data fs.next []) :
    ∀ k hash i, fs'.link (.object k hash) = some i →
      hex (fs'.data i) = hash ∧ fs'.data i ∈ moved := by
  intro k hash i hl
  have hne : Path.object k hash ≠ p := by rintro rfl; cases hp
  rw [hlink, Function.update_of_ne hne] at hl
  have hlt := fs.link_lt _ _ hl
  rw [hdata, Function.update_of_ne (by omega)]
  exact h k hash i hl

theorem sound_start {s : State} (h : Sound hex s) {id : String} (hid : id ∉ s.sessions) :
    Sound hex { s with
      fs := (s.fs.openAppend (.session id)).2, sessions := insert id s.sessions } := by
  rcases s.fs.openAppend_cases (.session id) with ⟨hsome, -⟩ | ⟨-, -, hlink, hdata, hnext⟩
  · exact absurd (h.known id (by simp [hsome])) hid
  refine ⟨?_, ?_, ?_, store_create h.store rfl hlink hdata, h.stats⟩
  · intro n r hr
    refine (h.requests n r hr).create hlink hdata hnext ?_ (by simp)
    intro _ hp
    exact hid (h.named n r id hr hp)
  · intro id' hl
    by_cases he : id' = id
    · rw [he]
      exact Finset.mem_insert_self ..
    · have hne : Path.session id' ≠ .session id := by simpa using he
      rw [hlink, Function.update_of_ne hne] at hl
      exact Finset.mem_insert_of_mem (h.known id' hl)
  · intro n r id' hr hp
    exact Finset.mem_insert_of_mem (h.named n r id' hr hp)

/-- Two requests with one name work on one session. -/
theorem path_eq {n m : ℕ} {job job' : Job} (h : job.path n = job'.path m) (hne : n ≠ m) :
    ∃ id, job.path n = .session id := by
  cases job <;> cases job' <;> simp_all [Job.path]

/-- A private name belongs to one request. -/
theorem path_ne_temp {n m : ℕ} (job : Job) (hmn : m ≠ n) : job.path n ≠ .temp m := by
  cases job <;> simp [Job.path, Ne.symm hmn]

theorem sound_openFile {s : State} (h : Sound hex s) {n : ℕ} {r : Req}
    (hr : s.requests[n]? = some r) (hg : Undisturbed s (.openFile n)) :
    Sound hex { s.goTo n r (.writing (s.fs.openAppend (r.job.path n)).1 []) with
      fs := (s.fs.openAppend (r.job.path n)).2 } := by
  rcases s.fs.openAppend_cases (r.job.path n) with ⟨hsome, hfs⟩ | ⟨hnone, hi, hlink, hdata, hnext⟩
  · -- the file exists: the request only gets a handle
    rw [hfs]
    refine sound_goTo h hr ⟨?_, ?_, by simp, by simp [Stage.taken], by simp, by simp⟩
    · intro _ hp hn
      rw [show r.job.path n = .temp n from hp, hn] at hsome
      cases hsome
    · intro i received hst
      obtain ⟨rfl, -⟩ := Stage.writing.inj hst
      exact ⟨s.fs.link_lt _ _ hsome, fun q _ hq => s.fs.link_inj q _ _ hq hsome⟩
  · refine ⟨?_, ?_, ?_, store_create h.store (r.job.path_outside n) hlink hdata, h.stats⟩
    · intro m r' hr'
      rcases goTo_get hr' with ⟨rfl, rfl⟩ | ⟨hmn, hr'⟩
      · refine ⟨?_, ?_, by simp, by simp [Stage.taken], by simp, by simp⟩
        · intro _ hp
          rw [show r.job.path m = .temp m from hp] at hlink
          simp [hlink, hp]
        · intro i received hst
          obtain ⟨rfl, -⟩ := Stage.writing.inj hst
          refine ⟨by rw [hi, hnext]; omega, ?_⟩
          intro q _ hq
          by_contra hne
          rw [hi, hlink, Function.update_of_ne hne] at hq
          exact absurd (s.fs.link_lt _ _ hq) (lt_irrefl _)
      · refine (h.requests m r' hr').create hlink hdata hnext ?_ ?_
        · intro ht hp
          obtain ⟨id, hid⟩ := path_eq hp hmn
          rw [hp] at hid
          exact ht (hg r id hr hid (by rw [← hid]; exact hnone) m r' hr' (by rw [hp, hid]))
        · intro size hst hj hp
          exact path_ne_temp r.job hmn hp.symm
    · intro id hl
      by_cases hid : Path.session id = r.job.path n
      · exact h.named n r id hr hid.symm
      · refine h.known id ?_
        rwa [hlink, Function.update_of_ne hid] at hl
    · intro m r' id hr' hp
      exact named_goTo h hr hr' hp

/-- A write through a handle misses every file that a request with a private name waits for. -/
theorem handle_not_private {s : State} (h : Sound hex s) {n m i : ℕ} {r : Req} {received : Bytes}
    (hr : s.requests[n]? = some r) (hs : r.stage = .writing i received) (hmn : m ≠ n) :
    s.fs.link (.temp m) ≠ some i := by
  intro hl
  have hown := ((h.requests n r hr).handle i received hs).2 _ rfl hl
  exact path_ne_temp r.job hmn hown.symm

theorem sound_write {s : State} (h : Sound hex s) {n : ℕ} {r : Req} {i : ℕ} {received chunk : Bytes}
    (hr : s.requests[n]? = some r) (hs : r.stage = .writing i received)
    (hg : Undisturbed s (.write n chunk)) :
    Sound hex { s.goTo n r (.writing i (received ++ chunk)) with fs := s.fs.append i chunk } := by
  obtain ⟨hstore, hput⟩ := hg r i received hr hs
  refine ⟨?_, h.known, ?_, ?_, h.stats⟩
  · intro m r' hr'
    rcases goTo_get hr' with ⟨rfl, rfl⟩ | ⟨hmn, hold⟩
    · have hok := h.requests m r hr
      refine ⟨fun _ hp => hok.temp (by rw [hs]; rfl) hp, ?_, by simp,
        by simp [Stage.taken], by simp, by simp⟩
      intro j received' hst
      obtain ⟨rfl, -⟩ := Stage.writing.inj hst
      exact hok.handle _ received hs
    · have hok := h.requests m r' hold
      refine hok.frame le_rfl (fun q j _ _ hq => hq) (fun _ _ hn => hn) ?_ ?_ (List.Subset.refl _)
      · intro d j ht
        refine ⟨s.fs.append_data_of_ne ?_ chunk, fun _ hl => hl⟩
        intro hji
        rcases r'.job.path_cases m with ⟨id, hid⟩ | hp
        · exact hput m r' d id hold hid (by rw [ht, hji])
        · obtain ⟨j', hj'⟩ := Option.ne_none_iff_exists'.mp (hok.temp (opened_of_taken ht) hp)
          have hj'j : j' = j := (hok.taken d j ht).2.2 j' (by rw [hp]; exact hj')
          rw [hj'j, hji] at hj'
          exact handle_not_private h hr hs hmn hj'
      · intro size hst hj j hl
        refine ⟨hl, s.fs.append_data_of_ne ?_ chunk⟩
        rintro rfl
        exact handle_not_private h hr hs hmn hl
  · intro m r' id hr' hp
    exact named_goTo h hr hr' hp
  · intro k hash j hl
    have hji : j ≠ i := by rintro rfl; exact hstore k hash hl
    have hd : (s.fs.append i chunk).data j = s.fs.data j := s.fs.append_data_of_ne hji chunk
    show hex ((s.fs.append i chunk).data j) = hash ∧ (s.fs.append i chunk).data j ∈ s.moved
    rw [hd]
    exact h.store k hash j hl

theorem sound_close {s : State} (h : Sound hex s) {n : ℕ} {r : Req} {i : ℕ} {received : Bytes}
    (hr : s.requests[n]? = some r) (hs : r.stage = .writing i received) :
    Sound hex (s.goTo n r (.written received)) :=
  sound_goTo h hr ⟨fun _ hp => (h.requests n r hr).temp (by rw [hs]; rfl) hp, by simp, by simp,
    by simp [Stage.taken], by simp, by simp⟩

/-- The request has just read its file, by name, as the inode `i`. -/
theorem ok_taken {s : State} {n i : ℕ} {job : Job} {d : Digest} {stage : Stage}
    (hl : s.fs.link (job.path n) = some i) (hd : fromSha256 (hex (s.fs.data i)) = d)
    (hst : stage = .hashed d i ∨ ∃ size, stage = .ready d i size ∧
      ∀ len, size = some len → len = (s.fs.data i).length) :
    (Req.mk job stage).Ok hex s.fs s.moved n where
  temp _ hp := by
    have hl' : s.fs.link (.temp n) = some i := by rw [← hl]; exact congrArg _ hp.symm
    rw [hl']
    simp
  handle := by rcases hst with rfl | ⟨size, rfl, -⟩ <;> simp
  sized := by rcases hst with rfl | ⟨size, rfl, -⟩ <;> simp
  taken d' i' ht := by
    obtain ⟨rfl, rfl⟩ : d' = d ∧ i' = i := by
      rcases hst with rfl | ⟨size, rfl, -⟩ <;> simpa [Stage.taken, eq_comm] using ht
    exact ⟨s.fs.link_lt _ _ hl, hd.symm, fun j hj => Option.some.inj (hj.symm.trans hl)⟩
  size d' i' len hs := by
    rcases hst with rfl | ⟨size, rfl, hlen⟩
    · cases hs
    · obtain ⟨-, rfl, hsize⟩ := Stage.ready.inj hs
      exact hlen len hsize
  placed := by rcases hst with rfl | ⟨size, rfl, -⟩ <;> simp

theorem sound_hash {s : State} (h : Sound hex s) {n : ℕ} {r : Req} {i : ℕ} {stage : Stage}
    (hr : s.requests[n]? = some r) (hl : s.fs.link (r.job.path n) = some i)
    (hs : hashStage hex s.fs i r = some stage) : Sound hex (s.goTo n r stage) := by
  have hok := h.requests n r hr
  unfold hashStage at hs
  split at hs
  case h_1 | h_2 =>
    split at hs
    · obtain rfl := Option.some.inj hs
      exact sound_goTo h hr (ok_taken hl ‹_› (.inl rfl))
    · cases hs
  case h_3 =>
    split at hs
    case isTrue hd =>
      obtain rfl := Option.some.inj hs
      exact sound_goTo h hr (ok_taken hl hd.2 (.inr ⟨none, rfl, by simp⟩))
    · cases hs
  case h_4 size =>
    -- the size was looked up under the same private name
    obtain rfl := Option.some.inj hs
    have hlen := (hok.sized size rfl).2 i hl
    exact sound_goTo h hr (ok_taken hl rfl (.inr ⟨some size, rfl, by simp [hlen]⟩))
  case h_5 => cases hs

theorem sound_stat {s : State} (h : Sound hex s) {n : ℕ} {r : Req} {i : ℕ} {stage : Stage}
    (hr : s.requests[n]? = some r) (hl : s.fs.link (r.job.path n) = some i)
    (hs : statStage s.fs i r = some stage) : Sound hex (s.goTo n r stage) := by
  have hok := h.requests n r hr
  unfold statStage at hs
  split at hs
  case h_1 =>
    obtain rfl := Option.some.inj hs
    refine sound_goTo h hr ⟨?_, by simp, ?_, by simp [Stage.taken], by simp, by simp⟩
    · intro _ _
      have hl' : s.fs.link (.temp n) = some i := hl
      rw [hl']
      simp
    · intro size hst
      obtain rfl := Stage.sized.inj hst
      refine ⟨rfl, ?_⟩
      intro j hj
      rw [Option.some.inj (hj.symm.trans hl)]
  case h_2 job d i₀ =>
    obtain rfl := Option.some.inj hs
    -- the name still leads to the inode that was hashed
    obtain ⟨-, hd, hown⟩ := hok.taken d i₀ rfl
    obtain rfl := hown i hl
    exact sound_goTo h hr (ok_taken hl hd.symm (.inr ⟨_, rfl, by simp⟩))
  case h_3 => cases hs

theorem sound_leave {s : State} (h : Sound hex s) {n : ℕ} {r : Req} (hr : s.requests[n]? = some r) :
    Sound hex (s.goTo n r .ended) :=
  sound_goTo h hr ⟨by simp [Stage.opened], by simp, by simp, by simp [Stage.taken], by simp,
    by simp⟩

/-- The rename puts the content that was hashed to the place of its digest. -/
theorem sound_rename {s : State} (h : Sound hex s) {n i₀ : ℕ} {r : Req} {d : Digest}
    {size : Option ℕ} {bytes : Bytes} {fs : FileSystem Path UInt8}
    (hr : s.requests[n]? = some r) (hs : r.stage = .ready d i₀ size)
    (hread : s.fs.read (r.job.path n) = some bytes)
    (hfs : s.fs.rename (r.job.path n) (.object r.job.kind d.hash) = some fs) :
    Sound hex { s.goTo n r (.placed d size) with fs, moved := s.moved ++ [bytes] } := by
  obtain ⟨i, hl, hlink, hdata, hnext⟩ := FileSystem.rename_cases hfs
  have hok := h.requests n r hr
  -- the name still leads to the inode that was hashed
  obtain ⟨-, hd, hown⟩ := hok.taken d i₀ (by rw [hs]; rfl)
  obtain rfl := hown i hl
  obtain rfl : s.fs.data i = bytes := by simpa [FileSystem.read, hl] using hread
  have hnew : s.fs.data i ∈ s.moved ++ [s.fs.data i] := by simp
  have hold : s.moved ⊆ s.moved ++ [s.fs.data i] := List.subset_append_left ..
  have hout : ∀ q j, q.outside → fs.link q = some j → s.fs.link q = some j := by
    intro q j hq hj
    exact FileSystem.rename_link_of_ne hfs (by rintro rfl; cases hq) hj
  refine ⟨?_, ?_, fun m r' id hr' hp => named_goTo h hr hr' hp, ?_, ?_⟩
  · intro m r' hr'
    rcases goTo_get hr' with ⟨rfl, rfl⟩ | ⟨hmn, hr'⟩
    · refine ⟨by simp [Stage.opened], by simp, by simp, by simp [Stage.taken], by simp,
        ?_⟩
      intro d' len hst
      obtain ⟨rfl, rfl⟩ := Stage.placed.inj hst
      exact ⟨_, hnew, hd.symm, (hok.size _ i len hs).symm⟩
    · refine (h.requests m r' hr').shrink hdata hnext hout ?_ hold
      intro _
      show fs.link (.temp m) = s.fs.link (.temp m)
      rw [hlink, Function.update_of_ne (by simp),
        Function.update_of_ne (path_ne_temp r.job hmn).symm]
  · intro id hid
    obtain ⟨j, hj⟩ := Option.ne_none_iff_exists'.mp hid
    exact h.known id (by rw [hout _ j rfl hj]; simp)
  · intro k hash j hj
    show hex (fs.data j) = hash ∧ fs.data j ∈ s.moved ++ [s.fs.data i]
    have hj' : fs.link (.object k hash) = some j := hj
    rw [hdata]
    by_cases he : Path.object k hash = .object r.job.kind d.hash
    · rw [he, hlink, Function.update_self] at hj'
      rw [← Option.some.inj hj', (Path.object.inj he).2, hd]
      exact ⟨rfl, hnew⟩
    · obtain ⟨hhash, hmem⟩ := h.store k hash j (FileSystem.rename_link_of_ne hfs he hj')
      exact ⟨hhash, hold hmem⟩
  · intro x hx
    obtain ⟨c, hc, hx⟩ := h.stats x hx
    exact ⟨c, hold hc, hx⟩

theorem sound_commit {s : State} (h : Sound hex s) {n : ℕ} {r : Req} {d : Digest}
    {size : Option ℕ} (hr : s.requests[n]? = some r) (hs : r.stage = .placed d size) :
    Sound hex { s.goTo n r .ended with
      stats := s.stats ++ size.toList.map fun size => (r.job.kind, d, size) } := by
  have hend := sound_leave h hr
  refine ⟨hend.requests, hend.known, hend.named, hend.store, ?_⟩
  intro x hx
  rcases List.mem_append.mp hx with hx | hx
  · exact h.stats x hx
  · obtain ⟨len, hlen, rfl⟩ := List.mem_map.mp hx
    obtain rfl := Option.mem_toList.mp hlen
    exact (h.requests n r hr).placed d len hs

theorem sound_arrive {s : State} (h : Sound hex s) {job : Job} (ha : admits s job = true) :
    Sound hex { s with requests := s.requests ++ [⟨job, .begun⟩] } := by
  have hget : ∀ {m : ℕ} {r : Req}, (s.requests ++ [⟨job, .begun⟩])[m]? = some r →
      s.requests[m]? = some r ∨ r = ⟨job, .begun⟩ := by
    intro m r hm
    rw [List.getElem?_append] at hm
    split at hm
    · exact .inl hm
    · exact .inr (List.mem_singleton.mp (List.mem_of_getElem? hm))
  refine ⟨?_, h.known, ?_, h.store, h.stats⟩
  · intro m r hm
    rcases hget hm with hm | rfl
    · exact h.requests m r hm
    · exact ⟨by simp [Stage.opened], by simp, by simp, by simp [Stage.taken], by simp, by simp⟩
  · intro m r id hm hp
    rcases hget hm with hm | rfl
    · exact h.named m r id hm hp
    · -- a session request comes in only if there is a file
      refine h.known id ?_
      intro hnone
      cases job <;> simp_all [admits, Job.path]

theorem sound_unlink {s : State} (h : Sound hex s) {p : Path} (hp : ∀ n, p ≠ .temp n) :
    Sound hex { s with fs := s.fs.unlink p } := by
  have hlink : ∀ q i, (s.fs.unlink p).link q = some i → s.fs.link q = some i := by
    intro q i hq
    by_cases hqp : q = p
    · simp [FileSystem.unlink, hqp] at hq
    · simpa [FileSystem.unlink, hqp] using hq
  refine ⟨?_, ?_, h.named, ?_, h.stats⟩
  · intro m r hr
    refine (h.requests m r hr).shrink rfl rfl (fun q i _ => hlink q i) ?_ (List.Subset.refl _)
    intro _
    exact Function.update_of_ne (hp m).symm _ _
  · intro id hid
    obtain ⟨j, hj⟩ := Option.ne_none_iff_exists'.mp hid
    exact h.known id (by rw [hlink _ j hj]; simp)
  · intro k hash i hi
    exact h.store k hash i (hlink _ i hi)

/-- STEP LEMMA: every step that disturbs nobody keeps the invariant. -/
theorem sound_step (s : State) (e : Event) (s' : State) (h : Sound hex s) (hg : Undisturbed s e)
    (hs : contentStep hex s e = some s') : Sound hex s' := by
  cases e with
  | start id =>
    simp only [contentStep] at hs
    split at hs
    · cases hs
    · obtain rfl := Option.some.inj hs
      exact sound_start h ‹_›
  | arrive job =>
    simp only [contentStep] at hs
    split at hs
    · obtain rfl := Option.some.inj hs
      exact sound_arrive h ‹_›
    · cases hs
  | openFile n =>
    obtain ⟨r, hr, hs⟩ := Option.bind_eq_some_iff.mp hs
    split at hs
    · obtain rfl := Option.some.inj hs
      exact sound_openFile h hr hg
    · cases hs
  | write n chunk =>
    obtain ⟨r, hr, hs⟩ := Option.bind_eq_some_iff.mp hs
    split at hs
    case h_1 hst =>
      obtain rfl := Option.some.inj hs
      exact sound_write h hr hst hg
    case h_2 => cases hs
  | close n =>
    obtain ⟨r, hr, hs⟩ := Option.bind_eq_some_iff.mp hs
    split at hs
    case h_1 hst =>
      obtain rfl := Option.some.inj hs
      exact sound_close h hr hst
    case h_2 => cases hs
  | hash n =>
    obtain ⟨r, hr, hs⟩ := Option.bind_eq_some_iff.mp hs
    obtain ⟨i, hi, hs⟩ := Option.bind_eq_some_iff.mp hs
    obtain ⟨stage, hst, rfl⟩ := Option.map_eq_some_iff.mp hs
    exact sound_hash h hr hi hst
  | stat n =>
    obtain ⟨r, hr, hs⟩ := Option.bind_eq_some_iff.mp hs
    obtain ⟨i, hi, hs⟩ := Option.bind_eq_some_iff.mp hs
    obtain ⟨stage, hst, rfl⟩ := Option.map_eq_some_iff.mp hs
    exact sound_stat h hr hi hst
  | rename n =>
    obtain ⟨r, hr, hs⟩ := Option.bind_eq_some_iff.mp hs
    split at hs
    case h_1 hst =>
      obtain ⟨bytes, hbytes, hs⟩ := Option.bind_eq_some_iff.mp hs
      obtain ⟨fs, hfs, rfl⟩ := Option.map_eq_some_iff.mp hs
      exact sound_rename h hr hst hbytes hfs
    case h_2 => cases hs
  | commit n =>
    obtain ⟨r, hr, hs⟩ := Option.bind_eq_some_iff.mp hs
    split at hs
    case h_1 hst =>
      obtain rfl := Option.some.inj hs
      exact sound_commit h hr hst
    case h_2 => cases hs
  | leave n =>
    obtain ⟨r, hr, rfl⟩ := Option.map_eq_some_iff.mp hs
    exact sound_leave h hr
  | dropSession id =>
    obtain rfl := Option.some.inj hs
    exact sound_unlink h (by simp)
  | dropObject k d =>
    obtain rfl := Option.some.inj hs
    exact sound_unlink h (by simp)

/-- RUN LEMMA. -/
theorem run_sound {es : List Event} {s : State}
    (h : (content hex).run (content hex).init es = some s)
    (hg : (content hex).Meets Undisturbed (content hex).init es) : Sound hex s :=
  (content hex).run_inv_of_meets sound_step
    ⟨by simp [content], by simp [content, FileSystem.empty], by simp [content],
      by simp [content, FileSystem.empty], by simp [content]⟩ hg h

/-! ### Content addressing -/

/-- No two of the contents have one hash. -/
def NoCollision (hex : Bytes → String) (contents : List Bytes) : Prop :=
  ∀ a ∈ contents, ∀ b ∈ contents, hex a = hex b → a = b

/-- CONTENT ADDRESSING. Along every run in which nobody disturbs a PUT, the file at the place of a
    digest has this digest, and the sizes committed for a digest are the length of that file. -/
theorem content_addressed (hex : Bytes → String) (es : List Event) (s : State)
    (h : (content hex).run (content hex).init es = some s)
    (hg : (content hex).Meets Undisturbed (content hex).init es) :
    (∀ k d i, d.algo = "sha256" → s.fs.link (.object k d.hash) = some i →
      fromSha256 (hex (s.fs.data i)) = d) ∧
    (NoCollision hex s.moved → ∀ x ∈ s.stats, ∀ i, s.fs.link (.object x.1 x.2.1.hash) = some i →
      x.2.2 = (s.fs.data i).length) := by
  have hsound := run_sound h hg
  constructor
  · intro k d i halgo hl
    rw [(hsound.store k d.hash i hl).1]
    cases d
    subst halgo
    rfl
  · intro hcol x hx i hl
    obtain ⟨hhash, hmem⟩ := hsound.store _ _ i hl
    obtain ⟨c, hc, hd, hlen⟩ := hsound.stats x hx
    have hsame : hex c = hex (s.fs.data i) := by rw [hhash, ← hd]; rfl
    rw [← hlen, hcol c hc _ hmem hsame]

/-- "hello, world". -/
def hello : Bytes := [104, 101, 108, 108, 111, 44, 32, 119, 111, 114, 108, 100]

/-- SHA-256 of "hello, world", of "hello, world!" and of the empty content. -/
def sampleHex (content : Bytes) : String :=
  if content = hello then helloDigest.hash
  else if content = hello ++ [33] then
    "68e656b251e67e8358bef8483ab0d51c6619f3e7a1a9f0e75838d41ff368f728"
  else emptyDigest.hash

/-- A session that one PUT fills and ends. -/
def putRun : List Event :=
  [.start "u", .arrive (.put "u" helloDigest), .openFile 0, .write 0 hello, .close 0, .hash 0,
    .stat 0, .rename 0, .commit 0]

theorem putRun_undisturbed :
    (content sampleHex).Meets Undisturbed (content sampleHex).init putRun := by
  refine ⟨trivial, ?_⟩
  intro s hs
  cases hs
  refine ⟨trivial, ?_⟩
  intro s hs
  cases hs
  refine ⟨?_, fun s hs => ?_⟩
  · intro r id hr hp hnone
    obtain rfl := Option.some.inj hr
    obtain rfl := Path.session.inj hp
    cases hnone
  cases hs
  refine ⟨?_, fun s hs => ?_⟩
  · intro r i received hr hst
    obtain rfl := Option.some.inj hr
    obtain ⟨rfl, -⟩ := Stage.writing.inj hst
    refine ⟨?_, ?_⟩
    · intro k hash hl
      cases hl
    · intro m r' d id hr' _
      obtain rfl := List.mem_singleton.mp (List.mem_of_getElem? hr')
      exact Option.some_ne_none _ ∘ Eq.symm
  cases hs
  exact ⟨trivial, fun _ _ => ⟨trivial, fun _ _ => ⟨trivial, fun _ _ => ⟨trivial, fun _ _ =>
    ⟨trivial, fun _ _ => trivial⟩⟩⟩⟩⟩

theorem content_addressed_putRun :
    ∃ s i, (content sampleHex).run (content sampleHex).init putRun = some s ∧
      s.fs.link (.object .blob helloDigest.hash) = some i ∧ s.fs.data i = hello ∧
      fromSha256 (sampleHex (s.fs.data i)) = helloDigest ∧
      (.blob, helloDigest, (s.fs.data i).length) ∈ s.stats := by
  have hrun : ((content sampleHex).run (content sampleHex).init putRun).bind (fun s =>
      (s.fs.link (.object .blob helloDigest.hash)).map fun i => (s.stats, s.fs.data i, s.moved)) =
        some ([(.blob, helloDigest, 12)], hello, [hello]) := by decide
  simp only [Option.bind_eq_some_iff, Option.map_eq_some_iff, Prod.mk.injEq] at hrun
  obtain ⟨s, hs, i, hi, hstats, hdata, hmoved⟩ := hrun
  obtain ⟨hhash, hsize⟩ := content_addressed sampleHex putRun s hs putRun_undisturbed
  have hcol : NoCollision sampleHex s.moved := by simp [NoCollision, hmoved]
  have hlen := hsize hcol (.blob, helloDigest, 12) (by simp [hstats]) i hi
  refine ⟨s, i, hs, hi, hdata, hhash .blob helloDigest i rfl hi, ?_⟩
  rw [← hlen, hstats]
  simp

/-- A PATCH that is open while a PUT hashes the session file. -/
def patchRun : List Event :=
  [.start "u", .arrive (.patch "u"), .openFile 0, .arrive (.put "u" helloDigest), .openFile 1,
    .write 1 hello, .close 1, .hash 1, .write 0 [33], .stat 1, .rename 1, .commit 1]

/-- The file at the place of the digest of "hello, world" is "hello, world!". -/
theorem content_differs_patchRun :
    ∃ s i, (content sampleHex).run (content sampleHex).init patchRun = some s ∧
      s.fs.link (.object .blob helloDigest.hash) = some i ∧
      fromSha256 (sampleHex (s.fs.data i)) ≠ helloDigest := by
  have hrun : ((content sampleHex).run (content sampleHex).init patchRun).bind (fun s =>
      (s.fs.link (.object .blob helloDigest.hash)).map fun i => s.fs.data i) =
        some (hello ++ [33]) := by decide
  simp only [Option.bind_eq_some_iff, Option.map_eq_some_iff] at hrun
  obtain ⟨s, hs, i, hi, hdata⟩ := hrun
  exact ⟨s, i, hs, hi, by rw [hdata]; decide⟩

end Distribd.Node
