import Distribd.Schemes.History
import Distribd.Schemes.Machine
import Distribd.Schemes.Segments
import Distribd.Registry.Sessions

/-! PATCHes with a `Content-Range` on one session, in any order of their steps
    (`registry/blobs/uploads/patch.rs`, `utils.rs`). A request reads the size of the file and
    compares it with the start of its range; then it appends its body piece by piece; then it reads
    the size again and reports. Nothing holds the file between these steps, and the end of the range
    is compared with the start alone.

    So two requests for the same place may both be accepted, one behind the other, and so may a body
    of another length than its range. Where every request that passes the comparison brings a body
    of the length of its range, and no other has anything left to append then, each chunk lands at
    its range and the file is the chunks in their order (`ranges_in_place`). -/

namespace Distribd.Registry
open Schemes Store Cluster
open Node (Bytes)

/-! ### The requests on a session -/

/-- A PATCH with a range: whether the size of the file can be found before and after the body is
    given. -/
structure Chunk where
  start : ℕ
  stop : ℕ
  body : Body
  sized : Bool
  stat : Bool

/-- How far a PATCH has come. -/
inductive Stage where
  | sent
  /-- 416, with the size that was found. -/
  | refused (size : ℕ)
  /-- It may append; these items are to come. What one write appends is an item of its own. -/
  | appending (rest : List Item)
  /-- The whole body is in the file. -/
  | appended
  /-- 202. -/
  | accepted (rangeEnd : ℕ)
  /-- 400. -/
  | failed
  | panicked
  deriving DecidableEq

/-- A request. -/
structure Patch where
  chunk : Chunk
  stage : Stage

/-- The session file, each byte with the request that has written it, and the requests. -/
structure SharedUpload where
  file : List (ℕ × UInt8)
  requests : List Patch

/-- The file as a reader sees it. -/
def SharedUpload.contents (s : SharedUpload) : Bytes := s.file.map Prod.snd

/-- Request `n` gets to this stage. -/
def SharedUpload.goTo (s : SharedUpload) (n : ℕ) (chunk : Chunk) (stage : Stage) : SharedUpload :=
  { s with requests := s.requests.set n ⟨chunk, stage⟩ }

/-- Request `n` appends. -/
def SharedUpload.write (s : SharedUpload) (n : ℕ) (bytes : Bytes) : SharedUpload :=
  { s with file := s.file ++ bytes.map (Prod.mk n) }

/-- The size that the first look at the file finds. -/
def Chunk.found (chunk : Chunk) (length : ℕ) : ℕ := if chunk.sized then length else 0

/-- What happens on a session. -/
inductive PatchEvent where
  | send (chunk : Chunk)
  /-- The size is read and compared. -/
  | check (n : ℕ)
  /-- The next item of the body, or the sync after the last one. -/
  | append (n : ℕ)
  /-- The size is read once more, and the request answered. -/
  | report (n : ℕ)

/-- One step on the session. -/
def patchStep (s : SharedUpload) : PatchEvent → Option SharedUpload
  | .send chunk => some { s with requests := s.requests ++ [⟨chunk, .sent⟩] }
  | .check n =>
    match s.requests[n]? with
    | some ⟨c, .sent⟩ =>
      let size := c.found s.file.length
      if c.stop < c.start then some (s.goTo n c (.refused size))
      else if c.start ≠ size then some (s.goTo n c (.refused size))
      else some (s.goTo n c (.appending c.body.items))
    | _ => none
  | .append n =>
    match s.requests[n]? with
    | some ⟨c, .appending []⟩ => some (s.goTo n c (if c.body.synced then .appended else .failed))
    | some ⟨c, .appending (.written bytes :: rest)⟩ =>
      some ((s.write n bytes).goTo n c (.appending rest))
    | some ⟨c, .appending (.cut bytes :: _)⟩ => some ((s.write n bytes).goTo n c .failed)
    | some ⟨c, .appending (.broken :: _)⟩ => some (s.goTo n c .panicked)
    | _ => none
  | .report n =>
    match s.requests[n]? with
    | some ⟨c, .appended⟩ =>
      some (s.goTo n c (if c.stat then .accepted (guardedPred s.file.length) else .failed))
    | _ => none

/-- The session as a POST leaves it. -/
def patching : Machine SharedUpload PatchEvent where
  init := ⟨[], []⟩
  step := patchStep

/-- The range is one, and starts where the file is found to end. -/
def Chunk.Passes (chunk : Chunk) (length : ℕ) : Prop :=
  chunk.start ≤ chunk.stop ∧ chunk.start = chunk.found length

instance (chunk : Chunk) (length : ℕ) : Decidable (chunk.Passes length) :=
  inferInstanceAs (Decidable (_ ∧ _))

/-- Only a request that passes the comparison goes on. -/
theorem check_sent {s : SharedUpload} {n : ℕ} {c : Chunk} (h : s.requests[n]? = some ⟨c, .sent⟩) :
    patchStep s (.check n) = some (s.goTo n c (if c.Passes s.file.length then
      .appending c.body.items else .refused (c.found s.file.length))) := by
  unfold patchStep
  simp only [h]
  by_cases horder : c.stop < c.start
  · rw [if_pos horder, if_neg (fun hpass => absurd hpass.1 (not_le.mpr horder))]
  · by_cases hstart : c.start = c.found s.file.length
    · rw [if_neg horder, if_neg (not_not.mpr hstart), if_pos ⟨not_lt.mp horder, hstart⟩]
    · rw [if_neg horder, if_pos hstart, if_neg (fun hpass => hstart hpass.2)]

/-! ### One request alone -/

/-- The answer, once there is one. -/
def Stage.reply (repository : RepositoryName) (uploadId : String) :
    Stage → Option (Option (Except RegistryError UploadOk))
  | .refused size => some (some (.error (.rangeNotSatisfiable repository uploadId size)))
  | .accepted rangeEnd => some (some (.ok (.accepted uploadId (rangeText rangeEnd))))
  | .failed => some (some (.error .uploadInvalid))
  | .panicked => some none
  | .sent | .appending _ | .appended => none

/-- Where `upload_part` leaves a request. -/
def PartResult.stage : PartResult → Stage
  | .complete => .appended
  | .failed => .failed
  | .panicked => .panicked

/-- Alone, the items are appended as `upload_part` appends them. -/
theorem run_append_alone (c : Chunk) (file : List (ℕ × UInt8)) (rest : List Item) :
    ∃ events, patching.run ⟨file, [⟨c, .appending rest⟩]⟩ events =
      some ⟨file ++ (uploadPart c.body.synced rest).1.map (Prod.mk 0),
        [⟨c, (uploadPart c.body.synced rest).2.stage⟩]⟩ := by
  induction rest generalizing file with
  | nil =>
    refine ⟨[.append 0], ?_⟩
    cases hsynced : c.body.synced <;>
      simp [patching, patchStep, SharedUpload.goTo, uploadPart, PartResult.stage, hsynced]
  | cons item rest ih =>
    cases item with
    | written bytes =>
      obtain ⟨events, hrun⟩ := ih (file ++ bytes.map (Prod.mk 0))
      refine ⟨.append 0 :: events, ?_⟩
      rw [Machine.run_cons]
      simpa [patching, patchStep, SharedUpload.goTo, SharedUpload.write, uploadPart] using hrun
    | cut bytes => exact ⟨[.append 0], by
        simp [patching, patchStep, SharedUpload.goTo, SharedUpload.write, uploadPart,
          PartResult.stage]⟩
    | broken => exact ⟨[.append 0], by
        simp [patching, patchStep, SharedUpload.goTo, uploadPart, PartResult.stage]⟩

/-- ALONE, a request ends as `Local.patch` says, with the same file and the same answer. -/
theorem patch_alone {s : Local} {token : Token} {repository : RepositoryName} {uploadId : String}
    {contentRange : Option String} {content : Bytes} {start stop : ℕ} (body : Body)
    (sized stat : Bool) (hpush : token.hasPermission repository "push")
    (hcontent : s.uploads uploadId = some content)
    (hrange : getHttpRange contentRange = some (start, stop)) (file : List (ℕ × UInt8))
    (hfile : file.map Prod.snd = content) :
    ∃ events t stage,
      patching.run ⟨file, []⟩ (.send ⟨start, stop, body, sized, stat⟩ :: events) = some t ∧
      t.requests = [⟨⟨start, stop, body, sized, stat⟩, stage⟩] ∧
      stage.reply repository uploadId =
        some (s.patch token repository uploadId contentRange body sized stat).1 ∧
      (s.patch token repository uploadId contentRange body sized stat).2.uploads uploadId =
        some t.contents := by
  generalize hc : (⟨start, stop, body, sized, stat⟩ : Chunk) = c
  have hlength : file.length = content.length := by rw [← hfile, List.length_map]
  have hfound : c.found file.length = if sized then content.length else 0 := by
    rw [← hc, Chunk.found, hlength]
  have hsend : ∀ events, patching.run ⟨file, []⟩ (.send c :: .check 0 :: events) =
      patching.run ⟨file, [⟨c, if c.Passes file.length then .appending c.body.items
        else .refused (c.found file.length)⟩]⟩ events := by
    intro events
    have hcheck := check_sent (s := ⟨file, [⟨c, .sent⟩]⟩) (n := 0) rfl
    calc patching.run ⟨file, []⟩ (.send c :: .check 0 :: events)
      _ = (patchStep ⟨file, [⟨c, .sent⟩]⟩ (.check 0)).bind (patching.run · events) := rfl
      _ = _ := by rw [hcheck]; rfl
  have hpass : c.Passes file.length ↔ ¬ stop < start ∧ ¬ start ≠ c.found file.length := by
    rw [← hc, Chunk.Passes, not_lt, not_not]
  rw [Local.patch, authorized_of_hasPermission hpush, hcontent]
  simp only [hrange, ← hfound]
  by_cases hpasses : c.Passes file.length
  · obtain ⟨horder, hstart⟩ := hpass.mp hpasses
    obtain ⟨events, hevents⟩ := run_append_alone c file body.items
    have hcheck : patching.run ⟨file, []⟩ (.send c :: .check 0 :: events) = some
        ⟨file ++ body.appended.map (Prod.mk 0), [⟨c, body.result.stage⟩]⟩ := by
      rw [hsend, if_pos hpasses, Body.appended, Body.result]
      subst hc
      exact hevents
    have hcontents : ∀ stage, (⟨file ++ body.appended.map (Prod.mk 0), [⟨c, stage⟩]⟩ :
        SharedUpload).contents = content ++ body.appended := by
      intro stage
      simp [SharedUpload.contents, hfile, Function.comp_def]
    rw [if_neg horder, if_neg hstart, Local.append]
    cases hresult : body.result with
    | panicked =>
      rw [hresult] at hcheck
      refine ⟨.check 0 :: events, _, _, hcheck, rfl, rfl, ?_⟩
      rw [hcontents]
      exact setUpload_self ..
    | failed =>
      rw [hresult] at hcheck
      refine ⟨.check 0 :: events, _, _, hcheck, rfl, rfl, ?_⟩
      rw [hcontents]
      exact setUpload_self ..
    | complete =>
      rw [hresult] at hcheck
      have hreport : patching.run ⟨file, []⟩ ((.send c :: .check 0 :: events) ++ [.report 0]) =
          some ⟨file ++ body.appended.map (Prod.mk 0), [⟨c, if stat then
            .accepted (guardedPred (content ++ body.appended).length) else .failed⟩]⟩ := by
        rw [Machine.run_append, hcheck]
        subst hc
        simp [patching, patchStep, SharedUpload.goTo, PartResult.stage, hlength]
      refine ⟨.check 0 :: (events ++ [PatchEvent.report 0]), _, _, hreport, rfl, ?_, ?_⟩
      · cases stat <;> rfl
      · rw [hcontents]
        cases stat <;> exact setUpload_self ..
  · have hcheck := hsend []
    rw [if_neg hpasses] at hcheck
    refine ⟨[.check 0], _, _, hcheck, rfl, ?_, ?_⟩
    all_goals
      rw [hpass, not_and_or, not_not, not_not] at hpasses
      rcases hpasses with horder | hstart
    · rw [if_pos horder]
      rfl
    · rw [if_pos hstart, ite_self]
      rfl
    · rw [if_pos horder, SharedUpload.contents, hfile]
      exact hcontent
    · rw [if_pos hstart, ite_self, SharedUpload.contents, hfile]
      exact hcontent

/-! ### Chunks in their places -/

/-- The body lies at the range of its chunk and nowhere else. -/
def Occupies (file : List (ℕ × UInt8)) (n : ℕ) (c : Chunk) : Prop :=
  (∀ i, (file[i]?).map Prod.fst = some n ↔ c.start ≤ i ∧ i ≤ c.stop) ∧
    ((file.drop c.start).take (c.stop + 1 - c.start)).map Prod.snd = c.body.appended

/-- The request has been answered 202, or may append and has not been answered. -/
def Stage.Takes : Stage → Prop
  | .accepted _ | .appending _ | .appended => True
  | .sent | .refused _ | .failed | .panicked => False

/-- The answer is 202. -/
def Stage.Accepted : Stage → Prop
  | .accepted _ => True
  | _ => False

/-- The file is made of these pieces: the bodies of all accepted requests in the order of their
    ranges, and among them those that are not answered yet, of which the last may still be coming
    in. -/
structure Pieces (s : SharedUpload) (pieces : List (ℕ × Bytes)) : Prop where
  file : s.file = stamp pieces
  once : (pieces.map Prod.fst).Nodup
  all : ∀ (n : ℕ) (r : Patch), s.requests[n]? = some r → r.stage.Accepted → n ∈ pieces.map Prod.fst
  each : ∀ pre n w post, pieces = pre ++ (n, w) :: post → ∃ r, s.requests[n]? = some r ∧
    r.stage.Takes ∧ r.chunk.start = (stamp pre).length ∧ w <+: r.chunk.body.appended ∧
    (r.stage.Accepted ∨ post ≠ [] → w = r.chunk.body.appended)

/-- Ranged chunks have landed where they say. -/
structure InPlace (s : SharedUpload) : Prop where
  /-- Accepted chunks are at their ranges. -/
  occupies : ∀ (n : ℕ) (r : Patch), s.requests[n]? = some r → r.stage.Accepted →
    Occupies s.file n r.chunk
  /-- No offset is in the ranges of two. -/
  disjoint : ∀ (m n : ℕ) (q r : Patch), s.requests[m]? = some q → s.requests[n]? = some r →
    q.stage.Accepted → r.stage.Accepted → m ≠ n → ∀ i, ¬ ((q.chunk.start ≤ i ∧
      i ≤ q.chunk.stop) ∧ r.chunk.start ≤ i ∧ i ≤ r.chunk.stop)
  /-- The file is the chunks in their order. -/
  inOrder : ∃ pieces, Pieces s pieces

/-! ### When they are -/

/-- The body comes in whole and has the length of the range. -/
def Chunk.Fits (c : Chunk) : Prop :=
  c.body.result = .complete ∧ c.stat = true ∧ c.body.appended.length = c.stop + 1 - c.start

/-- The request leaves nothing behind, and is not answered 202. -/
def Chunk.Idle (c : Chunk) : Prop :=
  c.body.appended = [] ∧ ¬ (c.body.result = .complete ∧ c.stat = true)

/-- What the request has still to append. -/
def Patch.left (r : Patch) : Bytes :=
  match r.stage with
  | .appending rest => (uploadPart r.chunk.body.synced rest).1
  | _ => []

/-- A request that passes the comparison leaves nothing behind, or its body fits the range, which
    starts where the file ends, and nothing is left to append of any other. -/
def Ordered (s : SharedUpload) : PatchEvent → Prop
  | .check n => ∀ r ∈ s.requests[n]?, r.stage = .sent → r.chunk.Passes s.file.length →
      r.chunk.Idle ∨ (r.chunk.Fits ∧ r.chunk.start = s.file.length ∧ ∀ q ∈ s.requests, q.left = [])
  | _ => True

instance (s : SharedUpload) (e : PatchEvent) : Decidable (Ordered s e) :=
  match e with
  | .check n => inferInstanceAs (Decidable (∀ r ∈ s.requests[n]?, r.stage = .sent →
      r.chunk.Passes s.file.length → (r.chunk.body.appended = [] ∧
        ¬ (r.chunk.body.result = .complete ∧ r.chunk.stat = true)) ∨
      ((r.chunk.body.result = .complete ∧ r.chunk.stat = true ∧
        r.chunk.body.appended.length = r.chunk.stop + 1 - r.chunk.start) ∧
        r.chunk.start = s.file.length ∧ ∀ q ∈ s.requests, q.left = [])))
  | .send _ | .append _ | .report _ => isTrue trivial

/-- A request whose piece is this far. -/
def Progress (c : Chunk) (w : Bytes) : Stage → Prop
  | .appending rest => ∃ left, uploadPart c.body.synced rest = (left, .complete) ∧
      c.body.appended = w ++ left
  | .appended | .accepted _ => w = c.body.appended
  | .sent | .refused _ | .failed | .panicked => False

/-- A request without a piece. -/
def Aside (c : Chunk) : Stage → Prop
  | .appending rest => uploadPart c.body.synced rest = ([], c.body.result) ∧ c.Idle
  | .appended => c.stat = false
  | .accepted _ => False
  | .sent | .refused _ | .failed | .panicked => True

/-- What holds along a run: the pieces, and how far their requests are. -/
structure Laid (s : SharedUpload) (pieces : List (ℕ × Bytes)) : Prop where
  file : s.file = stamp pieces
  once : (pieces.map Prod.fst).Nodup
  each : ∀ pre n w post, pieces = pre ++ (n, w) :: post → ∃ r, s.requests[n]? = some r ∧
    r.chunk.start ≤ r.chunk.stop ∧ r.chunk.Fits ∧ Progress r.chunk w r.stage ∧
    r.chunk.start = (stamp pre).length ∧ (post ≠ [] → w = r.chunk.body.appended)
  others : ∀ (n : ℕ) (r : Patch), s.requests[n]? = some r → n ∉ pieces.map Prod.fst →
    Aside r.chunk r.stage

section

variable {s : SharedUpload} {pieces : List (ℕ × Bytes)} {n : ℕ} {c : Chunk} {stage next : Stage}

theorem goTo_get_self {r : Patch} (h : s.requests[n]? = some r) :
    (s.goTo n c next).requests[n]? = some ⟨c, next⟩ := by
  obtain ⟨hlt, -⟩ := List.getElem?_eq_some_iff.mp h
  rw [SharedUpload.goTo, List.getElem?_set_self hlt]

theorem goTo_get_of_ne {m : ℕ} (h : m ≠ n) : (s.goTo n c next).requests[m]? = s.requests[m]? :=
  List.getElem?_set_ne h.symm

@[simp] theorem write_nil (s : SharedUpload) (n : ℕ) : s.write n [] = s := by
  simp [SharedUpload.write]

/-- A writer with a piece stands at one place among the pieces. -/
theorem Laid.split (h : Laid s pieces) (hn : n ∈ pieces.map Prod.fst) :
    ∃ pre w post, pieces = pre ++ (n, w) :: post ∧ n ∉ pre.map Prod.fst ∧
      n ∉ post.map Prod.fst := by
  obtain ⟨⟨m, w⟩, hmem, rfl⟩ := List.mem_map.mp hn
  obtain ⟨pre, post, rfl⟩ := List.append_of_mem hmem
  have honce := h.once
  rw [List.map_append, List.map_cons, List.nodup_middle, List.nodup_cons, List.mem_append,
    not_or] at honce
  exact ⟨pre, w, post, rfl, honce.1⟩

/-- A request without a piece moves on without one. -/
theorem Laid.goTo_aside (h : Laid s pieces) (hreq : s.requests[n]? = some ⟨c, stage⟩)
    (hn : n ∉ pieces.map Prod.fst) (hnext : Aside c next) : Laid (s.goTo n c next) pieces where
  file := h.file
  once := h.once
  each pre m w post hp := by
    have hne : m ≠ n := by
      rintro rfl
      exact hn (by simp [hp])
    rw [goTo_get_of_ne hne]
    exact h.each pre m w post hp
  others m r hm hout := by
    by_cases hmn : m = n
    · subst hmn
      rw [goTo_get_self hreq] at hm
      cases hm
      exact hnext
    · rw [goTo_get_of_ne hmn] at hm
      exact h.others m r hm hout

/-- A request with a piece moves on without appending. -/
theorem Laid.goTo_progress {w : Bytes} (h : Laid s pieces)
    (hreq : s.requests[n]? = some ⟨c, stage⟩) (hw : (n, w) ∈ pieces) (hnext : Progress c w next) :
    Laid (s.goTo n c next) pieces where
  file := h.file
  once := h.once
  each pre m v post hp := by
    obtain ⟨r, hr, horder, hfits, hprogress, hstart, hlast⟩ := h.each pre m v post hp
    by_cases hmn : m = n
    · subst hmn
      obtain rfl := Option.some.inj (hr.symm.trans hreq)
      have hv : (m, v) ∈ pieces := by simp [hp]
      obtain rfl : v = w := congrArg Prod.snd (List.inj_on_of_nodup_map h.once hv hw rfl)
      exact ⟨⟨c, next⟩, goTo_get_self hreq, horder, hfits, hnext, hstart, hlast⟩
    · exact ⟨r, (goTo_get_of_ne hmn).trans hr, horder, hfits, hprogress, hstart, hlast⟩
  others m r hm hout := by
    have hmn : m ≠ n := by
      rintro rfl
      exact hout (List.mem_map_of_mem hw)
    rw [goTo_get_of_ne hmn] at hm
    exact h.others m r hm hout

/-- The request with the last piece appends to it. -/
theorem Laid.goTo_write {pre : List (ℕ × Bytes)} {w bytes : Bytes}
    (h : Laid s (pre ++ [(n, w)])) (hreq : s.requests[n]? = some ⟨c, stage⟩)
    (hnext : Progress c (w ++ bytes) next) :
    Laid ((s.write n bytes).goTo n c next) (pre ++ [(n, w ++ bytes)]) where
  file := by
    simp [SharedUpload.goTo, SharedUpload.write, h.file]
  once := by simpa using h.once
  each pre' m v post' hp := by
    rcases snoc_eq_split.mp hp with ⟨rfl, rfl, hlast⟩ | ⟨post, rfl, rfl⟩
    · obtain ⟨rfl, rfl⟩ := Prod.mk.inj hlast
      obtain ⟨r, hr, horder, hfits, -, hstart, -⟩ := h.each pre n w [] rfl
      obtain rfl := Option.some.inj (hr.symm.trans hreq)
      exact ⟨⟨c, next⟩, goTo_get_self (s := s.write n bytes) hreq, horder, hfits, hnext, hstart,
        fun hne => absurd rfl hne⟩
    · obtain ⟨r, hr, horder, hfits, hprogress, hstart, hlast⟩ :=
        h.each pre' m v (post ++ [(n, w)]) (by simp)
      have hmn : m ≠ n := by
        rintro rfl
        have honce := h.once
        simp [List.nodup_append] at honce
      refine ⟨r, (goTo_get_of_ne hmn).trans hr, horder, hfits, hprogress, hstart, ?_⟩
      exact fun _ => hlast (by simp)
  others m r hm hout := by
    have hmn : m ≠ n := by
      rintro rfl
      exact hout (by simp)
    rw [goTo_get_of_ne hmn] at hm
    exact h.others m r hm (by simpa using hout)

/-- A piece to which nothing is left to append is the whole body. -/
theorem progress_left {w : Bytes} (h : Progress c w stage)
    (hleft : Patch.left ⟨c, stage⟩ = []) : w = c.body.appended := by
  cases stage with
  | appending rest =>
    obtain ⟨left, hpart, happended⟩ := h
    simp only [Patch.left, hpart] at hleft
    rw [happended, hleft, List.append_nil]
  | appended => exact h
  | accepted => exact h
  | sent | refused | failed | panicked => exact h.elim

/-- A piece is the beginning of its body, and the whole of it once the request is accepted. -/
theorem progress_spec {w : Bytes} (h : Progress c w stage) :
    stage.Takes ∧ w <+: c.body.appended ∧ (stage.Accepted → w = c.body.appended) := by
  cases stage with
  | appending rest =>
    obtain ⟨left, -, happended⟩ := h
    exact ⟨trivial, ⟨left, happended.symm⟩, nofun⟩
  | appended =>
    obtain rfl : w = c.body.appended := h
    exact ⟨trivial, List.prefix_refl _, nofun⟩
  | accepted =>
    obtain rfl : w = c.body.appended := h
    exact ⟨trivial, List.prefix_refl _, fun _ => rfl⟩
  | sent | refused | failed | panicked => exact h.elim

/-- A request that has not been looked at has no piece. -/
theorem Laid.not_mem_of_sent (h : Laid s pieces) (hreq : s.requests[n]? = some ⟨c, .sent⟩) :
    n ∉ pieces.map Prod.fst := by
  intro hn
  obtain ⟨pre, w, post, hp, -⟩ := h.split hn
  obtain ⟨r, hr, -, -, hprogress, -⟩ := h.each pre n w post hp
  obtain rfl := Option.some.inj (hr.symm.trans hreq)
  exact hprogress

/-- A request that passes the comparison begins its piece, when nothing is left to append of any
    other. -/
theorem Laid.begin (h : Laid s pieces) (hreq : s.requests[n]? = some ⟨c, .sent⟩)
    (horder : c.start ≤ c.stop) (hfits : c.Fits) (hstart : c.start = s.file.length)
    (hleft : ∀ q ∈ s.requests, q.left = []) :
    Laid (s.goTo n c (.appending c.body.items)) (pieces ++ [(n, [])]) := by
  have hn := h.not_mem_of_sent hreq
  refine ⟨?_, ?_, ?_, ?_⟩
  · simp [SharedUpload.goTo, h.file]
  · rw [List.map_append, List.nodup_append]
    refine ⟨h.once, by simp, ?_⟩
    rintro m hm k hk rfl
    obtain rfl : m = n := by simpa using hk
    exact hn hm
  · intro pre m v post hp
    rcases snoc_eq_split.mp hp with ⟨rfl, rfl, hlast⟩ | ⟨post, rfl, rfl⟩
    · obtain ⟨rfl, rfl⟩ := Prod.mk.inj hlast
      refine ⟨_, goTo_get_self hreq, horder, hfits, ⟨c.body.appended, ?_, rfl⟩, ?_,
        fun hne => absurd rfl hne⟩
      · exact Prod.ext rfl hfits.1
      · rw [hstart, h.file]
    · obtain ⟨r, hr, horder, hfits, hprogress, hstart, -⟩ := h.each pre m v post rfl
      have hmn : m ≠ n := by
        rintro rfl
        exact hn (by simp)
      refine ⟨r, (goTo_get_of_ne hmn).trans hr, horder, hfits, hprogress, hstart, fun _ => ?_⟩
      exact progress_left hprogress (hleft r (List.mem_of_getElem? hr))
  · intro m r hm hout
    rw [List.map_append, List.mem_append, not_or] at hout
    have hmn : m ≠ n := by
      rintro rfl
      exact hout.2 (by simp)
    rw [goTo_get_of_ne hmn] at hm
    exact h.others m r hm hout.1

theorem laid_start : Laid patching.init [] where
  file := rfl
  once := List.nodup_nil
  each pre n w post hp := by simp at hp
  others n r hr := by simp [patching] at hr

/-- A request that has arrived has no piece. -/
theorem Laid.send (h : Laid s pieces) (c : Chunk) :
    Laid { s with requests := s.requests ++ [⟨c, .sent⟩] } pieces where
  file := h.file
  once := h.once
  each pre n w post hp := by
    obtain ⟨r, hr, hrest⟩ := h.each pre n w post hp
    obtain ⟨hlt, -⟩ := List.getElem?_eq_some_iff.mp hr
    exact ⟨r, (List.getElem?_append_left hlt).trans hr, hrest⟩
  others n r hr hout := by
    rcases Nat.lt_or_ge n s.requests.length with hlt | hge
    · exact h.others n r ((List.getElem?_append_left hlt).symm.trans hr) hout
    · rw [List.getElem?_append_right hge] at hr
      obtain rfl : r = ⟨c, .sent⟩ := by simpa using List.mem_of_getElem? hr
      trivial

/-- Everything an `append` can do: some bytes of the body are appended, and the request goes on with
    the rest or ends as `upload_part` does. -/
theorem append_item_cases {s' : SharedUpload} (h : patchStep s (.append n) = some s') :
    ∃ c rest bytes next, s.requests[n]? = some ⟨c, .appending rest⟩ ∧
      s' = (s.write n bytes).goTo n c next ∧
      ((∃ rest', next = .appending rest' ∧ uploadPart c.body.synced rest =
          (bytes ++ (uploadPart c.body.synced rest').1, (uploadPart c.body.synced rest').2)) ∨
        ∃ res : PartResult, next = res.stage ∧ uploadPart c.body.synced rest = (bytes, res)) := by
  simp only [patchStep] at h
  split at h
  · rename_i c hreq
    refine ⟨c, [], [], _, hreq, by simpa using h.symm, .inr ⟨_, ?_, rfl⟩⟩
    cases c.body.synced <;> rfl
  · rename_i c bytes rest hreq
    exact ⟨c, _, bytes, _, hreq, (Option.some.inj h).symm, .inl ⟨rest, rfl, rfl⟩⟩
  · rename_i c bytes rest hreq
    exact ⟨c, _, bytes, _, hreq, (Option.some.inj h).symm, .inr ⟨.failed, rfl, rfl⟩⟩
  · rename_i c rest hreq
    exact ⟨c, _, [], .panicked, hreq, by simpa using h.symm, .inr ⟨.panicked, rfl, rfl⟩⟩
  · cases h

/-- An `append` goes on with the piece of its request, or appends nothing. -/
theorem Laid.append {s' : SharedUpload} (h : Laid s pieces)
    (hstep : patchStep s (.append n) = some s') : ∃ pieces', Laid s' pieces' := by
  obtain ⟨c, rest, bytes, next, hreq, rfl, hcases⟩ := append_item_cases hstep
  by_cases hn : n ∈ pieces.map Prod.fst
  · obtain ⟨pre, w, post, rfl, -⟩ := h.split hn
    obtain ⟨r, hr, -, -, hprogress, -, hlast⟩ := h.each pre n w post rfl
    obtain rfl := Option.some.inj (hreq.symm.trans hr)
    obtain ⟨left, hpart, happended⟩ := hprogress
    have hnext : Progress c (w ++ bytes) next := by
      rcases hcases with ⟨rest', rfl, hrest⟩ | ⟨res, rfl, hrest⟩
      · obtain ⟨hleft, hres⟩ := Prod.mk.inj (hrest.symm.trans hpart)
        refine ⟨_, Prod.ext rfl hres, ?_⟩
        rw [happended, ← hleft, List.append_assoc]
      · obtain ⟨rfl, rfl⟩ := Prod.mk.inj (hrest.symm.trans hpart)
        exact happended.symm
    rcases List.eq_nil_or_concat post with rfl | ⟨post', piece, rfl⟩
    · exact ⟨_, h.goTo_write hreq hnext⟩
    · -- the body was whole already
      have hbytes : bytes = [] := by
        have hwhole : w = c.body.appended := hlast (by simp)
        rw [← hwhole, List.self_eq_append_right] at happended
        rcases hcases with ⟨rest', -, hrest⟩ | ⟨res, -, hrest⟩
        all_goals
          have hleft := (Prod.mk.inj (hrest.symm.trans hpart)).1
          rw [happended] at hleft
        · exact (List.append_eq_nil_iff.mp hleft).1
        · exact hleft
      subst hbytes
      rw [write_nil]
      rw [List.append_nil] at hnext
      exact ⟨_, h.goTo_progress hreq (by simp) hnext⟩
  · obtain ⟨hpart, hidle⟩ := h.others n _ hreq hn
    have hnext : bytes = [] ∧ Aside c next := by
      rcases hcases with ⟨rest', rfl, hrest⟩ | ⟨res, rfl, hrest⟩
      · obtain ⟨hleft, hres⟩ := Prod.mk.inj (hrest.symm.trans hpart)
        obtain ⟨hbytes, hrest'⟩ := List.append_eq_nil_iff.mp hleft
        exact ⟨hbytes, Prod.ext hrest' hres, hidle⟩
      · obtain ⟨rfl, rfl⟩ := Prod.mk.inj (hrest.symm.trans hpart)
        refine ⟨rfl, ?_⟩
        cases hresult : c.body.result with
        | complete =>
          have hstat : ¬ c.stat = true := fun hstat => hidle.2 ⟨hresult, hstat⟩
          simpa [PartResult.stage, Aside] using hstat
        | failed => trivial
        | panicked => trivial
    obtain ⟨rfl, hnext⟩ := hnext
    rw [write_nil]
    exact ⟨_, h.goTo_aside hreq hn hnext⟩

/-- STEP: the pieces stay pieces. -/
theorem laid_step {s' : SharedUpload} {e : PatchEvent} (h : Laid s pieces) (hgood : Ordered s e)
    (hstep : patching.step s e = some s') : ∃ pieces', Laid s' pieces' := by
  change patchStep s e = some s' at hstep
  cases e with
  | send c =>
    cases hstep
    exact ⟨_, h.send c⟩
  | check n =>
    have hsent : ∃ c, s.requests[n]? = some ⟨c, .sent⟩ := by
      simp only [patchStep] at hstep
      split at hstep
      · exact ⟨_, ‹_›⟩
      · cases hstep
    obtain ⟨c, hreq⟩ := hsent
    rw [check_sent hreq] at hstep
    obtain rfl := Option.some.inj hstep
    have hn := h.not_mem_of_sent hreq
    by_cases hpass : c.Passes s.file.length
    · rw [if_pos hpass]
      rcases hgood _ hreq rfl hpass with hidle | ⟨hfits, hstart, hleft⟩
      · exact ⟨_, h.goTo_aside hreq hn ⟨Prod.ext hidle.1 rfl, hidle⟩⟩
      · exact ⟨_, h.begin hreq hpass.1 hfits hstart hleft⟩
    · rw [if_neg hpass]
      exact ⟨_, h.goTo_aside hreq hn trivial⟩
  | append n => exact h.append hstep
  | report n =>
    simp only [patchStep] at hstep
    split at hstep
    · rename_i c hreq
      obtain rfl := Option.some.inj hstep
      by_cases hn : n ∈ pieces.map Prod.fst
      · obtain ⟨pre, w, post, hp, -⟩ := h.split hn
        obtain ⟨r, hr, -, hfits, hprogress, -⟩ := h.each pre n w post hp
        obtain rfl := Option.some.inj (hreq.symm.trans hr)
        rw [if_pos hfits.2.1]
        exact ⟨_, h.goTo_progress hreq (by simp [hp]) hprogress⟩
      · have hstat : c.stat = false := h.others n _ hreq hn
        rw [hstat]
        exact ⟨_, h.goTo_aside hreq hn trivial⟩
    · cases hstep

/-- An accepted request has its whole body in one piece, at its range. -/
theorem Laid.accepted (h : Laid s pieces) {r : Patch} (hreq : s.requests[n]? = some r)
    (hacc : r.stage.Accepted) : ∃ pre post, pieces = pre ++ (n, r.chunk.body.appended) :: post ∧
      n ∉ pre.map Prod.fst ∧ n ∉ post.map Prod.fst ∧ r.chunk.start = (stamp pre).length ∧
      r.chunk.start ≤ r.chunk.stop ∧
      r.chunk.body.appended.length = r.chunk.stop + 1 - r.chunk.start := by
  obtain ⟨c, stage⟩ := r
  cases stage with
  | accepted rangeEnd =>
    by_cases hn : n ∈ pieces.map Prod.fst
    · obtain ⟨pre, w, post, hp, hpre, hpost⟩ := h.split hn
      obtain ⟨r, hr, horder, hfits, hprogress, hstart, -⟩ := h.each pre n w post hp
      obtain rfl := Option.some.inj (hreq.symm.trans hr)
      obtain rfl : w = c.body.appended := hprogress
      exact ⟨pre, post, hp, hpre, hpost, hstart, horder, hfits.2.2⟩
    · exact (h.others n _ hreq hn).elim
  | sent | refused | appending | appended | failed | panicked => exact hacc.elim

theorem Laid.occupies (h : Laid s pieces) {r : Patch} (hreq : s.requests[n]? = some r)
    (hacc : r.stage.Accepted) : Occupies s.file n r.chunk := by
  obtain ⟨pre, post, hp, hpre, hpost, hstart, horder, hlength⟩ := h.accepted hreq hacc
  rw [Occupies, h.file, hp, hstart]
  refine ⟨?_, ?_⟩
  · intro i
    rw [stamp_fst_iff hpre hpost, hlength]
    omega
  · rw [← hstart, ← hlength, hstart, stamp_slice]
    simp [Function.comp_def]

/-- Pieces that are laid out are where they say. -/
theorem Laid.inPlace (h : Laid s pieces) : InPlace s where
  occupies _ _ hreq hacc := h.occupies hreq hacc
  disjoint m n q r hq hr hqacc hracc hmn i := by
    rintro ⟨hqi, hri⟩
    have hm := ((h.occupies hq hqacc).1 i).mpr hqi
    have hn := ((h.occupies hr hracc).1 i).mpr hri
    exact hmn (Option.some.inj (hm.symm.trans hn))
  inOrder := by
    refine ⟨pieces, h.file, h.once, ?_, ?_⟩
    · intro n r hreq hacc
      obtain ⟨pre, post, rfl, -⟩ := h.accepted hreq hacc
      simp
    · intro pre n w post hp
      obtain ⟨r, hr, -, -, hprogress, hstart, hlast⟩ := h.each pre n w post hp
      obtain ⟨htakes, hprefix, hwhole⟩ := progress_spec hprogress
      refine ⟨r, hr, htakes, hstart, hprefix, ?_⟩
      rintro (hacc | hpost)
      · exact hwhole hacc
      · exact hlast hpost

end

/-- RANGED CHUNKS LAND WHERE THEY SAY, in every state of every run in which each request that passes
    the comparison brings a body of the length of its range while no other has anything left to
    append. -/
theorem ranges_in_place {events : List PatchEvent} {t : SharedUpload}
    (hgood : patching.Meets Ordered patching.init events)
    (hrun : patching.run patching.init events = some t) : InPlace t := by
  obtain ⟨pieces, h⟩ := patching.run_inv_of_meets (I := fun s => ∃ pieces, Laid s pieces)
    (fun s e s' ⟨_, h⟩ hgood hstep => laid_step h hgood hstep) ⟨[], laid_start⟩ hgood hrun
  exact h.inPlace

/-! ### One chunk sent twice -/

/-- Five bytes for the first five places. -/
def chunkOf (start stop : ℕ) (text : String) : Chunk :=
  ⟨start, stop, Body.of [text.toUTF8.toList], true, true⟩

/-- A PATCH and the next one, each alone. -/
def helloRun : List PatchEvent :=
  [.send (chunkOf 0 4 "hello"), .check 0, .append 0, .append 0, .report 0,
   .send (chunkOf 5 11 ", world"), .check 1, .append 1, .append 1, .report 1]

theorem ranges_in_place_hello :
    ∃ t, patching.run patching.init helloRun = some t ∧ InPlace t := by
  have hsome : (patching.run patching.init helloRun).isSome := by decide +kernel
  obtain ⟨t, ht⟩ := Option.isSome_iff_exists.mp hsome
  exact ⟨t, ht, ranges_in_place (by decide +kernel) ht⟩

/-- A client sends a chunk again before the first answer; both look at the empty file, and both are
    accepted. -/
def twiceRun : List PatchEvent :=
  [.send (chunkOf 0 4 "hello"), .send (chunkOf 0 4 "hello"), .check 0, .check 1, .append 0,
   .append 0, .report 0, .append 1, .append 1, .report 1]

theorem chunk_twice : ∃ t, patching.run patching.init twiceRun = some t ∧ ¬ InPlace t := by
  have hrun : (patching.run patching.init twiceRun).map
      (fun s => (s.requests.map (fun r => (r.chunk.start, r.chunk.stop, r.stage)))) =
        some [(0, 4, .accepted 4), (0, 4, .accepted 9)] := by decide +kernel
  obtain ⟨t, ht, hrequests⟩ := Option.map_eq_some_iff.mp hrun
  refine ⟨t, ht, ?_⟩
  obtain ⟨q, rest, hq, hqs, hrest⟩ := List.map_eq_cons_iff.mp hrequests
  obtain ⟨r, rest, rfl, hrs, -⟩ := List.map_eq_cons_iff.mp hrest
  obtain ⟨hqstart, hq'⟩ := Prod.mk.inj hqs
  obtain ⟨hqstop, hqstage⟩ := Prod.mk.inj hq'
  obtain ⟨hrstart, hr'⟩ := Prod.mk.inj hrs
  obtain ⟨hrstop, hrstage⟩ := Prod.mk.inj hr'
  have hqacc : q.stage.Accepted := by rw [hqstage]; trivial
  have hracc : r.stage.Accepted := by rw [hrstage]; trivial
  intro h
  refine h.disjoint 0 1 q r (by rw [hq]; rfl) (by rw [hq]; rfl) hqacc hracc (by decide) 0 ?_
  omega

end Distribd.Registry
