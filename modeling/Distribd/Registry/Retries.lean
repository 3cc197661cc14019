import Distribd.Registry.Sessions

/-! What a client finds that goes on with its session: what a failed PUT has left of it, and what the
    answers say about its progress.

    The PUT appends its body before it checks anything about the content, and none of its ways to
    fail takes the bytes back; once the file has moved it is gone from the session also if raft
    fails. A PATCH with a wrong range and a manifest PUT leave nothing behind. So a PUT that is not
    answered 201 keeps the session only if it is turned away before, or appends nothing and does not
    get as far as the move (`put_keeps_iff`).

    Three of the four reports of the progress end with `size - 1` for a file that is not empty and
    with 0 for one that is. The GET has no such guard, and wraps on an empty session
    (`reports_agree_iff`). -/

namespace Distribd.Registry
open Schemes Store Cluster
open Node (Bytes)

/-! ### A failed PUT -/

/-- The PUT gets as far as the file: the token may push, the algorithm is SHA-256 and the session
    exists. -/
def Reaches (s : Local) (token : Token) (repository : RepositoryName) (uploadId : String)
    (digest : Digest) (content : Bytes) : Prop :=
  token.hasPermission repository "push" = true ∧ digest.algo = "sha256" ∧
    s.uploads uploadId = some content

/-- The file moves: the whole body is appended, the content can be read and has the digest, and the
    file can be looked up and renamed. -/
def Moves (sha : Sha256) (content : Bytes) (digest : Digest) (body : Body) (io : Io) : Prop :=
  body.result = .complete ∧ io.readable ∧ sha.digest (content ++ body.appended) = digest ∧
    io.stat ∧ io.renamed

section

variable {s : Local} {sha : Sha256} {now : Clock} {token : Token} {repository : RepositoryName}
  {uploadId : String} {digest : Digest} {body : Body} {io : Io} {content : Bytes}

/-- A PUT that does not get there changes nothing, and is not answered 201. -/
theorem put_of_not_reaches (h : ∀ content, ¬ Reaches s token repository uploadId digest content) :
    (s.put sha now token repository uploadId digest body io).2 = s ∧
      (s.put sha now token repository uploadId digest body io).1 ≠ some (.ok (.created digest)) := by
  have hrefuse : ∀ e, (s.refuse e).2 = s ∧ (s.refuse e).1 ≠ some (.ok (.created digest)) := by
    intro e
    exact ⟨rfl, nofun⟩
  unfold Local.put Local.authorized
  split
  · exact hrefuse _
  · split
    · rename_i hpush
      split
      · exact hrefuse _
      · rename_i halgo
        split
        · exact hrefuse _
        · rename_i content hcontent
          exact absurd ⟨hpush, not_not.mp halgo, hcontent⟩ (h content)
    · exact hrefuse _

/-- One that gets there ends the upload. -/
theorem put_of_reaches (h : Reaches s token repository uploadId digest content) :
    s.put sha now token repository uploadId digest body io =
      s.finish sha now token.sub repository uploadId content digest body io := by
  obtain ⟨hpush, halgo, hcontent⟩ := h
  rw [Local.put, authorized_of_hasPermission hpush, if_neg (not_not.mpr halgo), hcontent]

/-- Without a move the body stays appended. -/
theorem finish_of_not_moves {user : String} (h : ¬ Moves sha content digest body io) :
    (s.finish sha now user repository uploadId content digest body io).2 =
        s.setUpload uploadId (some (content ++ body.appended)) ∧
      (s.finish sha now user repository uploadId content digest body io).1 ≠
        some (.ok (.created digest)) := by
  unfold Local.finish
  cases hresult : body.result with
  | panicked => exact ⟨rfl, nofun⟩
  | failed => exact ⟨rfl, nofun⟩
  | complete =>
    by_cases hread : io.readable ∧ sha.digest (content ++ body.appended) = digest
    · have hmove : ¬ (io.stat ∧ io.renamed) :=
        fun hio => h ⟨hresult, hread.1, hread.2, hio.1, hio.2⟩
      simp only [if_pos hread, if_neg hmove]
      exact ⟨rfl, nofun⟩
    · simp only [if_neg hread]
      exact ⟨rfl, nofun⟩

/-- With it the session is gone, and the answer is 201 exactly if raft does its part. -/
theorem finish_of_moves {user : String} (h : Moves sha content digest body io) :
    (s.finish sha now user repository uploadId content digest body io).2.uploads uploadId = none ∧
      ((s.finish sha now user repository uploadId content digest body io).1 =
        some (.ok (.created digest)) ↔ io.logged) := by
  obtain ⟨hresult, hreadable, hdigest, hstat, hrenamed⟩ := h
  unfold Local.finish
  simp only [hresult, hreadable, hdigest, hstat, hrenamed, and_self, if_true]
  cases hlogged : io.logged with
  | false => simp [Local.consistentWrite, Local.refuse, Local.setObject]
  | true =>
    obtain ⟨trees, hwrite, -⟩ := consistentWrite_upload
      (((s.setUpload uploadId (some (content ++ body.appended))).setUpload uploadId none).setObject
        .blob digest (content ++ body.appended)) now repository digest
      (content ++ body.appended).length user
    simp only [hwrite]
    refine ⟨setUpload_self .., ?_⟩
    simp

/-- A FAILED PUT KEEPS THE SESSION, whatever it held, exactly if the PUT succeeds after all, does not
    get as far as the file, or neither appends anything nor moves the file; and then it leaves the
    node as it was, unless it succeeds. -/
theorem put_keeps_iff (s : Local) (sha : Sha256) (now : Clock) (token : Token)
    (repository : RepositoryName) (uploadId : String) (digest : Digest) (body : Body) (io : Io) :
    let out := s.put sha now token repository uploadId digest body io
    ((out.1 ≠ some (.ok (.created digest)) → out.2.uploads uploadId = s.uploads uploadId) ↔
      ∀ content, Reaches s token repository uploadId digest content →
        (Moves sha content digest body io ∧ io.logged) ∨
          (body.appended = [] ∧ ¬ Moves sha content digest body io)) ∧
    ((∀ content, Reaches s token repository uploadId digest content →
        body.appended = [] ∧ ¬ Moves sha content digest body io) → out.2 = s) := by
  by_cases hreach : ∃ content, Reaches s token repository uploadId digest content
  · obtain ⟨content, hreach⟩ := hreach
    have honly : ∀ {content'}, Reaches s token repository uploadId digest content' →
        content' = content := by
      intro content' h
      exact Option.some.inj (h.2.2.symm.trans hreach.2.2)
    simp only [put_of_reaches hreach]
    by_cases hmoves : Moves sha content digest body io
    · have hfinish : (s.finish sha now token.sub repository uploadId content digest body
          io).2.uploads uploadId = none ∧ _ := finish_of_moves hmoves
      obtain ⟨hgone, hcreated⟩ := hfinish
      rw [hgone, hreach.2.2]
      refine ⟨?_, fun h => absurd hmoves (h content hreach).2⟩
      constructor
      · intro h content' hreach'
        obtain rfl := honly hreach'
        refine .inl ⟨hmoves, ?_⟩
        by_contra hlogged
        cases h fun hok => hlogged (hcreated.mp hok)
      · intro h hfailed
        rcases h content hreach with ⟨-, hlogged⟩ | ⟨-, hnot⟩
        · exact absurd (hcreated.mpr hlogged) hfailed
        · exact absurd hmoves hnot
    · have hfinish : (s.finish sha now token.sub repository uploadId content digest body io).2 =
          s.setUpload uploadId (some (content ++ body.appended)) ∧ _ := finish_of_not_moves hmoves
      obtain ⟨hstate, hfailed⟩ := hfinish
      rw [hstate, setUpload_self, hreach.2.2]
      refine ⟨?_, ?_⟩
      · constructor
        · intro h content' hreach'
          obtain rfl := honly hreach'
          exact .inr ⟨by simpa using h hfailed, hmoves⟩
        · intro h _
          rcases h content hreach with ⟨hmoves', -⟩ | ⟨hnil, -⟩
          · exact absurd hmoves' hmoves
          · rw [hnil, List.append_nil]
      · intro h
        rw [(h content hreach).1, List.append_nil, ← hreach.2.2]
        simp [Local.setUpload]
  · have hnot : ∀ content, ¬ Reaches s token repository uploadId digest content :=
      fun content h => hreach ⟨content, h⟩
    have hput : (s.put sha now token repository uploadId digest body io).2 = s ∧ _ :=
      put_of_not_reaches hnot
    obtain ⟨hsame, hfailed⟩ := hput
    refine ⟨iff_of_true (fun _ => by rw [hsame]) ?_, fun _ => hsame⟩
    exact fun content h => absurd h (hnot content)

end

/-- The session holds `hello`, and a PUT brings two bytes too many for the digest. -/
theorem put_spoils_session :
    let out := sessionPatched.put helloSha (ticking 10) .anonymous ⟨"library/a"⟩ "u1" helloDigest
      (Body.of [", world".toUTF8.toList, "!!".toUTF8.toList]) .ok
    out.1 ≠ some (.ok (.created helloDigest)) ∧
      out.2.uploads "u1" ≠ sessionPatched.uploads "u1" := by
  refine ⟨?_, by decide +kernel⟩
  intro h
  have hfailed : (sessionPatched.put helloSha (ticking 10) .anonymous ⟨"library/a"⟩ "u1"
      helloDigest (Body.of [", world".toUTF8.toList, "!!".toUTF8.toList]) .ok).1.bind
        Except.toOption = none := by decide +kernel
  rw [h] at hfailed
  cases hfailed

/-! ### Progress -/

/-- The last offset of a file of this size. -/
def lastOffset (size : ℕ) : ℕ := size - 1

theorem guardedPred_eq {size : ℕ} (h : size < 2 ^ 64) : guardedPred size = lastOffset size := by
  unfold guardedPred lastOffset u64Pred
  split <;> omega

/-- Without a guard only if the file is not empty. -/
theorem u64Pred_eq_iff {size : ℕ} (h : size < 2 ^ 64) :
    u64Pred size = lastOffset size ↔ size ≠ 0 := by
  unfold lastOffset u64Pred
  omega

/-- The GET of an empty session. -/
theorem rangeText_u64Pred_zero : rangeText (u64Pred 0) ≠ rangeText (lastOffset 0) := by
  decide +kernel

/-- What the answers about a session say in this state: a GET in it, the PATCH or the POST that has
    led to it, and a PATCH in it whose range does not fit. -/
structure ReportsAgree (s : Local) (uploadId : String) (size : ℕ) : Prop where
  get : ∀ token repository, token.hasPermission repository "pull" →
    (s.get token repository uploadId true).1 =
      some (.ok (.progress uploadId (rangeText (lastOffset size))))
  patched : ∀ (s₀ : Local) token repository contentRange body sized stat range,
    s₀.patch token repository uploadId contentRange body sized stat =
      (some (.ok (.accepted uploadId range)), s) → range = rangeText (lastOffset size)
  refused : ∀ token repository contentRange body stat e range,
    (s.patch token repository uploadId contentRange body true stat).1 = some (.error e) →
      e.range = some range → range = rangeText (lastOffset size)
  opened : ∀ (s₀ : Local) token repository created range,
    s₀.post token repository uploadId created = (some (.ok (.opened uploadId range)), s) →
      range = rangeText (lastOffset size)

section

variable {s : Local} {token : Token} {repository : RepositoryName} {uploadId : String}
  {content : Bytes}

/-- What a GET reports. -/
theorem get_reports (hs : s.uploads uploadId = some content)
    (hpull : token.hasPermission repository "pull" = true) :
    (s.get token repository uploadId true).1 =
      some (.ok (.progress uploadId (rangeText (u64Pred content.length)))) := by
  simp [Local.get, authorized_of_hasPermission hpull, hs]

/-- What an accepted PATCH reports. -/
theorem patch_reports {s₀ : Local} {contentRange : Option String} {body : Body}
    {sized stat : Bool} {range : String} (hs : s.uploads uploadId = some content)
    (h : s₀.patch token repository uploadId contentRange body sized stat =
      (some (.ok (.accepted uploadId range)), s)) :
    range = rangeText (guardedPred content.length) := by
  rcases patch_cases h with ⟨-, e, he⟩ | ⟨-, content', -, rfl, happend, -⟩
  · cases he
  · obtain rfl := Option.some.inj (hs.symm.trans (setUpload_self ..))
    have hreply := congrArg Prod.fst happend
    unfold Local.append at hreply
    simp only at hreply
    split at hreply
    · cases hreply
    · cases hreply
    · split at hreply
      · cases hreply
        rfl
      · cases hreply

/-- What a PATCH reports whose range does not fit. -/
theorem refused_reports {contentRange : Option String} {body : Body} {stat : Bool}
    {e : RegistryError} {range : String} (hs : s.uploads uploadId = some content)
    (h : (s.patch token repository uploadId contentRange body true stat).1 = some (.error e))
    (hrange : e.range = some range) : range = rangeText (guardedPred content.length) := by
  have hother : ∀ {e'}, (s.refuse e').1 = some (.error e) → e'.range = some range := by
    rintro e' ⟨⟩
    exact hrange
  have happend : (s.append uploadId content body stat).1 ≠ some (.error e) := by
    intro happend
    unfold Local.append at happend
    simp only at happend
    repeat' split at happend
    all_goals cases happend
    all_goals cases hrange
  unfold Local.patch Local.authorized at h
  rw [hs] at h
  split at h
  · cases hother h
  · split at h
    · simp only [if_true] at h
      split at h
      · split at h
        · exact (Option.some.inj (hother h)).symm
        · split at h
          · exact (Option.some.inj (hother h)).symm
          · exact absurd h happend
      · exact absurd h happend
    · cases hother h

/-- REPORTS AGREE on a session exactly if it is not empty. -/
theorem reports_agree_iff (hs : s.uploads uploadId = some content)
    (hlen : content.length < 2 ^ 64) :
    ReportsAgree s uploadId content.length ↔ content ≠ [] := by
  constructor
  · rintro h rfl
    have hpull : Token.anonymous.hasPermission ⟨"library/a"⟩ "pull" = true := by decide
    have hget := h.get .anonymous ⟨"library/a"⟩ hpull
    rw [get_reports hs hpull] at hget
    have htext : rangeText (u64Pred 0) = rangeText (lastOffset 0) := by simpa using hget
    exact rangeText_u64Pred_zero htext
  · intro hne
    have hguarded := guardedPred_eq hlen
    have hpos : content.length ≠ 0 := fun h => hne (List.length_eq_zero_iff.mp h)
    refine ⟨?_, ?_, ?_, ?_⟩
    · intro token repository hpull
      rw [get_reports hs hpull, (u64Pred_eq_iff hlen).mpr hpos]
    · intro s₀ token repository contentRange body sized stat range h
      rw [patch_reports hs h, hguarded]
    · intro token repository contentRange body stat e range h hrange
      rw [refused_reports hs h hrange, hguarded]
    · intro s₀ token repository created range h
      obtain ⟨hnil, -⟩ := uploads_of_opened h
      exact absurd (Option.some.inj (hs.symm.trans hnil)) hne

end

/-- After a PATCH with `hello`. -/
theorem reports_agree_sessionPatched : ReportsAgree sessionPatched "u1" 5 := by
  have hs : sessionPatched.uploads "u1" = some "hello".toUTF8.toList := by decide +kernel
  have hagree := (reports_agree_iff hs (by decide +kernel)).mpr (by decide +kernel)
  rwa [show "hello".toUTF8.toList.length = 5 by decide +kernel] at hagree

/-- Right after the POST, which has said `0-0`. -/
theorem reports_disagree_sessionOpen :
    (Local.new 1).post .anonymous ⟨"library/a"⟩ "u1" true =
      (some (.ok (.opened "u1" "0-0")), sessionOpen) ∧
    (sessionOpen.get .anonymous ⟨"library/a"⟩ "u1" true).1 =
      some (.ok (.progress "u1" "0-18446744073709551615")) ∧
    ¬ ReportsAgree sessionOpen "u1" 0 := by
  refine ⟨rfl, rfl, ?_⟩
  intro h
  have hget := h.get .anonymous ⟨"library/a"⟩ rfl
  have htext : rangeText (u64Pred 0) = rangeText (lastOffset 0) := by
    have hreport := get_reports (s := sessionOpen) (show sessionOpen.uploads "u1" = some [] from rfl)
      (show Token.anonymous.hasPermission ⟨"library/a"⟩ "pull" = true from rfl)
    simpa using hreport.symm.trans hget
  exact rangeText_u64Pred_zero htext

end Distribd.Registry
