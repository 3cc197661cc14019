import Distribd.Registry.Paths

/-! Digests as text, in both directions (`types/digest.rs`). `Display` writes algorithm and hash with
    a colon in between; `from_str` and `try_from` read the first two pieces between colons of a text
    with the prefix `sha256:`, and drop the others without an error. So what is read has a text of
    its own that reads back (`text_of_tryFrom`), but it is the text that was read exactly if that has
    no further colon (`canonical_iff`). -/

namespace Distribd.Registry
open Schemes

/-- The text of a digest, as `Display` writes it. -/
def Digest.text (d : Digest) : String := d.algo ++ ":" ++ d.hash

/-- The text of a SHA-256 digest, whatever its hash. -/
def IsSha256 (text : String) : Prop :=
  ∃ hash : List Char, ':' ∉ hash ∧ text.toList = "sha256:".toList ++ hash

/-- A text with the prefix parses, up to the next colon. -/
theorem tryFrom_of_prefix {text : String} {rest : List Char}
    (h : text.toList = "sha256:".toList ++ rest) :
    ∃ hash, Digest.tryFrom text = some ⟨"sha256", String.ofList hash⟩ ∧ ':' ∉ hash ∧
      (':' ∉ rest → hash = rest) := by
  have hsplit : text.toList.splitOn ':' = "sha256".toList :: rest.splitOn ':' := by
    rw [h, show "sha256:".toList ++ rest = "sha256".toList ++ ':' :: rest from rfl]
    exact List.splitOn_append_cons_self_of_not_mem (by decide) rest
  have hprefix : "sha256:".toList.isPrefixOf text.toList = true := by
    rw [List.isPrefixOf_iff_prefix, h]
    exact List.prefix_append _ _
  have hname : String.ofList "sha256".toList = "sha256" := String.ofList_toList
  rw [Digest.tryFrom, if_pos hprefix, hsplit]
  by_cases hcolon : ':' ∈ rest
  · obtain ⟨hash, post, rfl, hhash⟩ := List.eq_append_cons_of_mem hcolon
    rw [List.splitOn_append_cons_self_of_not_mem hhash]
    exact ⟨hash, by rw [digestOfPieces, hname], hhash, fun hnot => (hnot hcolon).elim⟩
  · rw [List.splitOn_eq_singleton hcolon]
    exact ⟨rest, by rw [digestOfPieces, hname], hcolon, fun _ => rfl⟩

/-- What parses has the prefix. -/
theorem prefix_of_tryFrom {text : String} {d : Digest} (h : Digest.tryFrom text = some d) :
    "sha256:".toList <+: text.toList := by
  by_contra hnot
  rw [Digest.tryFrom, if_neg (by rwa [List.isPrefixOf_iff_prefix])] at h
  cases h

/-- What parses has a text, which is the text that was read unless that has a further colon. -/
theorem text_of_tryFrom {text : String} {d : Digest} (h : Digest.tryFrom text = some d) :
    IsSha256 (Digest.text d) ∧ (IsSha256 text → Digest.text d = text) := by
  obtain ⟨rest, hrest⟩ := prefix_of_tryFrom h
  obtain ⟨hash, hparse, hhash, hsame⟩ := tryFrom_of_prefix hrest.symm
  obtain rfl := Option.some.inj (hparse.symm.trans h)
  have htext : (Digest.text ⟨"sha256", String.ofList hash⟩).toList = "sha256:".toList ++ hash := by
    simp [Digest.text]
  refine ⟨⟨hash, hhash, htext⟩, ?_⟩
  rintro ⟨hash', hhash', heq⟩
  obtain rfl := List.append_cancel_left (hrest.trans heq)
  obtain rfl := hsame hhash'
  exact String.toList_injective (htext.trans heq.symm)

theorem tryFrom_of_isSha256 {text : String} (h : IsSha256 text) :
    (Digest.tryFrom text).isSome := by
  obtain ⟨rest, -, hrest⟩ := h
  obtain ⟨hash, hparse, -⟩ := tryFrom_of_prefix hrest
  rw [hparse]
  rfl

/-! ### Parsed digests -/

/-- A digest that has been read from a text. The program has no others: `from_sha256` makes one that
    could have been read too (`parsed_of_wellFormed`). -/
def Parsed (d : Digest) : Prop := Digest.tryFrom (Digest.text d) = some d

instance (d : Digest) : Decidable (Parsed d) := inferInstanceAs (Decidable (_ = _))

/-- What has been read reads back. -/
theorem parsed_of_tryFrom {text : String} {d : Digest} (h : Digest.tryFrom text = some d) :
    Parsed d := by
  obtain ⟨rest, hrest⟩ := prefix_of_tryFrom h
  obtain ⟨hash, hparse, hhash, -⟩ := tryFrom_of_prefix hrest.symm
  obtain rfl := Option.some.inj (hparse.symm.trans h)
  have htext : (Digest.text ⟨"sha256", String.ofList hash⟩).toList = "sha256:".toList ++ hash := by
    simp [Digest.text]
  obtain ⟨hash', hparse', -, hsame⟩ := tryFrom_of_prefix htext
  obtain rfl := hsame hhash
  exact hparse'

/-- The text of a parsed digest is no other digest's. -/
theorem eq_of_text_eq {d d' : Digest} (hd : Parsed d) (heq : Digest.text d' = Digest.text d) :
    d' = d := by
  obtain ⟨hash, hhash, htext⟩ := (text_of_tryFrom hd).1
  have hone : (Digest.text d).toList.count ':' = 1 := by
    rw [htext, List.count_append, List.count_eq_zero.mpr hhash]
    rfl
  have hpieces : ∀ d : Digest,
      (Digest.text d).toList = d.algo.toList ++ ':' :: d.hash.toList := by
    intro d
    simp [Digest.text]
  -- with one colon in the text there is none in the pieces
  have hcolon : ∀ e : Digest, Digest.text e = Digest.text d →
      ':' ∉ e.algo.toList ∧ ':' ∉ e.hash.toList := by
    intro e he
    rw [← he, hpieces, List.count_append, List.count_cons_self] at hone
    exact ⟨List.count_eq_zero.mp (by omega), List.count_eq_zero.mp (by omega)⟩
  obtain ⟨halgo, hhash⟩ := hcolon d' heq
  have hlist := congrArg String.toList heq
  rw [hpieces, hpieces, List.append_cons_inj_of_notMem halgo hhash] at hlist
  obtain ⟨algo, hash⟩ := d
  obtain ⟨algo', hash'⟩ := d'
  obtain rfl : algo' = algo := String.toList_injective hlist.1
  obtain rfl : hash' = hash := String.toList_injective hlist.2.2
  rfl

theorem parsed_of_wellFormed {d : Digest} (h : WellFormed d) : Parsed d := by
  obtain ⟨algo, hash⟩ := d
  obtain ⟨rfl, -, hhex⟩ := h
  have hcolon : ':' ∉ hash.toList := by
    intro hmem
    have hhex' := hhex ':' hmem
    revert hhex'
    decide
  have htext : (Digest.text ⟨"sha256", hash⟩).toList = "sha256:".toList ++ hash.toList := by
    simp [Digest.text]
  obtain ⟨hash', hparse, -, hsame⟩ := tryFrom_of_prefix htext
  rw [hsame hcolon, String.ofList_toList] at hparse
  exact hparse

/-! ### Canonical texts -/

/-- The two parsers agree on the text, formatting what they read gives the text back, and what they
    read can be read again from its own text. -/
structure Canonical (s : String) : Prop where
  agree : Digest.fromStr s = Digest.tryFrom s
  format : ∀ d, Digest.fromStr s = some d → Digest.text d = s
  parse : ∀ d, Digest.fromStr s = some d → Digest.fromStr (Digest.text d) = some d

/-- The two parsers are one code. -/
theorem fromStr_eq_tryFrom (s : String) : Digest.fromStr s = Digest.tryFrom s := rfl

/-- CANONICAL, exactly: two texts are canonical, with one digest for both only if they are one text,
    exactly if neither, when it is accepted at all, has a colon after the prefix. -/
theorem canonical_iff (s s' : String) :
    (Canonical s ∧ Canonical s' ∧ ∀ d d', Digest.fromStr s = some d → Digest.fromStr s' = some d' →
      Digest.text d = Digest.text d' → s = s') ↔
    ((Digest.fromStr s).isSome → IsSha256 s) ∧ ((Digest.fromStr s').isSome → IsSha256 s') := by
  have hcanonical : ∀ t : String, Canonical t ↔ ((Digest.fromStr t).isSome → IsSha256 t) := by
    intro t
    constructor
    · intro h hsome
      obtain ⟨d, hd⟩ := Option.isSome_iff_exists.mp hsome
      have hsha := (text_of_tryFrom hd).1
      rwa [h.format d hd] at hsha
    · intro h
      refine ⟨fromStr_eq_tryFrom t, ?_, ?_⟩
      · intro d hd
        exact (text_of_tryFrom hd).2 (h (Option.isSome_of_mem hd))
      · intro d hd
        exact parsed_of_tryFrom hd
  rw [hcanonical, hcanonical, ← and_assoc]
  refine and_iff_left_of_imp ?_
  rintro ⟨hs, hs'⟩ d d' hd hd' htext
  have hd₁ := ((hcanonical s).mpr hs).format d hd
  have hd₂ := ((hcanonical s').mpr hs').format d' hd'
  exact hd₁.symm.trans (htext.trans hd₂)

/-- Two texts of one digest: what follows the further colon is dropped. -/
theorem further_colon_dropped :
    Digest.fromStr "sha256:abcdef" = some ⟨"sha256", "abcdef"⟩ ∧
      Digest.fromStr "sha256:abcdef:01" = some ⟨"sha256", "abcdef"⟩ ∧
      Digest.text ⟨"sha256", "abcdef"⟩ = "sha256:abcdef" ∧ ¬ Canonical "sha256:abcdef:01" := by
  have hread : Digest.fromStr "sha256:abcdef:01" = some ⟨"sha256", "abcdef"⟩ := by decide
  have htext : Digest.text ⟨"sha256", "abcdef"⟩ ≠ "sha256:abcdef:01" := by decide
  exact ⟨by decide, hread, by decide, fun h => htext (h.format _ hread)⟩

end Distribd.Registry
