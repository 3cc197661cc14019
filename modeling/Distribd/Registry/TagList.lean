import Distribd.Schemes.Url
import Distribd.Registry.Sessions

/-! Listing the tags of a repository, page by page (`registry/tags/get.rs`). A client asks for the
    tags after `last`, at most `n` of them, and follows the `Link` of the answer to the next page.
    The handler cuts the sorted tags at the position of `last`, which it does not find if there is no
    such tag, and keeps `last` itself; then it takes a slice of `n` tags, which there may not be. The
    last tag of the page goes into the text of the link as it is: with a control character in it the
    text is no header value and the answer is a 500, and a client that follows the link may ask for
    something else than it says.

    So a page is what was asked for only if nothing is cut at the front, or no tags are wanted, and
    its link is a header value (`page_iff`). Following the links gives every tag once if the first
    page has them all; otherwise each link would have to be read as one to the tag after the page,
    which no tag that a URL carries literally brings about (`tag_pages_iff`). -/

namespace Distribd.Registry
open Schemes Store

namespace Tags

/-! ### The handler -/

/-- `TagQuery`. -/
structure TagQuery where
  last : Option String
  n : Option ℕ
  deriving DecidableEq

/-- The query of a `Link` header. -/
structure Link where
  last : Option String
  n : Option ℕ
  deriving DecidableEq

/-- What follows the path. -/
def Link.suffix (link : Link) : String :=
  let fragments := (link.last.map fun tag => "last=" ++ tag).toList ++
    (link.n.map fun n => "n=" ++ toString n).toList
  if fragments = [] then "" else "?" ++ "&".intercalate fragments

/-- The text of the header. -/
def Link.header (repository : RepositoryName) (link : Link) : String :=
  "/v2/" ++ repository.name ++ "/tags/list" ++ link.suffix ++ "; rel=\"next\""

/-- `HeaderValue`: no control characters but the tab. -/
def isHeaderValue (text : String) : Bool :=
  text.toList.all fun c => (32 ≤ c.toNat && c.toNat ≠ 127) || c = '\t'

/-- A `200 OK`: the name and the tags of the body, and the header. -/
structure TagPage where
  name : RepositoryName
  tags : List String
  link : Option String
  deriving DecidableEq

/-- The response; a builder that was given an invalid header answers with an error. -/
inductive TagResponse where
  | page (page : TagPage)
  | internalServerError
  deriving DecidableEq

/-- `RegistryApp::get_tags`. -/
def getTags? (app : App) (repository : RepositoryName) : Option (List String) :=
  some (getTags app.trees repository)

/-- `if let Some(last)`: the tags from `last` on; `none`: the `unwrap` of its position panics. -/
def cutFront (last : Option String) (tags : List String) : Option (List String) :=
  match last with
  | some last => (tags.findIdx? fun r => r = last).map tags.drop
  | none => some tags

/-- `if let Some(n)`: the first `n` tags, and whether there are more; `none`: the slice panics. -/
def cutBack (n : Option ℕ) (tags : List String) : Option (List String × Bool) :=
  match n with
  | some n => if n ≤ tags.length then some (tags.take n, decide (n < tags.length)) else none
  | none => some (tags, false)

/-- From the tags to the answer. -/
def page (repository : RepositoryName) (query : TagQuery) (tags : List String) :
    Option TagResponse :=
  (cutFront query.last (tags.insertionSort (· ≤ ·))).bind fun tags =>
    (cutBack query.n tags).map fun (tags, includeLink) =>
      let link := if includeLink then some (Link.header repository ⟨tags.getLast?, query.n⟩) else none
      if link.all isHeaderValue then .page ⟨repository, tags, link⟩ else .internalServerError

/-- `registry::tags::get`; `none`: it panics. -/
def get (app : App) (token : Token) (repository : RepositoryName) (query : TagQuery) :
    Option (Except RegistryError TagResponse) :=
  if h : token.validatedToken = false then
    some (.error (.mustAuthenticate (token.getPullChallenge h app.order repository)))
  else if token.hasPermission repository "pull" then
    match getTags? app repository with
    | some tags => (page repository query tags).map .ok
    | none => some (.error .repositoryNotFound)
  else some (.error .accessDenied)

/-! ### What is asked for -/

/-- The tags in order that come after `last`. -/
def tagsAfter (last : Option String) (tags : List String) : List String :=
  (tags.insertionSort (· ≤ ·)).filter fun tag => last.all fun last => decide (last < tag)

/-- The first `n` of them, or all. -/
def wanted (query : TagQuery) (tags : List String) : List String :=
  match query.n with
  | some n => (tagsAfter query.last tags).take n
  | none => tagsAfter query.last tags

/-- The page has the tags that are asked for, and a link exactly if there are more. -/
def AsAsked (query : TagQuery) (tags : List String) (p : TagPage) : Prop :=
  p.tags = wanted query tags ∧
    (p.link.isSome ↔ (wanted query tags).length < (tagsAfter query.last tags).length)

/-- A client that begins with this query gets these tags, and then comes to a page without a link.
    What the client makes of a link, and the server of the request, is up to `reads`. -/
inductive Follows (app : App) (token : Token) (repository : RepositoryName)
    (reads : String → Option TagQuery) : TagQuery → List String → Prop
  | last {query : TagQuery} {p : TagPage}
      (h : get app token repository query = some (.ok (.page p))) (hlink : p.link = none) :
      Follows app token repository reads query p.tags
  | next {query query' : TagQuery} {p : TagPage} {link : String} {rest : List String}
      (h : get app token repository query = some (.ok (.page p))) (hlink : p.link = some link)
      (hreads : reads link = some query') (hrest : Follows app token repository reads query' rest) :
      Follows app token repository reads query (p.tags ++ rest)

/-- The links from a page of `n` of these tags on lead through them: the page has them all; or its link
    is a header value that is read as one to the tag after the page, and so on from there. -/
inductive LinksLead (repository : RepositoryName) (reads : String → Option TagQuery) :
    Option ℕ → List String → Prop
  | all (tags : List String) : LinksLead repository reads none tags
  | whole (tags : List String) : LinksLead repository reads (some tags.length) tags
  | next {n : ℕ} {n' : Option ℕ} {tags : List String} (hpos : 0 < n) (hlt : n < tags.length)
      (hvalid : isHeaderValue (Link.header repository ⟨(tags.take n).getLast?, some n⟩))
      (hreads : reads (Link.header repository ⟨(tags.take n).getLast?, some n⟩) =
        some ⟨(tags.drop n).head?, n'⟩)
      (hrest : LinksLead repository reads n' (tags.drop n)) :
      LinksLead repository reads (some n) tags

/-! ### Cuts -/

section

variable {tags : List String} {last : String}

/-- The tags are sorted, and none is there twice. -/
theorem sorted_lt (h : tags.Nodup) : (tags.insertionSort (· ≤ ·)).Pairwise (· < ·) := by
  have hnodup := (List.perm_insertionSort (· ≤ ·) tags).nodup_iff.mpr h
  exact (List.pairwise_insertionSort (· ≤ ·) tags).imp₂ (fun _ _ hle hne => lt_of_le_of_ne hle hne)
    hnodup

/-- Only which tags there are matters. -/
theorem insertionSort_congr {tags' : List String} (h : tags'.Perm tags) :
    tags'.insertionSort (· ≤ ·) = tags.insertionSort (· ≤ ·) := by
  have hperm := (List.perm_insertionSort (· ≤ ·) tags').trans
    (h.trans (List.perm_insertionSort (· ≤ ·) tags).symm)
  exact hperm.eq_of_pairwise' (List.pairwise_insertionSort (· ≤ ·) tags')
    (List.pairwise_insertionSort (· ≤ ·) tags)

theorem tagsAfter_none : tagsAfter none tags = tags.insertionSort (· ≤ ·) := by
  simp [tagsAfter]

/-- A cut at a tag keeps it and what follows. -/
theorem cutFront_append {sorted pre post : List String} (h : sorted.Nodup)
    (heq : sorted = pre ++ last :: post) : cutFront (some last) sorted = some (last :: post) := by
  subst heq
  have hnot : ∀ tag ∈ pre, tag ≠ last := by
    rintro tag htag rfl
    exact (List.nodup_append.mp h).2.2 tag htag tag (List.mem_cons_self ..) rfl
  have hnone : pre.findIdx? (fun r => decide (r = last)) = none := by
    rw [List.findIdx?_eq_none_iff]
    intro tag htag
    simpa using hnot tag htag
  have hindex : (pre ++ last :: post).findIdx? (fun r => decide (r = last)) = some pre.length := by
    rw [List.findIdx?_append, hnone, List.findIdx?_cons]
    simp
  rw [cutFront]
  simp only [hindex, Option.map_some, List.drop_left]

/-- A cut at a tag keeps it, and then has those that come after it. -/
theorem cutFront_of_mem (h : tags.Nodup) (hlast : last ∈ tags) :
    cutFront (some last) (tags.insertionSort (· ≤ ·)) =
      some (last :: tagsAfter (some last) tags) := by
  have hsorted := sorted_lt h
  have hnodup := (List.perm_insertionSort (· ≤ ·) tags).nodup_iff.mpr h
  have hmem : last ∈ tags.insertionSort (· ≤ ·) := (List.mem_insertionSort _).mpr hlast
  rw [tagsAfter]
  obtain ⟨pre, post, heq⟩ := List.append_of_mem hmem
  rw [cutFront_append hnodup heq]
  rw [heq] at hsorted ⊢
  obtain ⟨-, hpost, hpre⟩ := List.pairwise_append.mp hsorted
  have hbefore : ∀ tag ∈ pre, tag < last := fun tag htag => hpre tag htag last (by simp)
  have hafter : ∀ tag ∈ post, last < tag := (List.pairwise_cons.mp hpost).1
  rw [List.filter_append, List.filter_eq_nil_iff.mpr, List.nil_append, List.filter_cons_of_neg,
    List.filter_eq_self.mpr]
  · exact fun tag htag => decide_eq_true (hafter tag htag)
  · exact fun hself => lt_irrefl _ (of_decide_eq_true hself)
  · exact fun tag htag hlt => lt_asymm (hbefore tag htag) (of_decide_eq_true hlt)

/-- A cut at a tag that is not there panics. -/
theorem cutFront_of_not_mem {sorted : List String} (h : last ∉ sorted) :
    cutFront (some last) sorted = none := by
  rw [cutFront, Option.map_eq_none_iff, List.findIdx?_eq_none_iff]
  intro tag htag
  rw [decide_eq_false_iff_not]
  rintro rfl
  exact h htag

/-- Everything that a cut can leave: all tags, or those from `last` on. -/
theorem cutFront_cases {sorted cut : List String} (h : sorted.Nodup) {last : Option String}
    (hcut : cutFront last sorted = some cut) :
    (last = none ∧ cut = sorted) ∨
      ∃ pre tag post, last = some tag ∧ cut = tag :: post ∧ sorted = pre ++ tag :: post := by
  cases last with
  | none => exact .inl ⟨rfl, (Option.some.inj hcut).symm⟩
  | some tag =>
    by_cases hmem : tag ∈ sorted
    · obtain ⟨pre, post, heq⟩ := List.append_of_mem hmem
      rw [cutFront_append h heq] at hcut
      exact .inr ⟨pre, tag, post, rfl, (Option.some.inj hcut).symm, heq⟩
    · rw [cutFront_of_not_mem hmem] at hcut
      cases hcut

theorem cutFront_ne_nil {sorted cut : List String} (h : sorted.Nodup) (hne : sorted ≠ [])
    {last : Option String} (hcut : cutFront last sorted = some cut) : cut ≠ [] := by
  rcases cutFront_cases h hcut with ⟨-, rfl⟩ | ⟨pre, tag, post, -, rfl, -⟩
  · exact hne
  · exact List.cons_ne_nil tag post

end

/-! ### One page -/

/-- The first `n` of the tags that are left after the cut, or all of them, and the link. -/
def IsPage (repository : RepositoryName) (n : Option ℕ) (cut : List String) (p : TagPage) : Prop :=
  p.name = repository ∧ match n with
    | none => p.tags = cut ∧ p.link = none
    | some n => n ≤ cut.length ∧ p.tags = cut.take n ∧
        (n < cut.length → isHeaderValue (Link.header repository ⟨(cut.take n).getLast?, some n⟩)) ∧
        p.link = if n < cut.length then
          some (Link.header repository ⟨(cut.take n).getLast?, some n⟩) else none

/-- Everything that a page can be. -/
theorem page_eq_iff {repository : RepositoryName} {query : TagQuery} {tags : List String}
    {p : TagPage} : page repository query tags = some (.page p) ↔
      ∃ cut, cutFront query.last (tags.insertionSort (· ≤ ·)) = some cut ∧
        IsPage repository query.n cut p := by
  obtain ⟨last, n⟩ := query
  obtain ⟨name, pageTags, link⟩ := p
  simp only [page, Option.bind_eq_some_iff]
  refine exists_congr fun cut => and_congr_right fun _ => ?_
  cases n with
  | none =>
    simp only [cutBack, Option.map_some, Bool.false_eq_true, if_false, Option.all_none, if_true,
      Option.some.injEq, TagResponse.page.injEq, TagPage.mk.injEq, IsPage]
    exact ⟨fun ⟨h₁, h₂, h₃⟩ => ⟨h₁.symm, h₂.symm, h₃.symm⟩,
      fun ⟨h₁, h₂, h₃⟩ => ⟨h₁.symm, h₂.symm, h₃.symm⟩⟩
  | some n =>
    simp only [cutBack, IsPage]
    by_cases hle : n ≤ cut.length
    · by_cases hlt : n < cut.length
      · simp only [hle, hlt, if_true, Option.map_some, decide_true, Option.all_some,
          Option.some.injEq, true_and, true_imp_iff]
        by_cases hvalid : isHeaderValue (Link.header repository ⟨(cut.take n).getLast?, some n⟩)
        · simp only [hvalid, if_true, TagResponse.page.injEq, TagPage.mk.injEq, true_and]
          exact ⟨fun ⟨h₁, h₂, h₃⟩ => ⟨h₁.symm, h₂.symm, h₃.symm⟩,
            fun ⟨h₁, h₂, h₃⟩ => ⟨h₁.symm, h₂.symm, h₃.symm⟩⟩
        · simp [hvalid]
      · simp only [hle, hlt, if_true, if_false, Option.map_some, decide_false, Bool.false_eq_true,
          Option.all_none, Option.some.injEq, TagResponse.page.injEq, TagPage.mk.injEq, true_and,
          false_imp_iff]
        exact ⟨fun ⟨h₁, h₂, h₃⟩ => ⟨h₁.symm, h₂.symm, h₃.symm⟩,
          fun ⟨h₁, h₂, h₃⟩ => ⟨h₁.symm, h₂.symm, h₃.symm⟩⟩
    · simp [hle]

/-- Nothing is cut at the front, and there are as many tags as wanted; or no tag is wanted, of those
    after a tag that is there and not the last one. And the link that comes with the page, if one
    does, is a header value. -/
def InReach (repository : RepositoryName) (query : TagQuery) (tags : List String) : Prop :=
  (match query.last with
    | none => ∀ n ∈ query.n, n ≤ tags.length
    | some last => query.n = some 0 ∧ last ∈ tags ∧ ∃ tag ∈ tags, last < tag) ∧
  ((wanted query tags).length < (tagsAfter query.last tags).length →
    isHeaderValue (Link.header repository ⟨(wanted query tags).getLast?, query.n⟩))

section

variable {tags : List String} {query : TagQuery} {repository : RepositoryName}

theorem mem_tagsAfter {last tag : String} :
    tag ∈ tagsAfter (some last) tags ↔ tag ∈ tags ∧ last < tag := by
  simp [tagsAfter]

/-- Without `last` the page is the one that is asked for, as long as there are enough tags. -/
theorem page_none_iff (hlast : query.last = none) :
    (∃ p, page repository query tags = some (.page p) ∧ p.name = repository ∧
      AsAsked query tags p) ↔ InReach repository query tags := by
  obtain ⟨last, n⟩ := query
  obtain rfl : last = none := hlast
  have hlen : (tags.insertionSort (· ≤ ·)).length = tags.length := List.length_insertionSort ..
  simp only [page_eq_iff, cutFront, Option.some.injEq, exists_eq_left', InReach, wanted,
    tagsAfter_none]
  generalize hsorted : tags.insertionSort (· ≤ ·) = sorted at hlen
  cases n with
  | none =>
    refine iff_of_true ⟨⟨repository, sorted, none⟩, ⟨rfl, rfl, rfl⟩, rfl, ?_⟩ (by simp)
    simp [AsAsked, wanted, tagsAfter_none, hsorted]
  | some n =>
    have hmore : (sorted.take n).length < sorted.length ↔ n < sorted.length := by
      rw [List.length_take]
      omega
    simp only [Option.mem_def, Option.some.injEq, forall_eq', ← hlen, hmore]
    constructor
    · rintro ⟨p, ⟨-, hle, -, hvalid, -⟩, -⟩
      exact ⟨hle, hvalid⟩
    · rintro ⟨hle, hvalid⟩
      refine ⟨⟨repository, sorted.take n, if n < sorted.length then
        some (Link.header repository ⟨(sorted.take n).getLast?, some n⟩) else none⟩,
        ⟨rfl, hle, rfl, hvalid, rfl⟩, rfl, ?_⟩
      simp only [AsAsked, wanted, tagsAfter_none, hsorted, hmore, true_and]
      by_cases hlt : n < sorted.length <;> simp [hlt]

/-- With `last` it is not, unless no tags are wanted. -/
theorem page_some_iff (h : tags.Nodup) {last : String} (hlast : query.last = some last) :
    (∃ p, page repository query tags = some (.page p) ∧ p.name = repository ∧
      AsAsked query tags p) ↔ InReach repository query tags := by
  obtain ⟨last', n⟩ := query
  obtain rfl : last' = some last := hlast
  simp only [page_eq_iff, InReach]
  by_cases hmem : last ∈ tags
  · have hself : last ∉ tagsAfter (some last) tags :=
      fun hself => lt_irrefl _ (mem_tagsAfter.mp hself).2
    simp only [cutFront_of_mem h hmem, Option.some.injEq, exists_eq_left']
    -- a page that has a tag begins with `last`
    cases n with
    | none =>
      refine iff_of_false ?_ (by simp)
      rintro ⟨p, ⟨-, htags, -⟩, -, heq, -⟩
      have heq' : last :: tagsAfter (some last) tags = tagsAfter (some last) tags :=
        htags.symm.trans heq
      exact hself (heq' ▸ List.mem_cons_self ..)
    | some n =>
      cases n with
      | zero =>
        have hmore : 0 < (tagsAfter (some last) tags).length ↔ ∃ tag ∈ tags, last < tag := by
          rw [List.length_pos_iff_exists_mem]
          exact exists_congr fun tag => mem_tagsAfter
        simp only [wanted, List.take_zero, List.length_nil, hmore, List.getLast?_nil, hmem,
          true_and]
        constructor
        · rintro ⟨p, ⟨-, -, -, hvalid, hlink⟩, -, -, hiff⟩
          have hsome : p.link.isSome := by
            rw [hlink, if_pos (by simp)]
            rfl
          exact ⟨by simpa [wanted, hmore] using hiff.mp hsome, fun _ => hvalid (by simp)⟩
        · rintro ⟨hafter, hvalid⟩
          refine ⟨⟨repository, [], _⟩, ⟨rfl, by simp, rfl, fun _ => hvalid hafter, rfl⟩, rfl, rfl, ?_⟩
          simpa [wanted, hmore] using hafter
      | succ n =>
        refine iff_of_false ?_ (by simp)
        rintro ⟨p, ⟨-, -, htags, -⟩, -, heq, -⟩
        rw [htags] at heq
        refine hself (List.mem_of_mem_take (i := n + 1) ?_)
        have heq' : last :: (tagsAfter (some last) tags).take n =
            (tagsAfter (some last) tags).take (n + 1) := heq
        exact heq' ▸ List.mem_cons_self ..
  · have hsorted : last ∉ tags.insertionSort (· ≤ ·) :=
      fun hlast => hmem ((List.mem_insertionSort _).mp hlast)
    simp only [cutFront_of_not_mem hsorted]
    refine iff_of_false ?_ (fun hreach => hmem hreach.1.2.1)
    rintro ⟨p, ⟨cut, hcut, -⟩, -⟩
    cases hcut

/-- AS ASKED, exactly. -/
theorem page_iff (h : tags.Nodup) (query : TagQuery) :
    (∃ p, page repository query tags = some (.page p) ∧ p.name = repository ∧
      AsAsked query tags p) ↔ InReach repository query tags := by
  cases hlast : query.last with
  | none => exact page_none_iff hlast
  | some last => exact page_some_iff h hlast

end

/-! ### The handler, and a client that follows its links -/

section

variable {app : App} {token : Token} {repository : RepositoryName}
  {reads : String → Option TagQuery}

/-- A token with `pull` gets its page. -/
theorem get_of_permission (htoken : token.hasPermission repository "pull" = true)
    (query : TagQuery) : get app token repository query =
      (page repository query (getTags app.trees repository)).map .ok := by
  have hvalid := validated_of_hasPermission htoken
  rw [get, dif_neg (by simp [hvalid]), if_pos htoken]
  rfl

theorem get_eq_ok_iff (htoken : token.hasPermission repository "pull" = true) {query : TagQuery}
    {p : TagPage} : get app token repository query = some (.ok (.page p)) ↔
      page repository query (getTags app.trees repository) = some (.page p) := by
  simp [get_of_permission htoken]


/-- The tags in order. -/
def sortedTags (app : App) (repository : RepositoryName) : List String :=
  (getTags app.trees repository).insertionSort (· ≤ ·)

theorem nodup_sortedTags (app : App) (repository : RepositoryName) :
    (sortedTags app repository).Nodup :=
  (List.perm_insertionSort _ _).nodup_iff.mpr (nodup_getTags app.trees repository)

/-- What a query gets. -/
theorem get_page_iff (htoken : token.hasPermission repository "pull" = true) {query : TagQuery}
    {p : TagPage} : get app token repository query = some (.ok (.page p)) ↔
      ∃ cut, cutFront query.last (sortedTags app repository) = some cut ∧
        IsPage repository query.n cut p := by
  rw [get_eq_ok_iff htoken, page_eq_iff]
  rfl

/-- A query for no tags never comes to an end. -/
theorem not_follows_zero (htoken : token.hasPermission repository "pull" = true)
    (hzero : ∀ q ∈ reads (Link.header repository ⟨none, some 0⟩), q = ⟨none, some 0⟩)
    (hne : sortedTags app repository ≠ []) {query : TagQuery} {found : List String}
    (h : Follows app token repository reads query found) : query.n ≠ some 0 := by
  have hlinked : ∀ {query : TagQuery} {p : TagPage}, query.n = some 0 →
      get app token repository query = some (.ok (.page p)) →
        p.link = some (Link.header repository ⟨none, some 0⟩) := by
    intro query p hn h
    obtain ⟨cut, hcut, hpage⟩ := (get_page_iff htoken).mp h
    have hpos : 0 < cut.length :=
      List.length_pos_iff.mpr (cutFront_ne_nil (nodup_sortedTags app repository) hne hcut)
    rw [hn] at hpage
    rw [hpage.2.2.2.2, if_pos hpos]
    rfl
  induction h with
  | last h hlink =>
    intro hn
    rw [hlinked hn h] at hlink
    cases hlink
  | next h hlink hreads hrest ih =>
    intro hn
    rw [hlinked hn h] at hlink
    obtain rfl := Option.some.inj hlink
    obtain rfl := hzero _ hreads
    exact ih rfl

/-- What a query finds begins with the first tag that is left after its cut. -/
theorem follows_head (htoken : token.hasPermission repository "pull" = true)
    (hne : sortedTags app repository ≠ []) {query : TagQuery} (hn : query.n ≠ some 0) {tag : String}
    {rest : List String} (h : Follows app token repository reads query (tag :: rest)) :
    ∃ cut, cutFront query.last (sortedTags app repository) = some cut ∧ cut.head? = some tag := by
  have hfirst : ∀ {p : TagPage} {more : List String},
      get app token repository query = some (.ok (.page p)) → p.tags ++ more = tag :: rest →
        ∃ cut, cutFront query.last (sortedTags app repository) = some cut ∧
          cut.head? = some tag := by
    intro p more hget heq
    obtain ⟨cut, hcut, -, hpage⟩ := (get_page_iff htoken).mp hget
    refine ⟨cut, hcut, ?_⟩
    obtain ⟨x, cut, rfl⟩ :=
      List.exists_cons_of_ne_nil (cutFront_ne_nil (nodup_sortedTags app repository) hne hcut)
    cases hsize : query.n with
    | none =>
      rw [hsize] at hpage
      rw [hpage.1] at heq
      exact congrArg some (List.cons_eq_cons.mp heq).1
    | some n =>
      rw [hsize] at hpage hn
      obtain ⟨n, rfl⟩ := Nat.exists_eq_succ_of_ne_zero fun h0 => hn (congrArg some h0)
      rw [hpage.2.1] at heq
      exact congrArg some (List.cons_eq_cons.mp heq).1
  generalize hfound : tag :: rest = found at h
  cases h with
  | last h _ => exact hfirst h ((List.append_nil _).trans hfound.symm)
  | next h _ _ _ => exact hfirst h hfound.symm

/-- A client that gets all tags from here on was led to each of them. -/
theorem linksLead_of_follows (htoken : token.hasPermission repository "pull" = true)
    (hzero : ∀ q ∈ reads (Link.header repository ⟨none, some 0⟩), q = ⟨none, some 0⟩)
    {query : TagQuery} {found : List String}
    (h : Follows app token repository reads query found) :
    ∀ pre cut, sortedTags app repository = pre ++ cut → cut ≠ [] → found = cut →
      cutFront query.last (sortedTags app repository) = some cut →
        LinksLead repository reads query.n cut := by
  have hnodup := nodup_sortedTags app repository
  induction h with
  | @last query p h hlink =>
    rintro pre cut - - - hcut
    obtain ⟨cut', hcut', -, hpage⟩ := (get_page_iff htoken).mp h
    obtain rfl : cut = cut' := Option.some.inj (hcut.symm.trans hcut')
    cases hsize : query.n with
    | none => exact .all cut
    | some n =>
      rw [hsize] at hpage
      obtain ⟨hle, -, -, hmore⟩ := hpage
      rw [hlink] at hmore
      split at hmore
      · cases hmore
      · obtain rfl : n = cut.length := by omega
        exact .whole cut
  | @next query query' p link rest h hlink hreads hrest ih =>
    intro pre cut heq hne hfound hcut
    have hsorted : sortedTags app repository ≠ [] := by
      rw [heq]
      simp [hne]
    have hn := not_follows_zero htoken hzero hsorted (.next h hlink hreads hrest)
    have hn' := not_follows_zero htoken hzero hsorted hrest
    obtain ⟨cut', hcut', -, hpage⟩ := (get_page_iff htoken).mp h
    obtain rfl : cut = cut' := Option.some.inj (hcut.symm.trans hcut')
    cases hsize : query.n with
    | none =>
      rw [hsize, hlink] at hpage
      cases hpage.2
    | some n =>
      rw [hsize] at hpage hn
      have hpos : 0 < n := Nat.pos_of_ne_zero fun h0 => hn (congrArg some h0)
      obtain ⟨-, htags, hvalid, hmore⟩ := hpage
      rw [hlink] at hmore
      split at hmore
      case isFalse => cases hmore
      case isTrue hlt =>
        obtain rfl := Option.some.inj hmore
        have hrest' : rest = cut.drop n := by
          rw [htags] at hfound
          exact List.append_cancel_left (hfound.trans (List.take_append_drop n cut).symm)
        have hdrop : cut.drop n ≠ [] := by simpa using hlt
        obtain ⟨tag, more, hcons⟩ := List.exists_cons_of_ne_nil hdrop
        have hall : sortedTags app repository = (pre ++ cut.take n) ++ tag :: more := by
          rw [List.append_assoc, ← hcons, List.take_append_drop, heq]
        rw [hrest', hcons] at hrest
        obtain ⟨cut', hcut', hhead⟩ := follows_head htoken hsorted hn' hrest
        -- the next page starts with the tag after this one, so that is what was asked for
        have hlast : query'.last = some tag := by
          rcases cutFront_cases hnodup hcut' with ⟨-, rfl⟩ | ⟨pre', tag', post, hlast, rfl, -⟩
          · -- the first tag of all was on an earlier page
            have hfront : pre ++ cut.take n ≠ [] := by simp [hne, hpos.ne']
            obtain ⟨x, xs, hx⟩ := List.exists_cons_of_ne_nil hfront
            rw [hall, hx] at hhead hnodup
            obtain rfl : x = tag := Option.some.inj hhead
            simp at hnodup
          · rw [hlast]
            exact hhead
        have hnext := ih (pre ++ cut.take n) (cut.drop n) (by rw [hall, hcons]) hdrop hrest' (by
          rw [hlast, hcons]
          exact cutFront_append hnodup hall)
        refine .next hpos hlt (hvalid hlt) ?_ hnext
        rw [hreads, hcons, List.head?_cons, ← hlast]

/-- A client that is led from tag to tag gets them all. -/
theorem follows_of_linksLead (htoken : token.hasPermission repository "pull" = true) {n : Option ℕ}
    {cut : List String} (h : LinksLead repository reads n cut) :
    ∀ pre query, sortedTags app repository = pre ++ cut → query.n = n →
      cutFront query.last (sortedTags app repository) = some cut →
        Follows app token repository reads query cut := by
  have hnodup := nodup_sortedTags app repository
  induction h with
  | all cut =>
    intro pre query _ hn hcut
    refine .last (p := ⟨repository, cut, none⟩) ((get_page_iff htoken).mpr ⟨cut, hcut, rfl, ?_⟩) rfl
    rw [hn]
    exact ⟨rfl, rfl⟩
  | whole cut =>
    intro pre query _ hn hcut
    refine .last (p := ⟨repository, cut, none⟩) ((get_page_iff htoken).mpr ⟨cut, hcut, rfl, ?_⟩) rfl
    rw [hn]
    simp
  | @next n n' cut hpos hlt hvalid hreads hrest ih =>
    intro pre query heq hn hcut
    have hdrop : cut.drop n ≠ [] := by simpa using hlt
    obtain ⟨tag, more, hcons⟩ := List.exists_cons_of_ne_nil hdrop
    have hall : sortedTags app repository = (pre ++ cut.take n) ++ tag :: more := by
      rw [List.append_assoc, ← hcons, List.take_append_drop, heq]
    have hnext := ih (pre ++ cut.take n) ⟨(cut.drop n).head?, n'⟩ (by rw [hall, hcons]) rfl (by
      rw [hcons]
      exact cutFront_append hnodup hall)
    have hpage : get app token repository query = some (.ok (.page ⟨repository, cut.take n,
        some (Link.header repository ⟨(cut.take n).getLast?, some n⟩)⟩)) := by
      refine (get_page_iff htoken).mpr ⟨cut, hcut, rfl, ?_⟩
      rw [hn]
      exact ⟨hlt.le, rfl, fun _ => hvalid, (if_pos hlt).symm⟩
    have hfollows := Follows.next hpage rfl hreads hnext
    rwa [List.take_append_drop] at hfollows

/-- Links that are read as they are written lead through the tags only if there is none. -/
theorem linksLead_iff_of_literal {tags : List String} (h : tags.Nodup)
    {n : ℕ} (hreads : ∀ tag ∈ tags, reads (Link.header repository ⟨some tag, some n⟩) =
      some ⟨some tag, some n⟩) :
    LinksLead repository reads (some n) tags ↔ n = tags.length := by
  constructor
  · intro hlead
    cases hlead with
    | whole => rfl
    | next hpos hlt hvalid hnext hrest =>
      exfalso
      have htake : tags.take n ≠ [] := by
        rw [← List.length_pos_iff, List.length_take]
        omega
      have hdrop : tags.drop n ≠ [] := by simpa using hlt
      obtain ⟨x, hx⟩ : ∃ x, (tags.take n).getLast? = some x :=
        ⟨_, List.getLast?_eq_some_getLast htake⟩
      obtain ⟨y, ys, hy⟩ := List.exists_cons_of_ne_nil hdrop
      have hxin : x ∈ tags.take n := List.mem_of_getLast? hx
      rw [hx, hreads x (List.mem_of_mem_take hxin), hy] at hnext
      obtain rfl : x = y := by simpa using (congrArg TagQuery.last (Option.some.inj hnext))
      have hyin : x ∈ tags.drop n := by
        rw [hy]
        exact List.mem_cons_self ..
      rw [← List.take_append_drop n tags] at h
      exact (List.nodup_append.mp h).2.2 x hxin x hyin rfl
  · rintro rfl
    exact .whole tags

/-- TAG PAGES, exactly: a page is as it is asked for if nothing is cut at the front and there are as
    many tags as wanted, or if no tag is wanted of those after one that is there and not the last,
    and the link that comes with it is a header value. Following the links gives every tag once, in
    order, if each of them is read as one to the tag after its page; where links are read as they
    are written this means that the first page has all tags. In no other case. -/
theorem tag_pages_iff (htoken : token.hasPermission repository "pull" = true)
    (hzero : ∀ q ∈ reads (Link.header repository ⟨none, some 0⟩), q = ⟨none, some 0⟩) :
    (∀ query : TagQuery, (∃ p, get app token repository query = some (.ok (.page p)) ∧
        p.name = repository ∧ AsAsked query (getTags app.trees repository) p) ↔
      InReach repository query (getTags app.trees repository)) ∧
    (∀ n, 1 ≤ n →
      (Follows app token repository reads ⟨none, some n⟩ (sortedTags app repository) ↔
        LinksLead repository reads (some n) (sortedTags app repository))) ∧
    (∀ n, 1 ≤ n → (∀ tag ∈ getTags app.trees repository,
        reads (Link.header repository ⟨some tag, some n⟩) = some ⟨some tag, some n⟩) →
      (Follows app token repository reads ⟨none, some n⟩ (sortedTags app repository) ↔
        n = (getTags app.trees repository).length)) := by
  have hlinks : ∀ n, 1 ≤ n →
      (Follows app token repository reads ⟨none, some n⟩ (sortedTags app repository) ↔
        LinksLead repository reads (some n) (sortedTags app repository)) := by
    intro n hn
    constructor
    · intro hfollows
      have hne : sortedTags app repository ≠ [] := by
        -- there is no page of `n` tags when there is none at all
        intro hnil
        have hpage : ∀ p, get app token repository ⟨none, some n⟩ ≠ some (.ok (.page p)) := by
          intro p h
          obtain ⟨cut, hcut, -, hle, -⟩ := (get_page_iff htoken).mp h
          obtain rfl : sortedTags app repository = cut := Option.some.inj hcut
          rw [hnil] at hle
          exact absurd hle (by simp; omega)
        generalize hfound : sortedTags app repository = found at hfollows
        cases hfollows with
        | last h _ => exact hpage _ h
        | next h _ _ _ => exact hpage _ h
      exact linksLead_of_follows htoken hzero hfollows [] _ rfl hne rfl rfl
    · intro hlead
      exact follows_of_linksLead htoken hlead [] _ rfl rfl rfl
  refine ⟨?_, hlinks, ?_⟩
  · intro query
    refine Iff.trans ?_ (page_iff (nodup_getTags app.trees repository) query)
    exact exists_congr fun p => and_congr_left fun _ => get_eq_ok_iff htoken
  · intro n hn hreads
    have hlen : (sortedTags app repository).length = (getTags app.trees repository).length :=
      List.length_insertionSort ..
    rw [hlinks n hn, ← hlen]
    refine linksLead_iff_of_literal (nodup_sortedTags app repository) ?_
    intro tag htag
    exact hreads tag ((List.mem_insertionSort _).mp htag)

/-! ### A client and a query parser -/

/-- A field of the query of a tag list. -/
def readField (query : TagQuery) (field : List Char) : Option TagQuery :=
  let key := field.takeWhile (· ≠ '=')
  let value := String.ofList (formDecode (field.drop (key.length + 1)))
  if key = "last".toList then
    if query.last.isNone then some { query with last := some value } else none
  else if key = "n".toList then
    if query.n.isNone then (parseU64 value).map fun n => { query with n := some n } else none
  else some query

/-- What a client asks for that requests the URL of a link, and what the server reads from it. -/
def readLink (repository : RepositoryName) (link : String) : Option TagQuery :=
  let url := link.toList.take (link.length - "; rel=\"next\"".length)
  if urlPath url = ("/v2/" ++ repository.name ++ "/tags/list").toList then
    ((urlQuery url).splitOn '&').foldlM readField ⟨none, none⟩
  else none

theorem formDecode_unreserved {cs : List Char} (h : ∀ c ∈ cs, isUnreserved c) :
    formDecode cs = cs := by
  refine formDecode_eq_self ?_ ?_
  · exact fun hmem => absurd (h _ hmem) (by decide)
  · exact fun hmem => absurd (h _ hmem) (by decide)

theorem unreserved_of_mem_toDigits {n : ℕ} {c : Char} (h : c ∈ Nat.toDigits 10 n) :
    isUnreserved c := by
  have hdigit : c.isDigit := Nat.isDigit_of_mem_toDigits (by decide) (by decide) h
  simp [isUnreserved, Char.isAlphanum, hdigit]

theorem parseU64_toString {n : ℕ} (h : n < 2 ^ 64) : parseU64 (toString n) = some n := by
  have hchars : (toString n).toList = Nat.toDigits 10 n := by
    rw [Nat.toString_eq_ofList_toDigits, String.toList_ofList]
  have hdigit : ∀ c ∈ Nat.toDigits 10 n, c.isDigit :=
    fun c hc => Nat.isDigit_of_mem_toDigits (by decide) (by decide) hc
  have hvalue : (Nat.toDigits 10 n).foldl (fun n c => 10 * n + (c.toNat - '0'.toNat)) 0 = n := by
    rw [← Nat.ofDigitChars_eq_foldl]
    simp
  obtain ⟨c, cs, hcs⟩ := List.exists_cons_of_ne_nil (Nat.toDigits_ne_nil (n := n) (b := 10))
  have hplus : c ≠ '+' := by
    rintro rfl
    exact absurd (hdigit '+' (by simp [hcs])) (by decide)
  rw [parseU64, hchars, hcs]
  split
  case h_1 rest heq => exact absurd (List.cons_eq_cons.mp heq).1 hplus
  case h_2 =>
    rw [← hcs]
    simp only [Nat.toDigits_ne_nil, if_false, List.all_eq_true.mpr hdigit, if_true, hvalue, h]

/-- What a field of the link is read as. -/
theorem readField_last {tag : List Char} (h : ∀ c ∈ tag, isUnreserved c) :
    readField ⟨none, none⟩ ("last=".toList ++ tag) = some ⟨some (String.ofList tag), none⟩ := by
  have hkey : ("last=".toList ++ tag).takeWhile (· ≠ '=') = "last".toList := rfl
  have hvalue : ("last=".toList ++ tag).drop ("last".toList.length + 1) = tag := rfl
  simp only [readField, hkey, hvalue, formDecode_unreserved h, if_true, Option.isNone_none]

theorem readField_n {last : Option String} {n : ℕ} (h : n < 2 ^ 64) :
    readField ⟨last, none⟩ ("n=".toList ++ Nat.toDigits 10 n) = some ⟨last, some n⟩ := by
  have hkey : ("n=".toList ++ Nat.toDigits 10 n).takeWhile (· ≠ '=') = "n".toList := rfl
  have hvalue : ("n=".toList ++ Nat.toDigits 10 n).drop ("n".toList.length + 1) =
    Nat.toDigits 10 n := rfl
  have hne : "n".toList ≠ "last".toList := by decide
  have hdecode : formDecode (Nat.toDigits 10 n) = Nat.toDigits 10 n :=
    formDecode_unreserved fun _ hc => unreserved_of_mem_toDigits hc
  simp only [readField, hkey, hvalue, hdecode, if_true, hne, if_false, Option.isNone_none,
    ← Nat.toString_eq_ofList_toDigits, parseU64_toString h, Option.map_some]

/-- The link to a tag of unreserved characters is read as it is written. -/
theorem readLink_unreserved {tag : String} {n : ℕ}
    (hname : ∀ c ∈ repository.name.toList, isUnreserved c ∨ c = '/')
    (htag : ∀ c ∈ tag.toList, isUnreserved c) (hn : n < 2 ^ 64) :
    readLink repository (Link.header repository ⟨some tag, some n⟩) = some ⟨some tag, some n⟩ := by
  set path := ("/v2/" ++ repository.name ++ "/tags/list").toList with hpath
  set first := "last=".toList ++ tag.toList with hfirst
  set second := "n=".toList ++ Nat.toDigits 10 n with hsecond
  have hheader : (Link.header repository ⟨some tag, some n⟩).toList =
      (path ++ '?' :: (first ++ '&' :: second)) ++ "; rel=\"next\"".toList := by
    simp [Link.header, Link.suffix, hpath, hfirst, hsecond]
  have hlength : (Link.header repository ⟨some tag, some n⟩).length - "; rel=\"next\"".length =
      (path ++ '?' :: (first ++ '&' :: second)).length := by
    rw [← String.length_toList, hheader, List.length_append, ← String.length_toList,
      Nat.add_sub_cancel]
  have hpathChars : ∀ c ∈ path, isUnreserved c ∨ c = '/' := by
    rw [hpath, String.toList_append, String.toList_append]
    simp only [List.forall_mem_append]
    exact ⟨⟨by simp [isUnreserved, Char.isAlphanum], hname⟩,
      by simp [isUnreserved, Char.isAlphanum]⟩
  have hfirstChars : ∀ c ∈ first, isUnreserved c ∨ c = '=' := by
    rw [hfirst, List.forall_mem_append]
    exact ⟨by simp [isUnreserved, Char.isAlphanum], fun c hc => .inl (htag c hc)⟩
  have hsecondChars : ∀ c ∈ second, isUnreserved c ∨ c = '=' := by
    rw [hsecond, List.forall_mem_append]
    exact ⟨by simp [isUnreserved, Char.isAlphanum],
      fun c hc => .inl (unreserved_of_mem_toDigits hc)⟩
  have hhash : '#' ∉ path := fun hmem => absurd (hpathChars _ hmem) (by decide)
  have hmark : '?' ∉ path := fun hmem => absurd (hpathChars _ hmem) (by decide)
  have hhash' : '#' ∉ first ++ '&' :: second := by
    simp only [List.mem_append, List.mem_cons, not_or]
    exact ⟨fun hmem => absurd (hfirstChars _ hmem) (by decide), by decide,
      fun hmem => absurd (hsecondChars _ hmem) (by decide)⟩
  have hfields : (first ++ '&' :: second).splitOn '&' = [first, second] := by
    rw [List.splitOn_append_cons_self_of_not_mem, List.splitOn_eq_singleton]
    · exact fun hmem => absurd (hsecondChars _ hmem) (by decide)
    · exact fun hmem => absurd (hfirstChars _ hmem) (by decide)
  rw [readLink, hlength, hheader, List.take_left]
  simp only [urlPath_append hhash hmark hhash', urlQuery_append hhash hmark hhash', hfields,
    ← hpath, if_true, List.foldlM_cons, List.foldlM_nil]
  rw [hfirst, readField_last htag, Option.bind_eq_bind, Option.bind_some, hsecond, readField_n hn,
    String.ofList_toList]
  rfl

/-! ### Three tags, and two that a link confuses -/

/-- A node that knows these tags of `library/a`. -/
def taggedApp (tags : List String) : App where
  id := 1
  trees := (applyActions .empty
    (tags.map fun tag => .hashTagged 0 emptyDigest ⟨"library/a"⟩ tag "alice")).getD .empty
  isFile _ _ := false
  order := .ascending

/-- Three tags in a page of three; and, one by one, the tag `%62` and the tag `b`, for which the link
    of the first is mistaken. -/
theorem tag_pages_taggedApp :
    Follows (taggedApp ["a", "b", "c"]) .anonymous ⟨"library/a"⟩ (readLink ⟨"library/a"⟩)
        ⟨none, some 3⟩ ["a", "b", "c"] ∧
      Follows (taggedApp ["b", "%62"]) .anonymous ⟨"library/a"⟩ (readLink ⟨"library/a"⟩)
        ⟨none, some 1⟩ ["%62", "b"] := by
  have hzero : ∀ q ∈ readLink ⟨"library/a"⟩ (Link.header ⟨"library/a"⟩ ⟨none, some 0⟩),
      q = ⟨none, some 0⟩ := by decide +kernel
  have hthree : sortedTags (taggedApp ["a", "b", "c"]) ⟨"library/a"⟩ = ["a", "b", "c"] := by
    decide +kernel
  have htwo : sortedTags (taggedApp ["b", "%62"]) ⟨"library/a"⟩ = ["%62", "b"] := by
    decide +kernel
  have hleads : LinksLead ⟨"library/a"⟩ (readLink ⟨"library/a"⟩) (some 1) ["%62", "b"] := by
    have hreads : readLink ⟨"library/a"⟩ (Link.header ⟨"library/a"⟩ ⟨some "%62", some 1⟩) =
        some ⟨some "b", some 1⟩ := by decide +kernel
    exact .next (by decide) (by decide) (by decide +kernel) hreads (.whole ["b"])
  have hfirst := (@tag_pages_iff (taggedApp ["a", "b", "c"]) .anonymous ⟨"library/a"⟩ _ rfl
    hzero).2.1 3 (by decide)
  have hsecond := (@tag_pages_iff (taggedApp ["b", "%62"]) .anonymous ⟨"library/a"⟩ _ rfl
    hzero).2.1 1 (by decide)
  rw [hthree] at hfirst
  rw [htwo] at hsecond
  exact ⟨hfirst.mpr (.whole ["a", "b", "c"]), hsecond.mpr hleads⟩

/-- Of two tags after `b` the page has `b` and `c`; in pages of two, `b` comes twice; four tags are
    too many to ask for, and so is what comes after a tag that is not there. -/
theorem tag_pages_broken :
    (¬ ∃ p, get (taggedApp ["a", "b", "c"]) .anonymous ⟨"library/a"⟩ ⟨some "b", some 2⟩ =
          some (.ok (.page p)) ∧
        AsAsked ⟨some "b", some 2⟩ (getTags (taggedApp ["a", "b", "c"]).trees ⟨"library/a"⟩) p) ∧
      ¬ Follows (taggedApp ["a", "b", "c"]) .anonymous ⟨"library/a"⟩ (readLink ⟨"library/a"⟩)
        ⟨none, some 2⟩ ["a", "b", "c"] ∧
      (get (taggedApp ["a", "b", "c"]) .anonymous ⟨"library/a"⟩ ⟨none, some 4⟩).isNone ∧
      (get (taggedApp ["a", "b", "c"]) .anonymous ⟨"library/a"⟩ ⟨some "bb", none⟩).isNone := by
  have hpage : get (taggedApp ["a", "b", "c"]) .anonymous ⟨"library/a"⟩ ⟨some "b", some 2⟩ =
      some (.ok (.page ⟨⟨"library/a"⟩, ["b", "c"], none⟩)) := by decide +kernel
  have hwanted : wanted ⟨some "b", some 2⟩
      (getTags (taggedApp ["a", "b", "c"]).trees ⟨"library/a"⟩) = ["c"] := by decide +kernel
  have hthree : sortedTags (taggedApp ["a", "b", "c"]) ⟨"library/a"⟩ = ["a", "b", "c"] := by
    decide +kernel
  refine ⟨?_, ?_, by decide +kernel, by decide +kernel⟩
  · rintro ⟨p, hget, htags, -⟩
    have hp : (⟨⟨"library/a"⟩, ["b", "c"], none⟩ : TagPage) = p := by
      simpa using hpage.symm.trans hget
    subst hp
    rw [hwanted] at htags
    exact absurd htags (by decide)
  · intro hfollows
    have hlead := @linksLead_of_follows (taggedApp ["a", "b", "c"]) .anonymous ⟨"library/a"⟩
      (readLink ⟨"library/a"⟩) rfl (by decide +kernel) _ _ hfollows [] ["a", "b", "c"] hthree
      (by simp) rfl (by rw [hthree]; rfl)
    have hname : ∀ c ∈ "library/a".toList, isUnreserved c ∨ c = '/' := by
      simp [isUnreserved, Char.isAlphanum]
    have htags : ∀ tag ∈ ["a", "b", "c"], ∀ c ∈ tag.toList, isUnreserved c := by
      simp [isUnreserved, Char.isAlphanum]
    have hlen := (linksLead_iff_of_literal (by decide) fun tag htag =>
      readLink_unreserved hname (htags tag htag) (by decide)).mp hlead
    exact absurd hlen (by decide)

end

end Tags

end Distribd.Registry
