import Mathlib

/-! Reachability by a worklist. A search keeps a set of nodes it still has to look at and a set of
    nodes it has seen. A turn takes any node of the first set, adds those of its successors that
    have not been seen, and moves the node over. Which node a turn takes is up to the order in which
    a hash set hands out its elements; an `Iteration` is one such order, and every turn may have its
    own. Whatever the orders, the search ends after at most as many turns as there are nodes and has
    then seen exactly the nodes reachable from the roots (`search_done`, `mem_search_visited`). -/

namespace Distribd.Schemes

variable {α : Type*} [DecidableEq α]

/-- An order in which a hash set hands out its elements: each of them, once. -/
structure Iteration (α : Type*) [DecidableEq α] where
  list : Finset α → List α
  nodup : ∀ s, (list s).Nodup
  toFinset : ∀ s, (list s).toFinset = s

namespace Iteration

@[simp] theorem mem_list (it : Iteration α) {s : Finset α} {x : α} : x ∈ it.list s ↔ x ∈ s := by
  rw [← List.mem_toFinset, it.toFinset]

@[simp] theorem list_empty (it : Iteration α) : it.list ∅ = [] := by
  rw [← List.toFinset_eq_empty_iff, it.toFinset]

theorem coe_list (it : Iteration α) (s : Finset α) : (it.list s : Multiset α) = s.val := by
  rw [← List.dedup_eq_self.mpr (it.nodup s), ← List.toFinset_val, it.toFinset]

/-- The same, but for this order of one set. -/
def except (it : Iteration α) (s : Finset α) (order : List α) (hnodup : order.Nodup)
    (hset : order.toFinset = s) : Iteration α where
  list t := if t = s then order else it.list t
  nodup t := by
    split
    · exact hnodup
    · exact it.nodup t
  toFinset t := by
    split
    · rename_i h
      rw [hset, h]
    · exact it.toFinset t

theorem except_list (it : Iteration α) {s : Finset α} {order : List α} (hnodup : order.Nodup)
    (hset : order.toFinset = s) : (it.except s order hnodup hset).list s = order := if_pos rfl

section

variable [Ord α] [Std.TransOrd α] [Std.LawfulEqOrd α]

instance : LeftCommutative fun (x : α) (t : Std.ExtTreeMap α Unit) => t.insert x () where
  left_comm a b t := by
    refine Std.ExtTreeMap.ext_getElem? fun {k} => ?_
    simp only [Std.ExtTreeMap.getElem?_insert]
    split <;> split <;> rfl

/-- The elements as the keys of an ordered map. -/
def keyed (m : Multiset α) : Std.ExtTreeMap α Unit := m.foldr (fun x t => t.insert x ()) ∅

omit [DecidableEq α] in
theorem mem_keyed {m : Multiset α} {x : α} : x ∈ keyed m ↔ x ∈ m := by
  induction m using Multiset.induction with
  | empty => simp [keyed]
  | cons a m ih =>
    rw [keyed, Multiset.foldr_cons, ← keyed, Std.ExtTreeMap.mem_insert, ih, Multiset.mem_cons,
      Std.compare_eq_iff_eq, eq_comm]

/-- The ascending order. -/
def ascending : Iteration α where
  list s := (keyed s.val).keys
  nodup _ := Std.ExtTreeMap.nodup_keys
  toFinset s := by
    ext x
    rw [List.mem_toFinset, Std.ExtTreeMap.mem_keys, mem_keyed, Finset.mem_val]

end

end Iteration

/-- The two sets of a search. -/
structure Search (α : Type*) where
  visiting : Finset α
  visited : Finset α

/-- `x` is reached from a root along the edges of `succ`. -/
def Reaches (succ : α → List α) (roots : Finset α) (x : α) : Prop :=
  ∃ r ∈ roots, Relation.ReflTransGen (fun a b => b ∈ succ a) r x

section

variable (succ : α → List α)

/-- One turn on the node `x`. -/
def Search.turn (s : Search α) (x : α) : Search α where
  visiting := (s.visiting ∪ ((succ x).filter (· ∉ s.visited)).toFinset).erase x
  visited := insert x s.visited

/-- At most `fuel` turns; `order n` is the order found when `n` turns are left. -/
def search (order : ℕ → Iteration α) : ℕ → Search α → Search α
  | 0, s => s
  | n + 1, s =>
    match ((order n).list s.visiting).head? with
    | some x => search order n (s.turn succ x)
    | none => s

/-- What a search knows at any time: it holds only reachable nodes, it has not lost a root, the
    successors of what it has seen are in one of the two sets, and the sets do not meet. -/
structure Search.Ok (roots : Finset α) (s : Search α) : Prop where
  reached : ∀ x ∈ s.visiting ∪ s.visited, Reaches succ roots x
  roots : roots ⊆ s.visiting ∪ s.visited
  closed : ∀ x ∈ s.visited, ∀ y ∈ succ x, y ∈ s.visiting ∪ s.visited
  disjoint : Disjoint s.visiting s.visited

variable {succ}

omit [DecidableEq α] in
theorem reaches_succ {roots : Finset α} {x y : α} (hx : Reaches succ roots x) (hy : y ∈ succ x) :
    Reaches succ roots y := by
  obtain ⟨r, hr, hpath⟩ := hx
  exact ⟨r, hr, hpath.tail hy⟩

omit [DecidableEq α] in
/-- What becomes reachable does so from a new root, or over a new edge of a reachable node. -/
theorem reaches_new {succ' : α → List α} {roots roots' : Finset α} {x : α}
    (h : Reaches succ' roots' x) (hn : ¬ Reaches succ roots x) :
    (∃ r ∈ roots', r ∉ roots ∧ Relation.ReflTransGen (fun a b => b ∈ succ' a) r x) ∨
      ∃ a b, Reaches succ' roots' a ∧ b ∈ succ' a ∧ b ∉ succ a ∧
        Relation.ReflTransGen (fun a b => b ∈ succ' a) b x := by
  by_contra hno
  push Not at hno
  obtain ⟨hroot, hedge⟩ := hno
  obtain ⟨r, hr, hpath⟩ := h
  -- along the path every node was reachable before, the last one included
  have hold : ∀ y, Relation.ReflTransGen (fun a b => b ∈ succ' a) r y →
      Relation.ReflTransGen (fun a b => b ∈ succ' a) y x → Reaches succ roots y := by
    intro y hy
    induction hy with
    | refl =>
      intro hx
      by_contra hnone
      exact hroot r hr (fun hmem => hnone ⟨r, hmem, .refl⟩) hx
    | @tail a b hra hab ih =>
      intro hx
      have ha := ih (.head hab hx)
      by_contra hnone
      exact hedge a b ⟨r, hr, hra⟩ hab (fun hmem => hnone (reaches_succ ha hmem)) hx
  exact hn (hold x hpath .refl)

theorem ok_start (roots : Finset α) : Search.Ok succ roots ⟨roots, ∅⟩ where
  reached x hx := ⟨x, by simpa using hx, .refl⟩
  roots := by simp
  closed := by simp
  disjoint := by simp

/-- What one turn does to the union of the two sets. -/
theorem mem_turn {s : Search α} {x y : α} (hx : x ∈ s.visiting) :
    y ∈ (s.turn succ x).visiting ∪ (s.turn succ x).visited ↔
      y ∈ s.visiting ∪ s.visited ∨ y ∈ succ x := by
  by_cases hyx : y = x
  · simp [Search.turn, hyx, hx]
  · by_cases hv : y ∈ s.visited <;> simp [Search.turn, hyx, hv]

theorem turn_disjoint {s : Search α} (h : Disjoint s.visiting s.visited) {x : α} :
    Disjoint (s.turn succ x).visiting (s.turn succ x).visited := by
  rw [Finset.disjoint_left]
  intro y hy hv
  have hne : y ≠ x := Finset.ne_of_mem_erase hy
  have hold : y ∈ s.visited := (Finset.mem_insert.mp hv).resolve_left hne
  rcases Finset.mem_union.mp (Finset.mem_of_mem_erase hy) with hvis | hsucc
  · exact Finset.disjoint_left.mp h hvis hold
  · simp [hold] at hsucc

theorem ok_turn {roots : Finset α} {s : Search α} (h : s.Ok succ roots) {x : α}
    (hx : x ∈ s.visiting) : (s.turn succ x).Ok succ roots where
  reached y hy := by
    rcases (mem_turn hx).mp hy with hy | hy
    · exact h.reached y hy
    · exact reaches_succ (h.reached x (Finset.mem_union_left _ hx)) hy
  roots y hy := (mem_turn hx).mpr (.inl (h.roots hy))
  closed z hz y hy := by
    rw [mem_turn hx]
    rcases Finset.mem_insert.mp hz with rfl | hz
    · exact .inr hy
    · exact .inl (h.closed z hz y hy)
  disjoint := turn_disjoint h.disjoint

theorem head?_mem {it : Iteration α} {s : Finset α} {x : α} (h : (it.list s).head? = some x) :
    x ∈ s := it.mem_list.mp (List.mem_of_mem_head? h)

theorem ok_search (order : ℕ → Iteration α) {roots : Finset α} (n : ℕ) {s : Search α}
    (h : s.Ok succ roots) : (search succ order n s).Ok succ roots := by
  induction n generalizing s with
  | zero => exact h
  | succ n ih =>
    rw [search]
    split
    case h_1 x hx => exact ih (ok_turn h (head?_mem hx))
    case h_2 => exact h

/-- TERMINATION: when all nodes lie in `nodes`, a search with as much fuel as there are unseen nodes
    has nothing left to visit. -/
theorem search_done (order : ℕ → Iteration α) (nodes : Finset α)
    (hsucc : ∀ x ∈ nodes, ∀ y ∈ succ x, y ∈ nodes) (n : ℕ) {s : Search α}
    (hdisj : Disjoint s.visiting s.visited) (hnodes : s.visiting ⊆ nodes)
    (hn : (nodes \ s.visited).card ≤ n) : (search succ order n s).visiting = ∅ := by
  induction n generalizing s with
  | zero =>
    have hempty : nodes \ s.visited = ∅ := Finset.card_eq_zero.mp (Nat.le_zero.mp hn)
    rw [Finset.sdiff_eq_empty_iff_subset] at hempty
    rw [search]
    exact Finset.disjoint_self_iff_empty _ |>.mp (hdisj.mono_right (hnodes.trans hempty))
  | succ n ih =>
    rw [search]
    split
    case h_1 x hx =>
      have hxv := head?_mem hx
      have hxn : x ∈ nodes := hnodes hxv
      have hnew : x ∉ s.visited := Finset.disjoint_left.mp hdisj hxv
      refine ih (turn_disjoint hdisj) ?_ ?_
      · intro y hy
        rcases Finset.mem_union.mp (Finset.mem_of_mem_erase hy) with hvis | hy
        · exact hnodes hvis
        · simp only [List.mem_toFinset, List.mem_filter] at hy
          exact hsucc x hxn y hy.1
      · have hlt : (nodes \ insert x s.visited).card < (nodes \ s.visited).card := by
          refine Finset.card_lt_card ((Finset.ssubset_iff_of_subset ?_).mpr ⟨x, ?_, ?_⟩)
          · exact Finset.sdiff_subset_sdiff le_rfl (Finset.subset_insert _ _)
          · simp [hxn, hnew]
          · simp
        have : (nodes \ (s.turn succ x).visited).card < (nodes \ s.visited).card := hlt
        omega
    case h_2 hnone =>
      rw [List.head?_eq_none_iff] at hnone
      rw [← (order n).toFinset s.visiting, hnone]
      rfl

/-- EXACT: a search that has nothing left to visit has seen the reachable nodes and no others. -/
theorem Search.Ok.mem_visited {roots : Finset α} {s : Search α} (h : s.Ok succ roots)
    (hdone : s.visiting = ∅) {x : α} : x ∈ s.visited ↔ Reaches succ roots x := by
  constructor
  · exact fun hx => h.reached x (Finset.mem_union_right _ hx)
  · rintro ⟨r, hr, hpath⟩
    induction hpath with
    | refl => simpa [hdone] using h.roots hr
    | tail _ hy ih => simpa [hdone] using h.closed _ ih _ hy

/-- The search from `roots` with enough fuel sees exactly the reachable nodes. -/
theorem mem_search_visited (succ : α → List α) (order : ℕ → Iteration α) (roots nodes : Finset α)
    (hroots : roots ⊆ nodes) (hsucc : ∀ x ∈ nodes, ∀ y ∈ succ x, y ∈ nodes) {x : α} :
    x ∈ (search succ order nodes.card ⟨roots, ∅⟩).visited ↔ Reaches succ roots x := by
  refine (ok_search order _ (ok_start roots)).mem_visited ?_
  exact search_done order _ hsucc _ (by simp) hroots (by simp)

end

end Distribd.Schemes
