import Mathlib

/-!
# Binary heaps in a list

The heap of `heapq`: a list in which every element is at least its parent. An
element is sifted by moving a hole, and the comparisons are strict ones by rank:
two elements of one rank would be compared by what lies behind the rank, which
ends the operation here.

- `HoleOrder`: the order of a heap with a hole, kept by a move up or down;
- `siftdown_spec`, `siftup_spec`: the element lands in order, and among elements
  of distinct ranks no comparison looks behind the rank;
- `heappush_spec`, `heappop_spec`: so do the two operations, and the element taken
  out has the least rank.
-/

namespace Logvine

namespace Heapq

universe u v

/-- What ends an operation early: a comparison of two elements of one rank, or a
place outside of the heap. -/
inductive HeapError where
  | tied
  | indexError

section Operations

variable {α : Type u} {ρ : Type v} [LinearOrder ρ] (rank : α → ρ)

/-- `x < y`, by rank only. -/
def less (x y : α) : Except HeapError Bool :=
  if rank x = rank y then .error .tied else .ok (decide (rank x < rank y))

/-- The place of the parent. -/
def parentpos (pos : Nat) : Nat := (pos - 1) / 2

theorem parentpos_lt {pos : Nat} (h : 0 < pos) : parentpos pos < pos := by
  unfold parentpos
  omega

/-- `_siftdown` from the root: move the hole up until the element fits. -/
def siftdown (heap : List α) (newitem : α) (pos : Nat) : Except HeapError (List α) :=
  if hpos : 0 < pos then
    match heap[parentpos pos]? with
    | none => .error .indexError
    | some parent =>
      match less rank newitem parent with
      | .error e => .error e
      | .ok true =>
        have := parentpos_lt hpos
        siftdown (heap.set pos parent) newitem (parentpos pos)
      | .ok false => .ok (heap.set pos newitem)
  else .ok (heap.set pos newitem)

/-- The child that goes up: the left one unless it is not less than the right one. -/
def smallerChild (heap : List α) (pos : Nat) : Except HeapError (Nat × α) :=
  match heap[2 * pos + 1]?, heap[2 * pos + 2]? with
  | none, _ => .error .indexError
  | some left, none => .ok (2 * pos + 1, left)
  | some left, some right =>
    match less rank left right with
    | .error e => .error e
    | .ok true => .ok (2 * pos + 1, left)
    | .ok false => .ok (2 * pos + 2, right)

/-- What is picked is a child of the position. -/
theorem smallerChild_child {heap : List α} {pos childpos : Nat} {child : α}
    (h : smallerChild rank heap pos = .ok (childpos, child)) :
    heap[childpos]? = some child ∧ 0 < childpos ∧ parentpos childpos = pos := by
  have hleft : parentpos (2 * pos + 1) = pos := by unfold parentpos; omega
  have hright : parentpos (2 * pos + 2) = pos := by unfold parentpos; omega
  unfold smallerChild at h
  split at h
  · cases h
  · next left hl _ =>
    cases h
    exact ⟨hl, Nat.succ_pos _, hleft⟩
  · next left right hl hr =>
    split at h
    · cases h
    · cases h
      exact ⟨hl, Nat.succ_pos _, hleft⟩
    · cases h
      exact ⟨hr, Nat.succ_pos _, hright⟩

/-- `_siftup`: move the hole down to a leaf, then the element up from there. -/
def siftup (heap : List α) (newitem : α) (pos : Nat) : Except HeapError (List α) :=
  if hpos : 2 * pos + 1 < heap.length then
    match h : smallerChild rank heap pos with
    | .error e => .error e
    | .ok (childpos, child) =>
      have : heap.length - childpos < heap.length - pos := by
        obtain ⟨-, hne, hparent⟩ := smallerChild_child rank h
        have := parentpos_lt hne
        omega
      siftup (heap.set pos child) newitem childpos
  else siftdown rank heap newitem pos
termination_by heap.length - pos

/-- `heappush`. -/
def heappush (heap : List α) (item : α) : Except HeapError (List α) :=
  siftdown rank (heap ++ [item]) item heap.length

/-- `heappop`: the last element is put at the root and sifted. -/
def heappop (heap : List α) : Except HeapError (α × List α) :=
  match heap.getLast?, heap.dropLast with
  | none, _ => .error .indexError
  | some lastelt, [] => .ok (lastelt, [])
  | some lastelt, returnitem :: heap =>
    match siftup rank (lastelt :: heap) lastelt 0 with
    | .error e => .error e
    | .ok heap => .ok (returnitem, heap)

end Operations

/-! ## The order of a heap with a hole -/

section Order

variable {α : Type u} {ρ : Type v} [LinearOrder ρ] {rank : α → ρ} {heap : List α}

/-- What stands at `i` is at most what stands at `j`. -/
def AtMost (rank : α → ρ) (heap : List α) (i j : Nat) : Prop :=
  ∀ x ∈ heap[i]?, ∀ y ∈ heap[j]?, rank x ≤ rank y

/-- No element is less than its parent. -/
def Ordered (rank : α → ρ) (heap : List α) : Prop := ∀ i, 0 < i → AtMost rank heap (parentpos i) i

/-- The order of a heap whose place `hole` does not count: the other elements are at
least their parents, and the children of the hole are at least its parent. -/
structure HoleOrder (rank : α → ρ) (heap : List α) (hole : Nat) : Prop where
  edge : ∀ i, 0 < i → i ≠ hole → parentpos i ≠ hole → AtMost rank heap (parentpos i) i
  bridge : ∀ i, 0 < i → parentpos i = hole → 0 < hole → AtMost rank heap (parentpos hole) i

/-- After a write at one position, the others are as they were. -/
theorem mem_getElem?_set {i j : Nat} {x y : α} (h : y ∈ (heap.set i x)[j]?) :
    (j = i ∧ y = x) ∨ (j ≠ i ∧ y ∈ heap[j]?) := by
  by_cases hij : j = i
  · subst hij
    rw [List.getElem?_set_self', Option.mem_def, Option.map_eq_map, Option.map_eq_some_iff] at h
    obtain ⟨_, -, hx⟩ := h
    exact .inl ⟨rfl, hx.symm⟩
  · rw [List.getElem?_set_ne (Ne.symm hij)] at h
    exact .inr ⟨hij, h⟩

/-- The parent of an element is there. -/
theorem exists_parent {i : Nat} (hi : 0 < i) {y : α} (hy : y ∈ heap[i]?) :
    ∃ x, x ∈ heap[parentpos i]? := by
  have hlt := (List.getElem?_eq_some_iff.mp hy).1
  exact ⟨_, List.getElem?_eq_getElem (lt_trans (parentpos_lt hi) hlt)⟩

/-- Nothing in a heap is less than its root. -/
theorem Ordered.root_le (h : Ordered rank heap) (i : Nat) : AtMost rank heap 0 i := by
  -- up the parents of `i`
  induction i using Nat.strongRecOn with
  | ind i ih =>
    intro x hx y hy
    rcases Nat.eq_zero_or_pos i with rfl | hi
    · rw [Option.mem_unique hx hy]
    · obtain ⟨z, hz⟩ := exists_parent hi hy
      exact le_trans (ih _ (parentpos_lt hi) x hx z hz) (h i hi z hz y hy)

/-- The front of a heap is a heap. -/
theorem Ordered.of_append {l : List α} (h : Ordered rank (heap ++ l)) : Ordered rank heap := by
  intro i hi x hx y hy
  have hmem : ∀ j : Nat, ∀ z ∈ heap[j]?, z ∈ (heap ++ l)[j]? := by
    intro j z hz
    rwa [List.getElem?_append_left (List.getElem?_eq_some_iff.mp hz).1]
  exact h i hi x (hmem _ x hx) y (hmem _ y hy)

/-- An element put at the end of a heap stands in a hole. -/
theorem Ordered.concat (h : Ordered rank heap) (item : α) :
    HoleOrder rank (heap ++ [item]) heap.length := by
  have hpast : ∀ i, heap.length < i → ∀ y, y ∉ (heap ++ [item])[i]? := by
    intro i hi y hy
    have := (List.getElem?_eq_some_iff.mp hy).1
    rw [List.length_append, List.length_singleton] at this
    omega
  constructor
  · intro i hi hne _ x hx y hy
    have hlt : i < heap.length := by
      by_contra hge
      exact hpast i (by omega) y hy
    rw [List.getElem?_append_left (lt_trans (parentpos_lt hi) hlt)] at hx
    rw [List.getElem?_append_left hlt] at hy
    exact h i hi x hx y hy
  · intro i hi hparent _ x _ y hy
    have := parentpos_lt hi
    exact absurd hy (hpast i (by omega) y)

/-- A new root stands in a hole. -/
theorem Ordered.replaceRoot {root : α} (h : Ordered rank (root :: heap)) (item : α) :
    HoleOrder rank (item :: heap) 0 := by
  refine ⟨?_, fun _ _ _ hlt => absurd hlt (Nat.lt_irrefl 0)⟩
  intro i hi hne hparent x hx y hy
  obtain ⟨j, hj⟩ := Nat.exists_eq_succ_of_ne_zero hparent
  obtain ⟨k, rfl⟩ := Nat.exists_eq_succ_of_ne_zero hne
  refine h (k + 1) hi x ?_ y hy
  rw [hj] at hx ⊢
  exact hx

/-- Moving the hole up, its parent going down. -/
theorem HoleOrder.up {hole : Nat} (h : HoleOrder rank heap hole) (hpos : 0 < hole) {p : α}
    (hp : p ∈ heap[parentpos hole]?) : HoleOrder rank (heap.set hole p) (parentpos hole) := by
  have hlt := parentpos_lt hpos
  constructor
  · intro i hi hne hparent x hx y hy
    -- the hole itself is a child of its parent
    have hhole : i ≠ hole := by
      rintro rfl
      exact hparent rfl
    rcases mem_getElem?_set hy with ⟨rfl, -⟩ | ⟨-, hy'⟩
    · exact absurd rfl hhole
    rcases mem_getElem?_set hx with ⟨hpi, rfl⟩ | ⟨hpi, hx'⟩
    · exact h.bridge i hi hpi hpos x hp y hy'
    · exact h.edge i hi hhole hpi x hx' y hy'
  · intro i hi hparent hlt' x hx y hy
    have hlt'' := parentpos_lt hlt'
    rcases mem_getElem?_set hx with ⟨he, -⟩ | ⟨-, hx'⟩
    · omega
    have habove : rank x ≤ rank p := h.edge (parentpos hole) hlt' (by omega) (by omega) x hx' p hp
    rcases mem_getElem?_set hy with ⟨rfl, rfl⟩ | ⟨hne, hy'⟩
    · exact habove
    · exact le_trans habove (h.edge i hi hne (by omega) p (hparent ▸ hp) y hy')

/-- Moving the hole down, the smaller one of its children going up. -/
theorem HoleOrder.down {hole childpos : Nat} (h : HoleOrder rank heap hole) (hchild : 0 < childpos)
    (hparent : parentpos childpos = hole) {c : α} (hc : c ∈ heap[childpos]?)
    (hleast : ∀ i, 0 < i → parentpos i = hole → ∀ y ∈ heap[i]?, rank c ≤ rank y) :
    HoleOrder rank (heap.set hole c) childpos := by
  have hlt := parentpos_lt hchild
  constructor
  · intro i hi hne hnc x hx y hy
    rcases mem_getElem?_set hx with ⟨hpi, rfl⟩ | ⟨hpi, hx'⟩
    -- the other child
    · rcases mem_getElem?_set hy with ⟨rfl, -⟩ | ⟨-, hy'⟩
      · exact absurd hpi (ne_of_lt (parentpos_lt hi))
      · exact hleast i hi hpi y hy'
    · rcases mem_getElem?_set hy with ⟨rfl, rfl⟩ | ⟨hih, hy'⟩
      · exact h.bridge childpos hchild hparent hi x hx' y hc
      · exact h.edge i hi hih hpi x hx' y hy'
  · intro i hi hpi _ x hx y hy
    have hlt' := parentpos_lt hi
    rw [hparent] at hx
    rcases mem_getElem?_set hx with ⟨-, rfl⟩ | ⟨hne, -⟩
    · rcases mem_getElem?_set hy with ⟨he, -⟩ | ⟨hne, hy'⟩
      · omega
      · exact h.edge i hi hne (by omega) x (hpi ▸ hc) y hy'
    · exact absurd rfl hne

/-- Filling the hole with an element that fits. -/
theorem HoleOrder.fill {hole : Nat} (h : HoleOrder rank heap hole) {item : α}
    (habove : 0 < hole → ∀ p ∈ heap[parentpos hole]?, rank p ≤ rank item)
    (hbelow : ∀ i, 0 < i → parentpos i = hole → ∀ y ∈ heap[i]?, rank item ≤ rank y) :
    Ordered rank (heap.set hole item) := by
  intro i hi x hx y hy
  rcases mem_getElem?_set hx with ⟨hpi, rfl⟩ | ⟨hpi, hx'⟩
  · rcases mem_getElem?_set hy with ⟨rfl, -⟩ | ⟨-, hy'⟩
    · exact absurd hpi (ne_of_lt (parentpos_lt hi))
    · exact hbelow i hi hpi y hy'
  · rcases mem_getElem?_set hy with ⟨rfl, rfl⟩ | ⟨hne, hy'⟩
    · exact habove hi x hx'
    · exact h.edge i hi hne hpi x hx' y hy'

end Order

/-! ## The elements stay the same -/

section Perm

variable {α : Type u} {heap : List α}

/-- Moving the hole from `i` to `j` does not change what the heap holds. -/
theorem perm_set_set {i j : Nat} (hij : i ≠ j) (hi : i < heap.length) {y : α} (hy : y ∈ heap[j]?)
    (x : α) : ((heap.set i y).set j x).Perm (heap.set i x) := by
  obtain ⟨hj, rfl⟩ := List.getElem?_eq_some_iff.mp hy
  have hi' : i < (heap.set i x).length := by rwa [List.length_set]
  have hj' : j < (heap.set i x).length := by rwa [List.length_set]
  have := List.set_set_perm hi' hj'
  rwa [List.getElem_set_self, List.getElem_set_ne hij, List.set_set] at this

variable {ρ : Type v} [LinearOrder ρ] {rank : α → ρ} {newitem : α} {pos : Nat} {heap' : List α}

/-- Sifting moves items about and loses none. -/
theorem perm_siftdown (hlen : pos < heap.length) (h : siftdown rank heap newitem pos = .ok heap') :
    heap'.Perm (heap.set pos newitem) := by
  fun_induction siftdown rank heap newitem pos with
  | case1 => cases h
  | case2 => cases h
  | case3 heap pos hpos parent hparent _ hlt ih =>
    have hperm := ih (by rw [List.length_set]; exact lt_trans hlt hlen) h
    exact hperm.trans (perm_set_set (ne_of_gt hlt) hlen hparent newitem)
  | case4 =>
    cases h
    exact .refl _
  | case5 =>
    cases h
    exact .refl _

/-- In the other direction too. -/
theorem perm_siftup (hlen : pos < heap.length) (h : siftup rank heap newitem pos = .ok heap') :
    heap'.Perm (heap.set pos newitem) := by
  fun_induction siftup rank heap newitem pos with
  | case1 => cases h
  | case2 heap pos hpos childpos child hchild _ ih =>
    obtain ⟨hmem, hne, hparent⟩ := smallerChild_child rank hchild
    have hlt := hparent ▸ parentpos_lt hne
    have hperm := ih (by rw [List.length_set]; exact (List.getElem?_eq_some_iff.mp hmem).1) h
    exact hperm.trans (perm_set_set (ne_of_lt hlt) hlen hmem newitem)
  | case3 => exact perm_siftdown hlen h

/-- `heappush` adds the item and loses none. -/
theorem perm_heappush {item : α} (h : heappush rank heap item = .ok heap') :
    heap'.Perm (item :: heap) := by
  have hperm := perm_siftdown (by rw [List.length_append]; exact Nat.lt_succ_self _) h
  rw [List.set_append_right _ _ (Nat.le_refl _), Nat.sub_self] at hperm
  exact hperm.trans (List.perm_append_singleton item heap)

/-- `heappop` takes one item and loses none. -/
theorem perm_heappop {item : α} (h : heappop rank heap = .ok (item, heap')) :
    heap.Perm (item :: heap') := by
  unfold heappop at h
  split at h
  · cases h
  · next hlast hdrop =>
    cases h
    have := List.dropLast_append_getLast? _ hlast
    rw [← this, hdrop]
    exact .refl _
  · next last root front hlast hdrop =>
    split at h
    · cases h
    · next sifted hsift =>
      cases h
      have := List.dropLast_append_getLast? _ hlast
      rw [← this, hdrop]
      have hperm := perm_siftup (Nat.succ_pos _) hsift
      exact ((List.perm_append_singleton last front).trans hperm.symm).cons _

end Perm

/-! ## The element lands in order -/

section Spec

variable {α : Type u} {ρ : Type v} [LinearOrder ρ] {rank : α → ρ} {heap : List α} {newitem : α}
  {pos : Nat}

/-- Items that differ in rank can be compared. -/
theorem less_of_ne {x y : α} (h : rank x ≠ rank y) : less rank x y = .ok (decide (rank x < rank y)) :=
  if_neg h

omit [LinearOrder ρ] in
/-- With distinct ranks, two positions hold different ranks. -/
theorem rank_ne (hd : (heap.map rank).Nodup) {i j : Nat} (hij : i ≠ j) {x y : α} (hx : x ∈ heap[i]?)
    (hy : y ∈ heap[j]?) : rank x ≠ rank y := by
  obtain ⟨hi, rfl⟩ := List.getElem?_eq_some_iff.mp hx
  obtain ⟨hj, rfl⟩ := List.getElem?_eq_some_iff.mp hy
  intro heq
  have hi' : i < (heap.map rank).length := by rwa [List.length_map]
  have hj' : j < (heap.map rank).length := by rwa [List.length_map]
  have hsame : (heap.map rank)[i] = (heap.map rank)[j] := by rw [List.getElem_map, List.getElem_map, heq]
  exact hij (hd.getElem_inj_iff.mp hsame)

/-- The ranks of a heap whose hole is filled are distinct. -/
def Distinct (rank : α → ρ) (heap : List α) (pos : Nat) (newitem : α) : Prop :=
  ((heap.set pos newitem).map rank).Nodup

omit [LinearOrder ρ] in
/-- Moving an item into the gap leaves the ranks distinct. -/
theorem Distinct.move (hd : Distinct rank heap pos newitem) (hlen : pos < heap.length) {j : Nat}
    (hj : pos ≠ j) {y : α} (hy : y ∈ heap[j]?) : Distinct rank (heap.set pos y) j newitem :=
  ((perm_set_set hj hlen hy newitem).map rank).nodup_iff.mpr hd

omit [LinearOrder ρ] in
theorem Distinct.ne_newitem (hd : Distinct rank heap pos newitem) (hlen : pos < heap.length) {j : Nat}
    (hj : pos ≠ j) {y : α} (hy : y ∈ heap[j]?) : rank newitem ≠ rank y := by
  refine rank_ne hd hj (List.getElem?_set_self hlen) ?_
  rwa [List.getElem?_set_ne hj]

/-- **The element goes up to its place**, without a comparison behind the rank. -/
theorem siftdown_spec (hlen : pos < heap.length) (hd : Distinct rank heap pos newitem)
    (h : HoleOrder rank heap pos)
    (hbelow : ∀ i, 0 < i → parentpos i = pos → ∀ y ∈ heap[i]?, rank newitem ≤ rank y) :
    ∃ heap', siftdown rank heap newitem pos = .ok heap' ∧ Ordered rank heap' := by
  fun_induction siftdown rank heap newitem pos with
  | case1 heap pos hpos hnone =>
    exact absurd (lt_trans (parentpos_lt hpos) hlen) (Nat.not_lt.mpr (List.getElem?_eq_none_iff.mp hnone))
  | case2 heap pos hpos parent hparent e hless =>
    have hne := hd.ne_newitem hlen (ne_of_gt (parentpos_lt hpos)) hparent
    rw [less_of_ne hne] at hless
    cases hless
  | case3 heap pos hpos parent hparent hless hlt ih =>
    have hne := hd.ne_newitem hlen (ne_of_gt hlt) hparent
    rw [less_of_ne hne] at hless
    have hrank : rank newitem < rank parent := of_decide_eq_true (Except.ok.inj hless)
    refine ih (by rw [List.length_set]; exact lt_trans hlt hlen) (hd.move hlen (ne_of_gt hlt) hparent)
      (h.up hpos hparent) ?_
    intro i hi hpi y hy
    rcases mem_getElem?_set hy with ⟨-, rfl⟩ | ⟨hi', hy'⟩
    · exact le_of_lt hrank
    · exact le_trans (le_of_lt hrank) (h.edge i hi hi' (by omega) parent (hpi ▸ hparent) y hy')
  | case4 heap pos hpos parent hparent hless =>
    have hne := hd.ne_newitem hlen (ne_of_gt (parentpos_lt hpos)) hparent
    rw [less_of_ne hne] at hless
    have hrank : ¬rank newitem < rank parent := of_decide_eq_false (Except.ok.inj hless)
    refine ⟨_, rfl, h.fill ?_ hbelow⟩
    intro _ p hp
    rw [Option.mem_unique hp hparent]
    exact not_lt.mp hrank
  | case5 heap pos hpos => exact ⟨_, rfl, h.fill (fun h0 => absurd h0 hpos) hbelow⟩

/-- The child picked is the smaller of the two. -/
theorem smallerChild_spec (hlen : 2 * pos + 1 < heap.length) (hd : Distinct rank heap pos newitem) :
    ∃ childpos child, smallerChild rank heap pos = .ok (childpos, child) ∧
      ∀ i, 0 < i → parentpos i = pos → ∀ y ∈ heap[i]?, rank child ≤ rank y := by
  have hchildren : ∀ i, 0 < i → parentpos i = pos → i = 2 * pos + 1 ∨ i = 2 * pos + 2 := by
    intro i hi hpi
    unfold parentpos at hpi
    omega
  have hleft := List.getElem?_eq_getElem hlen
  unfold smallerChild
  cases hright : heap[2 * pos + 2]? with
  | none =>
    rw [hleft]
    refine ⟨_, _, rfl, ?_⟩
    intro i hi hpi y hy
    rcases hchildren i hi hpi with rfl | rfl
    · rw [Option.mem_unique hy hleft]
    · rw [hright] at hy
      cases hy
  | some right =>
    rw [hleft]
    have hne : rank heap[2 * pos + 1] ≠ rank right := by
      refine rank_ne hd (i := 2 * pos + 1) (j := 2 * pos + 2) (by omega) ?_ ?_
      · rwa [List.getElem?_set_ne (by omega)]
      · rwa [List.getElem?_set_ne (by omega)]
    simp only [less_of_ne hne]
    rcases lt_or_gt_of_ne hne with hlt | hgt
    · rw [decide_eq_true hlt]
      refine ⟨_, _, rfl, ?_⟩
      intro i hi hpi y hy
      rcases hchildren i hi hpi with rfl | rfl
      · rw [Option.mem_unique hy hleft]
      · rw [Option.mem_unique hy hright]
        exact le_of_lt hlt
    · rw [decide_eq_false (not_lt.mpr (le_of_lt hgt))]
      refine ⟨_, _, rfl, ?_⟩
      intro i hi hpi y hy
      rcases hchildren i hi hpi with rfl | rfl
      · rw [Option.mem_unique hy hleft]
        exact le_of_lt hgt
      · rw [Option.mem_unique hy hright]

/-- **The element goes down to a leaf and up to its place.** -/
theorem siftup_spec (hlen : pos < heap.length) (hd : Distinct rank heap pos newitem)
    (h : HoleOrder rank heap pos) :
    ∃ heap', siftup rank heap newitem pos = .ok heap' ∧ Ordered rank heap' := by
  fun_induction siftup rank heap newitem pos with
  | case1 heap pos hpos e herror =>
    obtain ⟨_, _, hok, -⟩ := smallerChild_spec hpos hd
    rw [hok] at herror
    cases herror
  | case2 heap pos hpos childpos child hchild _ ih =>
    obtain ⟨_, _, hok, hleast⟩ := smallerChild_spec hpos hd
    rw [hok] at hchild
    cases hchild
    obtain ⟨hmem, hne, hparent⟩ := smallerChild_child rank hok
    have hlt := hparent ▸ parentpos_lt hne
    exact ih (by rw [List.length_set]; exact (List.getElem?_eq_some_iff.mp hmem).1)
      (hd.move hlen (ne_of_lt hlt) hmem) (h.down hne hparent hmem hleast)
  | case3 heap pos hleaf =>
    refine siftdown_spec hlen hd h ?_
    -- the hole has become a leaf
    intro i hi hpi y hy
    have := (List.getElem?_eq_some_iff.mp hy).1
    unfold parentpos at hpi
    omega

/-! ## The operations -/

/-- `heappush` keeps the order of the heap, and with distinct ranks no comparison raises. -/
theorem heappush_spec {item : α} (h : Ordered rank heap) (hd : ((item :: heap).map rank).Nodup) :
    ∃ heap', heappush rank heap item = .ok heap' ∧ heap'.Perm (item :: heap) ∧ Ordered rank heap' := by
  have hset : (heap ++ [item]).set heap.length item = heap ++ [item] := by
    rw [List.set_append_right _ _ (Nat.le_refl _), Nat.sub_self]
    rfl
  have hdistinct : Distinct rank (heap ++ [item]) heap.length item := by
    rw [Distinct, hset]
    exact ((List.perm_append_singleton item heap).map rank).nodup_iff.mpr hd
  have hlen : heap.length < (heap ++ [item]).length := by
    rw [List.length_append]
    exact Nat.lt_succ_self _
  obtain ⟨heap', hok, hord⟩ := siftdown_spec hlen hdistinct (h.concat item) (by
    -- nothing stands behind the end
    intro i hi hpi y hy
    have := (List.getElem?_eq_some_iff.mp hy).1
    have := parentpos_lt hi
    rw [List.length_append, List.length_singleton] at *
    omega)
  exact ⟨heap', hok, perm_heappush hok, hord⟩

/-- **`heappop` takes out the element of the least rank.** -/
theorem heappop_spec (hne : heap ≠ []) (h : Ordered rank heap) (hd : (heap.map rank).Nodup) :
    ∃ item heap', heappop rank heap = .ok (item, heap') ∧ heap.Perm (item :: heap') ∧
      Ordered rank heap' ∧ ∀ y ∈ heap', rank item ≤ rank y := by
  obtain ⟨front, last, rfl⟩ : ∃ front last, heap = front ++ [last] :=
    ⟨_, _, (List.dropLast_append_getLast hne).symm⟩
  cases front with
  | nil => exact ⟨last, [], rfl, .refl _, fun i _ x hx => absurd hx (by simp), List.forall_mem_nil _⟩
  | cons root front =>
    have hrotate : (root :: front ++ [last]).Perm (root :: last :: front) :=
      (List.perm_append_singleton last front).cons root
    have hdistinct : Distinct rank (last :: front) 0 last :=
      (List.nodup_cons.mp ((hrotate.map rank).nodup_iff.mp hd)).2
    have hfront : Ordered rank (root :: front) := h.of_append
    obtain ⟨heap', hok, hord⟩ := siftup_spec (Nat.succ_pos _) hdistinct (hfront.replaceRoot last)
    have hpop : heappop rank (root :: front ++ [last]) = .ok (root, heap') := by
      rw [heappop, List.getLast?_append, List.dropLast_concat]
      simp only [List.getLast?_singleton, Option.some_or, hok]
    have hperm := perm_heappop hpop
    refine ⟨root, heap', hpop, hperm, hord, ?_⟩
    intro y hy
    obtain ⟨i, hi⟩ := List.mem_iff_getElem?.mp (hperm.mem_iff.mpr (List.mem_cons_of_mem _ hy))
    exact h.root_le i root rfl y hi

end Spec

end Heapq

end Logvine
