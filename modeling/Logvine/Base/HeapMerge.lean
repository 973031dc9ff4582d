import Logvine.Base.Heapq
import Logvine.Base.KWayMerge

/-!
# The merge on a binary heap

The k-way merge again, with its fronts in a binary heap. The loop goes on for as
long as there are elements, so the function itself says that it ends: every round
takes one pair away from what is left. A comparison of two fronts with the same key
and place would be an error.

- `heapLoop_eq`: the loop yields what `mergeLoop` does, by induction on its rounds;
- `heapMerge_eq`: **the merge on a binary heap is `kwayMerge`**, for all inputs.

The loop is stated on the heap as it stands in memory, whose order is not determined by its
contents; `kwayMerge` is stated on what the heap contains. Every lemma is therefore up to a
permutation of the heap.
-/

namespace Logvine

open Heapq

universe u v

variable {κ : Type u} {ν : Type v} [LinearOrder κ]

/-- Push the front of what is left of a list, if anything is. -/
def pushFront (heap : List (HeapItem κ ν)) (index : Nat) :
    List (κ × ν) → Except HeapError (List (HeapItem κ ν))
  | [] => .ok heap
  | (key, value) :: iterator => heappush HeapItem.rank heap ⟨key, index, value, iterator⟩

/-- The front of a list that is pushed is one item more on the heap. -/
theorem perm_pushFront {heap heap' : List (HeapItem κ ν)} {index : Nat} {l : List (κ × ν)}
    (h : pushFront heap index l = .ok heap') : heap'.Perm (advance heap index l) := by
  cases l with
  | nil =>
    cases h
    exact .refl _
  | cons p l => exact perm_heappush h

omit [LinearOrder κ] in
/-- What is left to merge does not depend on the order in the heap. -/
theorem heapSize_perm {heap heap' : List (HeapItem κ ν)} (h : heap.Perm heap') :
    heapSize heap = heapSize heap' := (h.map _).sum_eq

omit [LinearOrder κ] in
/-- A round takes one pair away. -/
theorem heapSize_round {heap rest heap' : List (HeapItem κ ν)} {x : HeapItem κ ν}
    (hpop : heap.Perm (x :: rest)) (hpush : heap'.Perm (advance rest x.index x.iterator)) :
    heapSize heap' + 1 = heapSize heap := by
  rw [heapSize_perm hpush, heapSize_perm hpop, heapSize_advance]
  simp only [heapSize, List.map_cons, List.sum_cons]
  omega

/-- The loop of the merge, `while heap`. -/
def heapLoop (heap : List (HeapItem κ ν)) (lastKey : Option κ) : Except HeapError (List (κ × ν)) :=
  if heap.isEmpty then .ok []
  else
    match hpop : Heapq.heappop HeapItem.rank heap with
    | .error e => .error e
    | .ok (x, rest) =>
      match hpush : pushFront rest x.index x.iterator with
      | .error e => .error e
      | .ok heap' =>
        have := heapSize_round (perm_heappop hpop) (perm_pushFront hpush)
        if lastKey = some x.key then heapLoop heap' lastKey
        else (heapLoop heap' (some x.key)).map ((x.key, x.value) :: ·)
termination_by heapSize heap

/-- Merge lists of pairs, the first list taking precedence. -/
def heapMerge (inputs : List (List (κ × ν))) : Except HeapError (List (κ × ν)) :=
  match inputs.zipIdx.foldlM (fun heap input => pushFront heap input.2 input.1) [] with
  | .error e => .error e
  | .ok heap => heapLoop heap none

/-! ## A round -/

theorem heapLoop_nil (lastKey : Option κ) : heapLoop ([] : List (HeapItem κ ν)) lastKey = .ok [] := by
  rw [heapLoop]
  rfl

/-- One round: the smallest item is taken and its list moves on; a key met before is skipped. -/
theorem heapLoop_round {heap rest heap' : List (HeapItem κ ν)} {x : HeapItem κ ν} (hne : heap ≠ [])
    (hpop : Heapq.heappop HeapItem.rank heap = .ok (x, rest))
    (hpush : pushFront rest x.index x.iterator = .ok heap') (lastKey : Option κ) :
    heapLoop heap lastKey = if lastKey = some x.key then heapLoop heap' lastKey
      else (heapLoop heap' (some x.key)).map ((x.key, x.value) :: ·) := by
  rw [heapLoop, if_neg (by rwa [List.isEmpty_iff])]
  split
  · next hpop' =>
    rw [hpop] at hpop'
    cases hpop'
  · next hpop' =>
    rw [hpop] at hpop'
    cases hpop'
    split
    · next hpush' =>
      rw [hpush] at hpush'
      cases hpush'
    · next hpush' =>
      rw [hpush] at hpush'
      cases hpush'
      rfl

omit [LinearOrder κ] in
/-- With one item for each list no two items compare equal. -/
theorem rank_injective {heap : List (HeapItem κ ν)} (h : (heap.map HeapItem.index).Nodup) :
    (heap.map HeapItem.rank).Nodup := by
  refine List.Nodup.of_map (fun r : κ ×ₗ Nat => (ofLex r).2) ?_
  rwa [List.map_map]

omit [LinearOrder κ] in
theorem advance_perm {heap heap' : List (HeapItem κ ν)} (h : heap.Perm heap') (index : Nat)
    (l : List (κ × ν)) : (advance heap index l).Perm (advance heap' index l) := by
  cases l with
  | nil => exact h
  | cons p l => exact h.cons _

/-- Pushing the front of a list succeeds, as the comparison never gets past the index. -/
theorem pushFront_spec {heap : List (HeapItem κ ν)} {index : Nat} {l : List (κ × ν)}
    (h : Ordered HeapItem.rank heap) (hd : ((advance heap index l).map HeapItem.index).Nodup) :
    ∃ heap', pushFront heap index l = .ok heap' ∧ heap'.Perm (advance heap index l) ∧
      Ordered HeapItem.rank heap' := by
  cases l with
  | nil => exact ⟨heap, rfl, .refl _, h⟩
  | cons p l => exact heappush_spec h (rank_injective hd)

/-- The two ways of popping take out the same front: no other has its place. -/
theorem heappop_unique {items rest rest' : List (HeapItem κ ν)} {x y : HeapItem κ ν}
    (hd : (items.map HeapItem.index).Nodup) (hx : items.Perm (x :: rest))
    (hxle : ∀ z ∈ rest, x.rank ≤ z.rank) (hy : items.Perm (y :: rest'))
    (hyle : ∀ z ∈ rest', y.rank ≤ z.rank) : x = y ∧ rest.Perm rest' := by
  have hxmem : x ∈ items := hx.mem_iff.mpr List.mem_cons_self
  have hymem : y ∈ items := hy.mem_iff.mpr List.mem_cons_self
  have hle : x.rank ≤ y.rank := by
    rcases List.mem_cons.mp (hx.mem_iff.mp hymem) with rfl | hmem
    · exact le_refl _
    · exact hxle y hmem
  have hge : y.rank ≤ x.rank := by
    rcases List.mem_cons.mp (hy.mem_iff.mp hxmem) with rfl | hmem
    · exact le_refl _
    · exact hyle x hmem
  have hindex : x.index = y.index := congrArg (fun r => (ofLex r).2) (le_antisymm hle hge)
  obtain rfl : x = y := List.inj_on_of_nodup_map hd hxmem hymem hindex
  exact ⟨rfl, (hx.symm.trans hy).cons_inv⟩

/-- **The loops agree**: on the same fronts, in whatever order each keeps them. -/
theorem heapLoop_eq (rounds : Nat) {heap items : List (HeapItem κ ν)} {remaining : Nat → List (κ × ν)}
    {lastKey : Option κ} (hord : Ordered HeapItem.rank heap) (hperm : heap.Perm items)
    (hrep : Represents items remaining) (hsize : heapSize items ≤ rounds) :
    heapLoop heap lastKey = .ok (mergeLoop rounds items lastKey) := by
  -- by induction on the rounds, each of which takes one pair away
  induction rounds generalizing heap items remaining lastKey with
  | zero =>
    have hnil : items = [] := by
      cases items with
      | nil => rfl
      | cons x items => simp [heapSize] at hsize
    subst hnil
    rw [hperm.eq_nil, heapLoop_nil, mergeLoop]
  | succ rounds ih =>
    cases hpop : Logvine.heappop items with
    | none =>
      obtain rfl := heappop_eq_none hpop
      rw [hperm.eq_nil, heapLoop_nil, mergeLoop]
      rfl
    | some found =>
      obtain ⟨y, rest'⟩ := found
      obtain ⟨hy, hyle⟩ := Logvine.heappop_spec hpop
      have hd : (heap.map HeapItem.index).Nodup := (hperm.map _).nodup_iff.mpr hrep.nodup
      have hne : heap ≠ [] := by
        rintro rfl
        exact absurd (hperm.trans hy).nil_eq (List.cons_ne_nil _ _).symm
      obtain ⟨x, rest, hheap, hx, hrest, hxle⟩ := Heapq.heappop_spec hne hord (rank_injective hd)
      obtain ⟨rfl, hsame⟩ := heappop_unique hrep.nodup (hperm.symm.trans hx) hxle hy hyle
      have hrep' := represents_pop hrep hy
      have hadvance := advance_perm hsame x.index x.iterator
      obtain ⟨heap', hpush, hperm', hord'⟩ := pushFront_spec hrest
        ((hadvance.map HeapItem.index).nodup_iff.mpr hrep'.nodup)
      have hsize' : heapSize (advance rest' x.index x.iterator) ≤ rounds := by
        have := heapSize_round hy (.refl (advance rest' x.index x.iterator))
        omega
      have hnext : ∀ lastKey, heapLoop heap' lastKey =
          .ok (mergeLoop rounds (advance rest' x.index x.iterator) lastKey) :=
        fun lastKey => ih hord' (hperm'.trans hadvance) hrep' hsize'
      rw [heapLoop_round hne hheap hpush, mergeLoop, hpop, hnext, hnext]
      dsimp only
      split <;> rfl

/-! ## The merge -/

/-- The heap the loop starts with holds the fronts of all inputs. -/
theorem pushFronts_spec (inputs : List (List (κ × ν))) :
    ∃ heap, inputs.zipIdx.foldlM (fun heap input => pushFront heap input.2 input.1) [] = .ok heap ∧
      heap.Perm (inputs.zipIdx.foldl (fun heap input => advance heap input.2 input.1) []) ∧
      Ordered HeapItem.rank heap := by
  induction inputs using List.reverseRecOn with
  | nil => exact ⟨[], rfl, .refl _, fun i _ x hx => absurd hx (by simp)⟩
  | append_singleton inputs l ih =>
    obtain ⟨heap, hrun, hperm, hord⟩ := ih
    have hrep := (represents_inputs (inputs ++ [l])).1
    rw [List.zipIdx_append, List.foldl_append] at hrep ⊢
    have hadvance := advance_perm hperm (0 + inputs.length) l
    obtain ⟨heap', hpush, hperm', hord'⟩ :=
      pushFront_spec hord ((hadvance.map HeapItem.index).nodup_iff.mpr hrep.nodup)
    refine ⟨heap', ?_, hperm'.trans hadvance, hord'⟩
    rw [List.foldlM_append, hrun]
    show (pushFront heap (0 + inputs.length) l >>= pure) = _
    rw [hpush]
    rfl

/-- **The merge on a binary heap** ends, compares nothing behind key and place, and
is the merge that takes the least front each time. -/
theorem heapMerge_eq (inputs : List (List (κ × ν))) : heapMerge inputs = .ok (kwayMerge inputs) := by
  obtain ⟨heap, hrun, hperm, hord⟩ := pushFronts_spec inputs
  obtain ⟨hrep, hsize⟩ := represents_inputs inputs
  rw [heapMerge, hrun]
  exact heapLoop_eq _ hord hperm hrep (Nat.le_of_eq hsize)

end Logvine
