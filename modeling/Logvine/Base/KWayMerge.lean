import Logvine.Base.Dict
import Logvine.Base.Layers

/-!
# Merging ascending lists through a heap

The k-way merge of lists of pairs with ascending keys: a heap holds the front of
every list, marked with the list's place, the least front by key and then place is
taken out again and again, and a key already taken is skipped. Where several lists
hold a key the first of them wins.

- `Represents`: the heap stands for what is left of the lists;
- `mergeLoop_spec`: what the rest of the loop yields, by induction on its rounds;
- `ascending_kwayMerge`, `assoc_kwayMerge`: the merge is ascending and answers as
  the stack of its inputs does.
-/

namespace Logvine

open Layer

universe u v

variable {κ : Type u} {ν : Type v}

/-- An element of the heap: the front of a list, the list's place, and the rest. -/
structure HeapItem (κ : Type u) (ν : Type v) where
  key : κ
  index : Nat
  value : ν
  iterator : List (κ × ν)

/-- Push the front of what is left of a list, if anything is. -/
def advance (heap : List (HeapItem κ ν)) (index : Nat) : List (κ × ν) → List (HeapItem κ ν)
  | [] => heap
  | (key, value) :: iterator => ⟨key, index, value, iterator⟩ :: heap

section Loop

variable [LinearOrder κ]

/-- The heap's order: key, then place. -/
def HeapItem.rank (x : HeapItem κ ν) : κ ×ₗ Nat := toLex (x.key, x.index)

/-- Take out the least element. -/
def heappop : List (HeapItem κ ν) → Option (HeapItem κ ν × List (HeapItem κ ν))
  | [] => none
  | x :: heap =>
    match heappop heap with
    | none => some (x, [])
    | some (least, rest) =>
      if x.rank ≤ least.rank then some (x, least :: rest) else some (least, x :: rest)

/-- The loop of the merge, for as many rounds as there are pairs. -/
def mergeLoop : Nat → List (HeapItem κ ν) → Option κ → List (κ × ν)
  | 0, _, _ => []
  | rounds + 1, heap, lastKey =>
    match heappop heap with
    | none => []
    | some (x, heap) =>
      if lastKey = some x.key then mergeLoop rounds (advance heap x.index x.iterator) lastKey
      else (x.key, x.value) :: mergeLoop rounds (advance heap x.index x.iterator) (some x.key)

/-- Merge lists of pairs, the first list taking precedence. -/
def kwayMerge (inputs : List (List (κ × ν))) : List (κ × ν) :=
  let heap := inputs.zipIdx.foldl (fun heap input => advance heap input.2 input.1) []
  mergeLoop (inputs.map List.length).sum heap none

/-! ## Popping -/

theorem heappop_spec {heap : List (HeapItem κ ν)} {least : HeapItem κ ν}
    {rest : List (HeapItem κ ν)} (h : heappop heap = some (least, rest)) :
    heap.Perm (least :: rest) ∧ ∀ x ∈ rest, least.rank ≤ x.rank := by
  -- by induction on the heap, as `heappop` recurses
  induction heap generalizing least rest with
  | nil => cases h
  | cons x heap ih =>
    rw [heappop] at h
    cases hpop : heappop heap with
    | none =>
      rw [hpop] at h
      obtain ⟨rfl, rfl⟩ := Prod.mk.inj (Option.some.inj h)
      cases heap with
      | nil => exact ⟨.refl _, by simp⟩
      | cons y heap =>
        rw [heappop] at hpop
        split at hpop
        · cases hpop
        · split at hpop <;> cases hpop
    | some found =>
      obtain ⟨least', rest'⟩ := found
      obtain ⟨hperm, hle⟩ := ih hpop
      rw [hpop] at h
      dsimp only at h
      split at h
      · next hx =>
        obtain ⟨rfl, rfl⟩ := Prod.mk.inj (Option.some.inj h)
        refine ⟨hperm.cons _, ?_⟩
        intro y hy
        rcases List.mem_cons.mp hy with rfl | hy
        · exact hx
        · exact le_trans hx (hle y hy)
      · next hx =>
        obtain ⟨rfl, rfl⟩ := Prod.mk.inj (Option.some.inj h)
        refine ⟨(hperm.cons x).trans (.swap ..), ?_⟩
        intro y hy
        rcases List.mem_cons.mp hy with rfl | hy
        · exact le_of_lt (not_le.mp hx)
        · exact hle y hy

theorem heappop_eq_none {heap : List (HeapItem κ ν)} (h : heappop heap = none) : heap = [] := by
  cases heap with
  | nil => rfl
  | cons x heap =>
    rw [heappop] at h
    split at h
    · cases h
    · split at h <;> cases h

end Loop

/-! ## What the heap stands for -/

/-- `remaining i` is what is left of the `i`-th list: its front is in the heap. -/
structure Represents (heap : List (HeapItem κ ν)) (remaining : Nat → List (κ × ν)) : Prop where
  nodup : (heap.map HeapItem.index).Nodup
  item : ∀ x ∈ heap, remaining x.index = (x.key, x.value) :: x.iterator
  covered : ∀ i, remaining i ≠ [] → ∃ x ∈ heap, x.index = i

/-- The pairs still in the heap. -/
def heapSize (heap : List (HeapItem κ ν)) : Nat := (heap.map fun x => x.iterator.length + 1).sum

theorem heapSize_advance (heap : List (HeapItem κ ν)) (index : Nat) (l : List (κ × ν)) :
    heapSize (advance heap index l) = heapSize heap + l.length := by
  cases l with
  | nil => rfl
  | cons p l => simp [advance, heapSize, Nat.add_comm]

theorem represents_nil : Represents ([] : List (HeapItem κ ν)) fun _ => [] :=
  ⟨List.nodup_nil, nofun, fun _ h => absurd rfl h⟩

/-- Pushing what is left of a list that is not in the heap. -/
theorem represents_advance {heap : List (HeapItem κ ν)} {remaining : Nat → List (κ × ν)}
    (h : Represents heap remaining) {index : Nat} (hempty : remaining index = []) (l : List (κ × ν)) :
    Represents (advance heap index l) (Function.update remaining index l) := by
  -- a list with nothing left has no front in the heap, so the places stay distinct
  have hother : ∀ x ∈ heap, x.index ≠ index := by
    intro x hx hi
    have := h.item x hx
    rw [hi, hempty] at this
    cases this
  have hsame : ∀ x ∈ heap, Function.update remaining index l x.index = (x.key, x.value) :: x.iterator := by
    intro x hx
    rw [Function.update_of_ne (hother x hx), h.item x hx]
  have hold : ∀ i, i ≠ index → Function.update remaining index l i ≠ [] → ∃ x ∈ heap, x.index = i := by
    intro i hi hne
    rw [Function.update_of_ne hi] at hne
    exact h.covered i hne
  cases l with
  | nil =>
    refine ⟨h.nodup, hsame, fun i hne => hold i ?_ hne⟩
    rintro rfl
    rw [Function.update_self] at hne
    exact hne rfl
  | cons p l =>
    refine ⟨?_, ?_, ?_⟩
    · refine List.nodup_cons.mpr ⟨?_, h.nodup⟩
      intro hmem
      obtain ⟨x, hx, hi⟩ := List.mem_map.mp hmem
      exact hother x hx hi
    · intro x hx
      rcases List.mem_cons.mp hx with rfl | hx
      · exact Function.update_self ..
      · exact hsame x hx
    · intro i hne
      by_cases hi : i = index
      · exact ⟨_, List.mem_cons_self, hi.symm⟩
      · obtain ⟨x, hx, hxi⟩ := hold i hi hne
        exact ⟨x, List.mem_cons_of_mem _ hx, hxi⟩

/-- What is left after the front of a list has been taken out of the heap. -/
theorem represents_pop {heap rest : List (HeapItem κ ν)} {x : HeapItem κ ν}
    {remaining : Nat → List (κ × ν)} (h : Represents heap remaining) (hperm : heap.Perm (x :: rest)) :
    Represents (advance rest x.index x.iterator) (Function.update remaining x.index x.iterator) := by
  have hnd : ((x :: rest).map HeapItem.index).Nodup := (hperm.map _).nodup_iff.mp h.nodup
  rw [List.map_cons, List.nodup_cons] at hnd
  have hother : ∀ y ∈ rest, y.index ≠ x.index := fun y hy hi => hnd.1 (hi ▸ List.mem_map_of_mem hy)
  -- first as if the list were used up, then push what is left of it
  have hrest : Represents rest (Function.update remaining x.index []) := by
    refine ⟨hnd.2, ?_, ?_⟩
    · intro y hy
      rw [Function.update_of_ne (hother y hy)]
      exact h.item y (hperm.mem_iff.mpr (List.mem_cons_of_mem _ hy))
    · intro i hne
      by_cases hi : i = x.index
      · subst hi
        rw [Function.update_self] at hne
        exact absurd rfl hne
      · rw [Function.update_of_ne hi] at hne
        obtain ⟨y, hy, hyi⟩ := h.covered i hne
        rcases List.mem_cons.mp (hperm.mem_iff.mp hy) with rfl | hy
        · exact absurd hyi.symm hi
        · exact ⟨y, hy, hyi⟩
  have := represents_advance hrest (Function.update_self ..) x.iterator
  rwa [Function.update_idem] at this

/-! ## What the loop yields -/

variable [DecidableEq κ] [LinearOrder κ]

/-- The first answer among the first `n` lists. -/
def firstOf (n : Nat) (remaining : Nat → List (κ × ν)) : Layer κ ν :=
  resolve ((List.range n).map fun i => assoc (remaining i))

omit [LinearOrder κ] in
theorem firstOf_eq_some {n i : Nat} {remaining : Nat → List (κ × ν)} {k : κ} {v : ν} (hi : i < n)
    (hv : assoc (remaining i) k = some v) (hbefore : ∀ j < i, assoc (remaining j) k = none) :
    firstOf n remaining k = some v := by
  induction n with
  | zero => exact absurd hi (Nat.not_lt_zero i)
  | succ n ih =>
    rw [firstOf, List.range_succ, List.map_append, resolve_append]
    rcases Nat.lt_or_eq_of_le (Nat.le_of_lt_succ hi) with hlt | rfl
    · exact above_of_some (ih hlt)
    · have hnone : resolve ((List.range i).map fun j => assoc (remaining j)) k = none := by
        refine resolve_eq_none_iff.mpr ?_
        intro f hf
        obtain ⟨j, hj, rfl⟩ := List.mem_map.mp hf
        exact hbefore j (List.mem_range.mp hj)
      rw [above_of_none hnone, List.map_singleton, resolve_singleton, hv]

omit [LinearOrder κ] in
theorem firstOf_of_empty {n : Nat} {remaining : Nat → List (κ × ν)} (h : ∀ i, remaining i = [])
    (k : κ) : firstOf n remaining k = none := by
  refine resolve_eq_none_iff.mpr ?_
  intro f hf
  obtain ⟨i, -, rfl⟩ := List.mem_map.mp hf
  rw [h i, assoc_nil]

/-- What is left of the lists as the loop goes on: they ascend, none of their keys
is below the last one taken, and there are `n` of them. -/
structure Remaining (n : Nat) (remaining : Nat → List (κ × ν)) (lastKey : Option κ) : Prop where
  ascending : ∀ i, Ascending (remaining i)
  low : ∀ l, lastKey = some l → ∀ i, ∀ p ∈ remaining i, l ≤ p.1
  bounded : ∀ i, n ≤ i → remaining i = []

section Step

variable {n : Nat} {heap rest : List (HeapItem κ ν)} {x : HeapItem κ ν}
  {remaining : Nat → List (κ × ν)} {lastKey : Option κ}

omit [DecidableEq κ] in
/-- The least front has the least key of all that is left. -/
theorem least_key_le (hrep : Represents heap remaining) (hrem : Remaining n remaining lastKey)
    (hpop : heappop heap = some (x, rest)) {i : Nat} {p : κ × ν} (hp : p ∈ remaining i) :
    x.key ≤ p.1 ∧ (p.1 = x.key → x.index ≤ i) := by
  obtain ⟨hperm, hleast⟩ := heappop_spec hpop
  obtain ⟨y, hy, rfl⟩ := hrep.covered i (List.ne_nil_of_mem hp)
  have hitem := hrep.item y hy
  have hfront : y.key ≤ p.1 := by
    have hasc := hrem.ascending y.index
    rw [hitem] at hasc hp
    rcases List.mem_cons.mp hp with rfl | hp
    · exact le_refl _
    · exact le_of_lt ((List.pairwise_cons.mp hasc).1 p hp)
  have hrank : x.rank ≤ y.rank := by
    rcases List.mem_cons.mp (hperm.mem_iff.mp hy) with rfl | hy
    · exact le_refl _
    · exact hleast y hy
  rcases Prod.Lex.toLex_le_toLex.mp hrank with hlt | ⟨heq, hindex⟩
  · exact ⟨le_trans (le_of_lt hlt) hfront, fun h => absurd (h ▸ hfront) (not_le.mpr hlt)⟩
  · exact ⟨le_of_eq_of_le heq hfront, fun _ => hindex⟩

omit [DecidableEq κ] in
/-- Taking the least front makes its key the last one. -/
theorem Remaining.step (hrep : Represents heap remaining) (hrem : Remaining n remaining lastKey)
    (hpop : heappop heap = some (x, rest)) :
    Remaining n (Function.update remaining x.index x.iterator) (some x.key) := by
  have hx : x ∈ heap := (heappop_spec hpop).1.mem_iff.mpr List.mem_cons_self
  have hitem := hrep.item x hx
  have hasc := hrem.ascending x.index
  rw [hitem] at hasc
  obtain ⟨hhead, htail⟩ := List.pairwise_cons.mp hasc
  refine ⟨?_, ?_, ?_⟩
  · intro i
    by_cases hix : i = x.index
    · subst hix
      rw [Function.update_self]
      exact htail
    · rw [Function.update_of_ne hix]
      exact hrem.ascending i
  · intro l hl i p hp
    obtain rfl := Option.some.inj hl
    by_cases hix : i = x.index
    · subst hix
      rw [Function.update_self] at hp
      exact le_of_lt (hhead p hp)
    · rw [Function.update_of_ne hix] at hp
      exact (least_key_le hrep hrem hpop hp).1
  · intro i hi
    have hix : i ≠ x.index := by
      rintro rfl
      have := hrem.bounded _ hi
      rw [hitem] at this
      cases this
    rw [Function.update_of_ne hix]
    exact hrem.bounded i hi

omit [LinearOrder κ] in
/-- Only the taken key's answer changes. -/
theorem firstOf_step (hitem : remaining x.index = (x.key, x.value) :: x.iterator) {k : κ}
    (hk : k ≠ x.key) :
    firstOf n (Function.update remaining x.index x.iterator) k = firstOf n remaining k := by
  have hassoc : ∀ i, assoc (Function.update remaining x.index x.iterator i) k = assoc (remaining i) k := by
    intro i
    by_cases hix : i = x.index
    · subst hix
      rw [Function.update_self, hitem, assoc_cons, if_neg (Ne.symm hk)]
    · rw [Function.update_of_ne hix]
  simp only [firstOf, resolve, List.findSome?_map, Function.comp_def, hassoc]

theorem firstOf_least (hrep : Represents heap remaining) (hrem : Remaining n remaining lastKey)
    (hpop : heappop heap = some (x, rest)) : firstOf n remaining x.key = some x.value := by
  have hx : x ∈ heap := (heappop_spec hpop).1.mem_iff.mpr List.mem_cons_self
  have hitem := hrep.item x hx
  refine firstOf_eq_some (i := x.index) ?_ (by rw [hitem, assoc_cons, if_pos rfl]) ?_
  · by_contra hge
    have := hrem.bounded _ (Nat.le_of_not_lt hge)
    rw [hitem] at this
    cases this
  · intro j hj
    refine assoc_eq_none_iff.mpr ?_
    intro hmem
    obtain ⟨p, hp, hpk⟩ := List.mem_map.mp hmem
    exact absurd ((least_key_le hrep hrem hpop hp).2 hpk) (Nat.not_le.mpr hj)

end Step

/-- What the loop yields from here on: ascending pairs behind the last key, with
the first answer of what is left for every key behind it. -/
theorem mergeLoop_spec (rounds : Nat) {n : Nat} {heap : List (HeapItem κ ν)}
    {remaining : Nat → List (κ × ν)} {lastKey : Option κ} (hrep : Represents heap remaining)
    (hrem : Remaining n remaining lastKey) (hsize : heapSize heap ≤ rounds) :
    Ascending (mergeLoop rounds heap lastKey) ∧
      (∀ p ∈ mergeLoop rounds heap lastKey, ∀ l, lastKey = some l → l < p.1) ∧
      ∀ k, (∀ l, lastKey = some l → l < k) →
        assoc (mergeLoop rounds heap lastKey) k = firstOf n remaining k := by
  have hdone : heap = [] → ∀ k, firstOf n remaining k = none := by
    rintro rfl
    refine firstOf_of_empty ?_
    intro i
    by_contra hne
    obtain ⟨x, hx, -⟩ := hrep.covered i hne
    cases hx
  -- by induction on the rounds; `Represents` and `Remaining` are what a round keeps
  induction rounds generalizing heap remaining lastKey with
  | zero =>
    have hnil : heap = [] := by
      cases heap with
      | nil => rfl
      | cons x heap => simp [heapSize] at hsize
    exact ⟨List.Pairwise.nil, nofun, fun k _ => (hdone hnil k).symm⟩
  | succ rounds ih =>
    rw [mergeLoop]
    cases hpop : heappop heap with
    | none => exact ⟨List.Pairwise.nil, nofun, fun k _ => (hdone (heappop_eq_none hpop) k).symm⟩
    | some found =>
      obtain ⟨x, rest⟩ := found
      obtain ⟨hperm, -⟩ := heappop_spec hpop
      have hx : x ∈ heap := hperm.mem_iff.mpr List.mem_cons_self
      have hitem := hrep.item x hx
      have hrep' := represents_pop hrep hperm
      have hrem' := hrem.step hrep hpop
      have hsize' : heapSize (advance rest x.index x.iterator) ≤ rounds := by
        have : heapSize heap = heapSize (x :: rest) := (hperm.map _).sum_eq
        rw [heapSize_advance]
        simp only [heapSize, List.map_cons, List.sum_cons] at this hsize ⊢
        omega
      have hdone' : advance rest x.index x.iterator = [] →
          ∀ k, firstOf n (Function.update remaining x.index x.iterator) k = none := by
        intro hnil
        refine firstOf_of_empty ?_
        intro i
        by_contra hne
        obtain ⟨y, hy, -⟩ := hrep'.covered i hne
        rw [hnil] at hy
        cases hy
      have hleast : x.key ∈ (remaining x.index).map Prod.fst := by
        rw [hitem]
        exact List.mem_cons_self
      dsimp only
      by_cases hlast : lastKey = some x.key
      · -- the key was taken before: nothing is yielded
        rw [if_pos hlast, hlast]
        obtain ⟨hasc, hlow, hassoc⟩ := ih hrep' hrem' hsize' hdone'
        refine ⟨hasc, hlow, ?_⟩
        intro k hk
        rw [hassoc k hk, firstOf_step hitem (ne_of_gt (hk _ rfl))]
      · rw [if_neg hlast]
        obtain ⟨hasc, hlow, hassoc⟩ := ih hrep' hrem' hsize' hdone'
        have hlt : ∀ l, lastKey = some l → l < x.key := by
          intro l hl
          refine lt_of_le_of_ne ?_ fun heq => hlast (heq ▸ hl)
          obtain ⟨p, hp, hpk⟩ := List.mem_map.mp hleast
          exact hpk ▸ hrem.low l hl _ p hp
        refine ⟨List.pairwise_cons.mpr ⟨fun p hp => hlow p hp _ rfl, hasc⟩, ?_, ?_⟩
        · intro p hp l hl
          rcases List.mem_cons.mp hp with rfl | hp
          · exact hlt l hl
          · exact lt_trans (hlt l hl) (hlow p hp _ rfl)
        · intro k hk
          rw [assoc_cons]
          by_cases hxk : x.key = k
          · rw [if_pos hxk, ← hxk, firstOf_least hrep hrem hpop]
          -- a key behind the least front is answered by the rest of the loop
          · rw [if_neg hxk]
            rcases lt_or_gt_of_ne hxk with hgt | hlt'
            · rw [hassoc k fun l hl => Option.some.inj hl ▸ hgt, firstOf_step hitem (Ne.symm hxk)]
            · -- a key between the last one and the least front is nowhere
              have hnone : assoc (mergeLoop rounds (advance rest x.index x.iterator) (some x.key)) k =
                  none := by
                refine assoc_eq_none_iff.mpr ?_
                intro hmem
                obtain ⟨p, hp, hpk⟩ := List.mem_map.mp hmem
                exact absurd (hpk ▸ hlow p hp _ rfl) (not_lt.mpr (le_of_lt hlt'))
              rw [hnone]
              refine (resolve_eq_none_iff.mpr ?_).symm
              intro f hf
              obtain ⟨i, -, rfl⟩ := List.mem_map.mp hf
              refine assoc_eq_none_iff.mpr ?_
              intro hmem
              obtain ⟨p, hp, hpk⟩ := List.mem_map.mp hmem
              exact absurd (hpk ▸ (least_key_le hrep hrem hpop hp).1) (not_le.mpr hlt')

/-! ## The merge -/

omit [DecidableEq κ] [LinearOrder κ] in
/-- The heap the loop starts with stands for the inputs. -/
theorem represents_inputs (inputs : List (List (κ × ν))) :
    Represents (inputs.zipIdx.foldl (fun heap input => advance heap input.2 input.1) [])
        (fun i => (inputs[i]?).getD []) ∧
      heapSize (inputs.zipIdx.foldl (fun heap input => advance heap input.2 input.1) []) =
        (inputs.map List.length).sum := by
  induction inputs using List.reverseRecOn with
  | nil => exact ⟨represents_nil, rfl⟩
  | append_singleton inputs l ih =>
    obtain ⟨hrep, hsize⟩ := ih
    rw [List.zipIdx_append, List.foldl_append]
    have hfun : (fun i => ((inputs ++ [l])[i]?).getD []) =
        Function.update (fun i => (inputs[i]?).getD []) inputs.length l := by
      funext i
      rcases Nat.lt_trichotomy i inputs.length with hlt | rfl | hgt
      · rw [Function.update_of_ne (Nat.ne_of_lt hlt), List.getElem?_append_left hlt]
      · rw [Function.update_self]
        simp
      · rw [Function.update_of_ne (Nat.ne_of_gt hgt), List.getElem?_eq_none (by simp; omega),
          List.getElem?_eq_none (Nat.le_of_lt hgt)]
    rw [hfun]
    constructor
    · have hempty : (fun i => (inputs[i]?).getD []) inputs.length = [] := by simp
      have := represents_advance hrep hempty l
      simpa using this
    · rw [List.map_append, List.sum_append, ← hsize]
      simp [heapSize_advance]

omit [LinearOrder κ] in
theorem firstOf_inputs (inputs : List (List (κ × ν))) :
    firstOf inputs.length (fun i => (inputs[i]?).getD []) = resolve (inputs.map assoc) := by
  refine congrArg resolve (List.ext_getElem (by simp) ?_)
  intro i h₁ h₂
  have hi : i < inputs.length := by simpa using h₂
  simp [hi]

theorem kwayMerge_spec {inputs : List (List (κ × ν))} (h : ∀ l ∈ inputs, Ascending l) :
    Ascending (kwayMerge inputs) ∧ ∀ k, assoc (kwayMerge inputs) k = resolve (inputs.map assoc) k := by
  obtain ⟨hrep, hsize⟩ := represents_inputs inputs
  have hrem : Remaining inputs.length (fun i => (inputs[i]?).getD []) none := by
    refine ⟨?_, nofun, ?_⟩
    · intro i
      cases hget : inputs[i]? with
      | none => exact List.Pairwise.nil
      | some l => exact h l (List.mem_of_getElem? hget)
    · intro i hi
      rw [List.getElem?_eq_none hi]
      rfl
  obtain ⟨hasc, -, hassoc⟩ := mergeLoop_spec _ hrep hrem (Nat.le_of_eq hsize)
  refine ⟨hasc, ?_⟩
  intro k
  rw [← firstOf_inputs]
  exact hassoc k nofun

/-- **The merge is ascending.** -/
theorem ascending_kwayMerge {inputs : List (List (κ × ν))} (h : ∀ l ∈ inputs, Ascending l) :
    Ascending (kwayMerge inputs) := (kwayMerge_spec h).1

/-- **The merge answers as the stack of its inputs**, the first on top. -/
theorem assoc_kwayMerge {inputs : List (List (κ × ν))} (h : ∀ l ∈ inputs, Ascending l) :
    assoc (kwayMerge inputs) = resolve (inputs.map assoc) := funext (kwayMerge_spec h).2

end Logvine
