import Mathlib

/-!
# Sorting by recency

Items carry a stamp, and where two stamps are equal the later one of the list is
the more recent. `newestFirst` is the order a reader consults them in.

- `newestFirst_concat`: an item appended to the list goes behind the items with a
  greater stamp and in front of all others; with a stamp no other exceeds it goes
  to the front (`newestFirst_concat_of_le`);
- `newestFirst_filter`: removing items does not reorder the rest;
- `find?_newestFirst_iff`: with distinct stamps, the first item of a kind is the one
  whose stamp no other of the kind exceeds.

The order is that of a sort by stamp and place, reversed; which makes appending and
removing, the two things that happen to the list, lemmas about the front of the result.
-/

namespace Logvine

universe u v

variable {α : Type u} {κ : Type v}

/-! ## Cutting sorted lists -/

/-- In a list where `p` once lost never comes back, taking while `p` holds is
filtering by `p`. -/
theorem takeWhile_eq_filter {R : α → α → Prop} {l : List α} (h : l.Pairwise R) {p : α → Bool}
    (hp : ∀ x y, R x y → p y → p x) : l.takeWhile p = l.filter p := by
  induction l with
  | nil => rfl
  | cons x l ih =>
    obtain ⟨hx, hl⟩ := List.pairwise_cons.mp h
    by_cases hpx : p x
    · rw [List.takeWhile_cons_of_pos hpx, List.filter_cons_of_pos hpx, ih hl]
    · rw [List.takeWhile_cons_of_neg hpx, List.filter_cons_of_neg hpx]
      exact (List.filter_eq_nil_iff.mpr fun y hy hpy => hpx (hp x y (hx y hy) hpy)).symm

theorem dropWhile_eq_filter {R : α → α → Prop} {l : List α} (h : l.Pairwise R) {p : α → Bool}
    (hp : ∀ x y, R x y → p y → p x) : l.dropWhile p = l.filter fun x => !p x := by
  induction l with
  | nil => rfl
  | cons x l ih =>
    obtain ⟨hx, hl⟩ := List.pairwise_cons.mp h
    by_cases hpx : p x
    · rw [List.dropWhile_cons_of_pos hpx, List.filter_cons_of_neg (by simp [hpx]), ih hl]
    · rw [List.dropWhile_cons_of_neg hpx]
      refine (List.filter_eq_self.mpr ?_).symm
      intro y hy
      rcases List.mem_cons.mp hy with rfl | hy
      · simp [hpx]
      · have : ¬p y = true := fun hpy => hpx (hp x y (hx y hy) hpy)
        simp [this]

/-! ## The order -/

variable [LinearOrder κ] (stamp : α → κ)

/-- An item with its place in the list is consulted before another one if its stamp
is greater, or equal and its place later. -/
def Precedes (x y : α × Nat) : Prop := toLex (stamp y.1, y.2) ≤ toLex (stamp x.1, x.2)

instance : DecidableRel (Precedes stamp) := fun x y =>
  inferInstanceAs (Decidable (toLex (stamp y.1, y.2) ≤ toLex (stamp x.1, x.2)))

/-- The items, most recent first. -/
def newestFirst (l : List α) : List α := (l.zipIdx.insertionSort (Precedes stamp)).map Prod.fst

/-- The items, oldest first. -/
def oldestFirst (l : List α) : List α :=
  (l.zipIdx.insertionSort fun x y => Precedes stamp y x).map Prod.fst

instance : Std.Total (Precedes stamp) := ⟨fun _ _ => le_total _ _⟩

instance : IsTrans (α × Nat) (Precedes stamp) := ⟨fun _ _ _ hxy hyz => le_trans hyz hxy⟩

theorem precedes_iff {x y : α × Nat} :
    Precedes stamp x y ↔ stamp y.1 < stamp x.1 ∨ stamp y.1 = stamp x.1 ∧ y.2 ≤ x.2 :=
  Prod.Lex.toLex_le_toLex

@[simp] theorem newestFirst_nil : newestFirst stamp ([] : List α) = [] := rfl

theorem newestFirst_perm (l : List α) : (newestFirst stamp l).Perm l := by
  have h := (List.perm_insertionSort (Precedes stamp) l.zipIdx).map Prod.fst
  rwa [List.zipIdx_map_fst] at h

theorem mem_newestFirst {l : List α} {a : α} : a ∈ newestFirst stamp l ↔ a ∈ l :=
  (newestFirst_perm stamp l).mem_iff

/-- Places in a list are distinct. -/
theorem eq_of_mem_zipIdx {l : List α} {x y : α × Nat} (hx : x ∈ l.zipIdx) (hy : y ∈ l.zipIdx)
    (h : x.2 = y.2) : x = y := by
  have hx' := List.mem_zipIdx_iff_getElem?.mp hx
  have hy' := List.mem_zipIdx_iff_getElem?.mp hy
  rw [h, hy'] at hx'
  exact Prod.ext (Option.some.inj hx').symm h

theorem newestFirst_sorted (l : List α) :
    (newestFirst stamp l).Pairwise fun x y => stamp y ≤ stamp x := by
  rw [newestFirst, List.pairwise_map]
  refine (List.pairwise_insertionSort (Precedes stamp) l.zipIdx).imp ?_
  intro x y h
  rcases (precedes_iff stamp).mp h with h | ⟨h, -⟩
  · exact le_of_lt h
  · exact le_of_eq h

/-- Any stamp cuts the sorted items in two. -/
theorem newestFirst_split (l : List α) (c : κ) :
    newestFirst stamp l = (newestFirst stamp l).filter (fun x => c < stamp x) ++
      (newestFirst stamp l).filter fun x => stamp x ≤ c := by
  have hclosed : ∀ x y, stamp y ≤ stamp x → decide (c < stamp y) = true →
      decide (c < stamp x) = true := by
    intro x y hxy hy
    rw [decide_eq_true_eq] at hy ⊢
    exact lt_of_lt_of_le hy hxy
  conv_lhs => rw [← List.takeWhile_append_dropWhile (p := fun x => decide (c < stamp x))
    (l := newestFirst stamp l)]
  rw [takeWhile_eq_filter (newestFirst_sorted stamp l) hclosed,
    dropWhile_eq_filter (newestFirst_sorted stamp l) hclosed]
  congr 1
  refine List.filter_congr ?_
  intro x _
  rw [← decide_not]
  exact decide_eq_decide.mpr not_lt

/-- **Where an appended item goes.** -/
theorem newestFirst_concat (l : List α) (a : α) :
    newestFirst stamp (l ++ [a]) =
      (newestFirst stamp l).filter (fun x => stamp a < stamp x) ++
        a :: (newestFirst stamp l).filter fun x => stamp x ≤ stamp a := by
  let sorted := l.zipIdx.insertionSort (Precedes stamp)
  have hsorted : sorted.Pairwise (Precedes stamp) := List.pairwise_insertionSort _ _
  have hplace : ∀ x ∈ sorted, x.2 < l.length := by
    intro x hx
    have := List.snd_lt_of_mem_zipIdx ((List.perm_insertionSort _ _).mem_iff.mp hx)
    simpa using this
  -- the sorted list is determined by its elements, because places are distinct
  have hinsert : (l ++ [a]).zipIdx.insertionSort (Precedes stamp) =
      sorted.orderedInsert (Precedes stamp) (a, l.length) := by
    have hperm : ((l ++ [a]).zipIdx.insertionSort (Precedes stamp)).Perm
        (sorted.orderedInsert (Precedes stamp) (a, l.length)) := by
      refine (List.perm_insertionSort _ _).trans ?_
      refine List.Perm.trans ?_ (List.perm_orderedInsert _ _ _).symm
      rw [List.zipIdx_append, Nat.zero_add]
      exact (List.perm_append_singleton _ _).trans
        ((List.perm_insertionSort (Precedes stamp) l.zipIdx).symm.cons _)
    refine List.Perm.eq_of_pairwise ?_ (List.pairwise_insertionSort _ _) (hsorted.orderedInsert _ _) hperm
    intro x y hx hy hxy hyx
    have hx' := (List.perm_insertionSort _ _).mem_iff.mp hx
    have hy' := (List.perm_insertionSort _ _).mem_iff.mp (hperm.mem_iff.mpr hy)
    refine eq_of_mem_zipIdx hx' hy' ?_
    have := congrArg (fun z => (ofLex z).2) (le_antisymm hyx hxy)
    exact this
  -- the last place wins every tie, so only the stamp decides where the item is inserted
  have hrel : ∀ x ∈ sorted, Precedes stamp (a, l.length) x ↔ stamp x.1 ≤ stamp a := by
    intro x hx
    rw [precedes_iff, and_iff_left (Nat.le_of_lt (hplace x hx)), ← le_iff_lt_or_eq]
  have hclosed : ∀ x y, Precedes stamp x y →
      (decide ¬Precedes stamp (a, l.length) y) = true →
      (decide ¬Precedes stamp (a, l.length) x) = true := by
    intro x y hxy hy
    rw [decide_eq_true_eq] at hy ⊢
    exact fun hx => hy (IsTrans.trans _ _ _ hx hxy)
  rw [newestFirst, hinsert, List.orderedInsert_eq_take_drop, takeWhile_eq_filter hsorted hclosed,
    dropWhile_eq_filter hsorted hclosed, List.map_append, List.map_cons]
  have hahead : sorted.filter (fun x => decide ¬Precedes stamp (a, l.length) x) =
      sorted.filter fun x => decide (stamp a < stamp x.1) := by
    refine List.filter_congr fun x hx => decide_eq_decide.mpr ?_
    rw [hrel x hx, not_le]
  have hbehind : sorted.filter (fun x => !decide ¬Precedes stamp (a, l.length) x) =
      sorted.filter fun x => decide (stamp x.1 ≤ stamp a) := by
    refine List.filter_congr ?_
    intro x hx
    rw [decide_not, Bool.not_not]
    exact decide_eq_decide.mpr (hrel x hx)
  rw [hahead, hbehind, newestFirst, List.filter_map, List.filter_map]
  rfl

/-- An item whose stamp no other exceeds goes to the front. -/
theorem newestFirst_concat_of_le {l : List α} {a : α} (h : ∀ x ∈ l, stamp x ≤ stamp a) :
    newestFirst stamp (l ++ [a]) = a :: newestFirst stamp l := by
  have hmem : ∀ x ∈ newestFirst stamp l, stamp x ≤ stamp a :=
    fun x hx => h x ((mem_newestFirst stamp).mp hx)
  rw [newestFirst_concat,
    List.filter_eq_nil_iff.mpr fun x hx => by simpa using hmem x hx,
    List.filter_eq_self.mpr fun x hx => by simpa using hmem x hx, List.nil_append]

/-- Removing items does not reorder the rest. -/
theorem newestFirst_filter (p : α → Bool) (l : List α) :
    newestFirst stamp (l.filter p) = (newestFirst stamp l).filter p := by
  -- by induction from the end of the list, where `newestFirst_concat` applies
  induction l using List.reverseRecOn with
  | nil => rfl
  | append_singleton l a ih =>
    have hcomm : ∀ q : α → Bool, ((newestFirst stamp l).filter p).filter q =
        ((newestFirst stamp l).filter q).filter p := by
      intro q
      rw [List.filter_filter, List.filter_filter]
      exact List.filter_congr fun x _ => Bool.and_comm _ _
    rw [newestFirst_concat, List.filter_append, List.filter_append]
    by_cases hpa : p a
    · rw [List.filter_cons_of_pos hpa, List.filter_nil, newestFirst_concat, ih, hcomm, hcomm,
        List.filter_cons_of_pos hpa]
    · rw [List.filter_cons_of_neg hpa, List.filter_nil, List.append_nil, ih,
        List.filter_cons_of_neg hpa]
      conv_lhs => rw [newestFirst_split stamp l (stamp a), List.filter_append]

/-- With distinct stamps, the item of a kind consulted first is the newest of the kind. -/
theorem find?_newestFirst_iff {l : List α} (hinj : ∀ x ∈ l, ∀ y ∈ l, stamp x = stamp y → x = y)
    (p : α → Bool) (x : α) :
    (newestFirst stamp l).find? p = some x ↔ x ∈ l ∧ p x ∧ ∀ y ∈ l, p y → stamp y ≤ stamp x := by
  -- what is found comes before every other item of the kind, hence has the greatest stamp
  have hnewest : ∀ x, (newestFirst stamp l).find? p = some x →
      x ∈ l ∧ p x ∧ ∀ y ∈ l, p y → stamp y ≤ stamp x := by
    intro x hx
    obtain ⟨hpx, before, after, hsplit, hnone⟩ := List.find?_eq_some_iff_append.mp hx
    have hsorted := newestFirst_sorted stamp l
    rw [hsplit] at hsorted
    refine ⟨(mem_newestFirst stamp).mp (List.mem_of_find?_eq_some hx), hpx, fun y hy hpy => ?_⟩
    have hmem : y ∈ before ++ x :: after := hsplit ▸ (mem_newestFirst stamp).mpr hy
    rcases List.mem_append.mp hmem with hmem | hmem
    · have := hnone y hmem
      rw [hpy] at this
      cases this
    · rcases List.mem_cons.mp hmem with rfl | hmem
      · exact le_refl _
      · exact (List.pairwise_cons.mp (List.pairwise_append.mp hsorted).2.1).1 y hmem
  refine ⟨hnewest x, ?_⟩
  rintro ⟨hx, hpx, hmax⟩
  cases hfind : (newestFirst stamp l).find? p with
  | none =>
    have := List.find?_eq_none.mp hfind x ((mem_newestFirst stamp).mpr hx)
    exact absurd hpx this
  | some y =>
    obtain ⟨hy, hpy, hymax⟩ := hnewest y hfind
    rw [hinj y hy x hx (le_antisymm (hmax y hy hpy) (hymax x hx hpx))]

end Logvine
