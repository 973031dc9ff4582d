import Mathlib

/-!
# Insertion-ordered dictionaries

A `Dict κ ν` is a list of pairs whose keys are pairwise distinct, in the order
in which the keys were first set; setting a present key overwrites its value in
place. The order is part of the value because programs iterate over it.

- `assoc`: the lookup in a list of pairs (first pair of that key wins), for
  lists that are not dictionaries, too.
- `Ascending`: lists of pairs with strictly increasing keys, the shape a
  dictionary has once its items are sorted.
- `Dict.sortedItems`: the items by increasing key; it is `Ascending` and looks
  every key up as the dictionary does (`assoc_sortedItems`).
-/

namespace Logvine

universe u v

variable {κ : Type u} {ν : Type v} [DecidableEq κ]

/-! ## Association lists -/

/-- The value of the first pair with key `k`. -/
def assoc : List (κ × ν) → κ → Option ν
  | [], _ => none
  | p :: ps, k => if p.1 = k then some p.2 else assoc ps k

@[simp] theorem assoc_nil (k : κ) : assoc ([] : List (κ × ν)) k = none := rfl

theorem assoc_cons (p : κ × ν) (ps : List (κ × ν)) (k : κ) :
    assoc (p :: ps) k = if p.1 = k then some p.2 else assoc ps k := rfl

/-- The first list that has the key answers. -/
theorem assoc_append (l l' : List (κ × ν)) (k : κ) :
    assoc (l ++ l') k = (assoc l k).or (assoc l' k) := by
  induction l with
  | nil => rfl
  | cons p ps ih =>
    rw [List.cons_append, assoc_cons, assoc_cons, ih]
    split <;> rfl

/-- An answer is an entry of the list. -/
theorem mem_of_assoc {l : List (κ × ν)} {k : κ} {v : ν} (h : assoc l k = some v) :
    (k, v) ∈ l := by
  induction l with
  | nil => cases h
  | cons p ps ih =>
    rw [assoc_cons] at h
    split at h
    · next hk =>
      cases h
      subst hk
      exact List.mem_cons_self
    · exact List.mem_cons_of_mem _ (ih h)

theorem assoc_eq_none_iff {l : List (κ × ν)} {k : κ} :
    assoc l k = none ↔ k ∉ l.map Prod.fst := by
  induction l with
  | nil => simp
  | cons p ps ih =>
    rw [assoc_cons]
    by_cases hk : p.1 = k
    · simp [hk]
    · rw [if_neg hk, ih, List.map_cons, List.mem_cons, not_or]
      exact ⟨fun h => ⟨fun e => hk e.symm, h⟩, fun h => h.2⟩

/-- With each key there once, every entry is the answer for its key. -/
theorem assoc_of_mem {l : List (κ × ν)} (hnd : (l.map Prod.fst).Nodup) {k : κ} {v : ν}
    (h : (k, v) ∈ l) : assoc l k = some v := by
  induction l with
  | nil => cases h
  | cons p ps ih =>
    rw [List.map_cons, List.nodup_cons] at hnd
    rcases List.mem_cons.mp h with rfl | hmem
    · simp [assoc_cons]
    · have hne : p.1 ≠ k := fun e => hnd.1 (e ▸ List.mem_map_of_mem hmem)
      rw [assoc_cons, if_neg hne, ih hnd.2 hmem]

/-- With distinct keys, lookup and membership say the same. -/
theorem assoc_eq_some_iff {l : List (κ × ν)} (hnd : (l.map Prod.fst).Nodup) {k : κ} {v : ν} :
    assoc l k = some v ↔ (k, v) ∈ l :=
  ⟨mem_of_assoc, assoc_of_mem hnd⟩

/-- With distinct keys, the order of the pairs does not matter to a lookup. -/
theorem assoc_perm {l l' : List (κ × ν)} (hnd : (l.map Prod.fst).Nodup) (h : l.Perm l') (k : κ) :
    assoc l k = assoc l' k := by
  have hnd' : (l'.map Prod.fst).Nodup := (h.map Prod.fst).nodup_iff.mp hnd
  refine Option.ext ?_
  intro v
  rw [assoc_eq_some_iff hnd, assoc_eq_some_iff hnd', h.mem_iff]

/-- Entries dropped by their keys are the ones that are no longer found. -/
theorem assoc_filter_fst (p : κ → Bool) (l : List (κ × ν)) (k : κ) :
    assoc (l.filter fun e => p e.1) k = if p k then assoc l k else none := by
  induction l with
  | nil => simp
  | cons e l ih =>
    rw [List.filter_cons]
    by_cases he : e.1 = k
    · subst he
      by_cases hp : p e.1
      · simp [hp, assoc_cons]
      · simp [hp, ih]
    · split
      · rw [assoc_cons, if_neg he, ih, assoc_cons, if_neg he]
      · rw [ih, assoc_cons, if_neg he]

/-! ## Strictly ascending association lists -/

/-- Keys strictly increase along the list. -/
def Ascending {κ : Type u} {ν : Type v} [LT κ] (l : List (κ × ν)) : Prop :=
  l.Pairwise fun p q => p.1 < q.1

instance {κ : Type u} {ν : Type v} [LT κ] [DecidableLT κ] (l : List (κ × ν)) :
    Decidable (Ascending l) :=
  inferInstanceAs (Decidable (l.Pairwise fun p q => p.1 < q.1))

/-- Keys that ascend are all different. -/
theorem Ascending.nodup {κ : Type u} {ν : Type v} [Preorder κ] {l : List (κ × ν)}
    (h : Ascending l) : (l.map Prod.fst).Nodup := by
  rw [List.Nodup, List.pairwise_map]
  exact h.imp fun hlt => ne_of_lt hlt

/-- Two ascending lists with the same lookups are the same list. -/
theorem Ascending.ext [Preorder κ] {l l' : List (κ × ν)} (h : Ascending l) (h' : Ascending l')
    (hl : ∀ k, assoc l k = assoc l' k) : l = l' := by
  have hmem : ∀ p, p ∈ l ↔ p ∈ l' := fun p => by
    rw [← assoc_eq_some_iff h.nodup, ← assoc_eq_some_iff h'.nodup, hl]
  -- same lookups mean same members, and sorted lists of the same members are equal
  refine List.Perm.eq_of_pairwise (fun a b _ _ hab hba => absurd hab (lt_asymm hba)) h h' ?_
  exact (List.perm_ext_iff_of_nodup h.nodup.of_map h'.nodup.of_map).mpr hmem

/-- Breaking off an ascending list at a bound filters by the bound. -/
theorem takeWhile_of_ascending {κ : Type u} {ν : Type v} [Preorder κ] [DecidableLT κ]
    {l : List (κ × ν)} (h : Ascending l) (bound : κ) :
    (l.takeWhile fun e => e.1 < bound) = l.filter fun e => e.1 < bound := by
  induction l with
  | nil => rfl
  | cons e l ih =>
    obtain ⟨hhead, htail⟩ := List.pairwise_cons.mp h
    rw [List.takeWhile_cons, List.filter_cons]
    by_cases he : e.1 < bound
    · simp only [he, decide_true, if_true, ih htail]
    -- the first pair behind the bound: all later ones are behind it, too
    · simp only [he, decide_false, Bool.false_eq_true, if_false]
      refine (List.filter_eq_nil_iff.mpr ?_).symm
      intro e' he'
      have := hhead e' he'
      exact fun hlt => he (lt_trans this (of_decide_eq_true hlt))

/-- Sorting by key gives strictly ascending keys exactly if no key occurs twice. -/
theorem ascending_insertionSort_iff {κ : Type u} {ν : Type v} [LinearOrder κ] (l : List (κ × ν)) :
    Ascending (l.insertionSort fun p q => p.1 ≤ q.1) ↔ (l.map Prod.fst).Nodup := by
  have : Std.Total fun p q : κ × ν => p.1 ≤ q.1 := ⟨fun p q => le_total p.1 q.1⟩
  have : IsTrans (κ × ν) fun p q => p.1 ≤ q.1 := ⟨fun _ _ _ => le_trans⟩
  have hle : (l.insertionSort fun p q => p.1 ≤ q.1).Pairwise fun p q => p.1 ≤ q.1 :=
    List.pairwise_insertionSort (fun p q : κ × ν => p.1 ≤ q.1) l
  have hperm := (List.perm_insertionSort (fun p q : κ × ν => p.1 ≤ q.1) l).map Prod.fst
  constructor
  · intro hasc
    exact hperm.nodup_iff.mp hasc.nodup
  · intro hnd
    have hne := hperm.nodup_iff.mpr hnd
    rw [List.Nodup, List.pairwise_map] at hne
    exact (hle.and hne).imp fun ⟨h, hne⟩ => lt_of_le_of_ne h hne

/-! ## Dictionaries -/

/-- A dictionary: pairs with pairwise distinct keys, oldest key first. -/
structure Dict (κ : Type u) (ν : Type v) where
  entries : List (κ × ν)
  nodup : (entries.map Prod.fst).Nodup

namespace Dict

omit [DecidableEq κ] in
theorem eq_of_entries {d d' : Dict κ ν} (h : d.entries = d'.entries) : d = d' := by
  cases d
  cases d'
  cases h
  rfl

/-- The dictionary without entries. -/
def empty : Dict κ ν := ⟨[], List.nodup_nil⟩

/-- The value stored under a key. -/
def get? (d : Dict κ ν) (k : κ) : Option ν := assoc d.entries k

/-- The keys, oldest first. -/
def keys (d : Dict κ ν) : List κ := d.entries.map Prod.fst

/-- Overwrite the value of a present key in place, else append the pair. -/
def setEntry : List (κ × ν) → κ → ν → List (κ × ν)
  | [], k, v => [(k, v)]
  | p :: ps, k, v => if p.1 = k then (k, v) :: ps else p :: setEntry ps k v

/-- Setting a key that is there keeps its place; a new key goes to the end. -/
theorem keys_setEntry (l : List (κ × ν)) (k : κ) (v : ν) :
    (setEntry l k v).map Prod.fst =
      if k ∈ l.map Prod.fst then l.map Prod.fst else l.map Prod.fst ++ [k] := by
  induction l with
  | nil => rfl
  | cons p ps ih =>
    rw [setEntry]
    by_cases hk : p.1 = k
    · simp [hk]
    · have hk' : k ≠ p.1 := fun e => hk e.symm
      rw [if_neg hk, List.map_cons, ih]
      by_cases hmem : k ∈ ps.map Prod.fst <;> simp [hmem, hk']

/-- What was set is found under its key, and all other keys answer as before. -/
theorem assoc_setEntry (l : List (κ × ν)) (k k' : κ) (v : ν) :
    assoc (setEntry l k v) k' = if k = k' then some v else assoc l k' := by
  induction l with
  | nil => rfl
  | cons p ps ih =>
    rw [setEntry]
    by_cases hk : p.1 = k
    · rw [if_pos hk, assoc_cons, assoc_cons, hk]
      split <;> rfl
    · rw [if_neg hk, assoc_cons, assoc_cons, ih]
      by_cases hk' : k = k'
      · subst hk'
        rw [if_neg hk, if_pos rfl, if_pos rfl]
      · rw [if_neg hk', if_neg hk']

/-- Store a value under a key. -/
def set (d : Dict κ ν) (k : κ) (v : ν) : Dict κ ν where
  entries := setEntry d.entries k v
  nodup := by
    rw [keys_setEntry]
    split
    · exact d.nodup
    · next hk =>
      exact List.nodup_append.mpr ⟨d.nodup, List.nodup_singleton k, by
        rintro a ha b hb rfl
        exact hk (List.mem_singleton.mp hb ▸ ha)⟩

/-- Store the pairs of a list one after the other. -/
def setAll (d : Dict κ ν) (ps : List (κ × ν)) : Dict κ ν :=
  ps.foldl (fun d p => d.set p.1 p.2) d

omit [DecidableEq κ] in
@[simp] theorem entries_empty : (empty : Dict κ ν).entries = [] := rfl

@[simp] theorem get?_empty (k : κ) : (empty : Dict κ ν).get? k = none := rfl

/-- The law of a dictionary: the key set last has the new value, all others keep theirs. -/
theorem get?_set (d : Dict κ ν) (k k' : κ) (v : ν) :
    (d.set k v).get? k' = if k = k' then some v else d.get? k' :=
  assoc_setEntry d.entries k k' v

@[simp] theorem setAll_nil (d : Dict κ ν) : d.setAll [] = d := rfl

@[simp] theorem setAll_cons (d : Dict κ ν) (p : κ × ν) (ps : List (κ × ν)) :
    d.setAll (p :: ps) = (d.set p.1 p.2).setAll ps := rfl

/-- After a sequence of stores, the last one of a key decides. -/
theorem get?_setAll (d : Dict κ ν) (ps : List (κ × ν)) (k : κ) :
    (d.setAll ps).get? k = (assoc ps.reverse k).or (d.get? k) := by
  induction ps generalizing d with
  | nil => rfl
  | cons p ps ih =>
    rw [setAll_cons, ih, get?_set, List.reverse_cons, assoc_append, Option.or_assoc]
    congr 1
    rw [assoc_cons]
    split <;> rfl

/-- Lookups find exactly the entries. -/
theorem get?_eq_some_iff (d : Dict κ ν) {k : κ} {v : ν} :
    d.get? k = some v ↔ (k, v) ∈ d.entries :=
  assoc_eq_some_iff d.nodup

/-- A key is not found exactly when it is none of the keys. -/
theorem get?_eq_none_iff (d : Dict κ ν) {k : κ} : d.get? k = none ↔ k ∉ d.keys :=
  assoc_eq_none_iff

/-- A dictionary is empty exactly when no lookup finds anything. -/
theorem entries_eq_nil_iff (d : Dict κ ν) : d.entries = [] ↔ ∀ k, d.get? k = none := by
  constructor
  · intro h k
    rw [get?, h, assoc_nil]
  · intro h
    refine List.eq_nil_iff_forall_not_mem.mpr ?_
    intro p hp
    have := (d.get?_eq_some_iff (k := p.1) (v := p.2)).mpr hp
    rw [h] at this
    cases this

/-- Setting fresh keys in order appends the pairs in order. -/
theorem entries_set_of_not_mem (d : Dict κ ν) {k : κ} (v : ν) (h : k ∉ d.keys) :
    (d.set k v).entries = d.entries ++ [(k, v)] := by
  -- on lists, since dropping the first pair of a dictionary leaves no dictionary to induct on
  have key : ∀ l : List (κ × ν), k ∉ l.map Prod.fst → setEntry l k v = l ++ [(k, v)] := by
    intro l
    induction l with
    | nil => intro _; rfl
    | cons p ps ih =>
      intro hnot
      rw [List.map_cons, List.mem_cons, not_or] at hnot
      rw [setEntry, if_neg (fun e => hnot.1 e.symm), ih hnot.2, List.cons_append]
  exact key d.entries h

/-- Setting distinct fresh keys appends the pairs. -/
theorem entries_setAll_of_nodup {items : List (κ × ν)} (d : Dict κ ν)
    (hnd : (items.map Prod.fst).Nodup) (hnew : ∀ item ∈ items, item.1 ∉ d.keys) :
    (d.setAll items).entries = d.entries ++ items := by
  induction items generalizing d with
  | nil => simp
  | cons item items ih =>
    rw [List.map_cons, List.nodup_cons] at hnd
    have hset := d.entries_set_of_not_mem item.2 (hnew item List.mem_cons_self)
    rw [setAll_cons, ih _ hnd.2, hset, List.append_assoc]
    · rfl
    · intro q hq hmem
      rw [keys, hset, List.map_append, List.mem_append] at hmem
      rcases hmem with hmem | hmem
      · exact hnew q (List.mem_cons_of_mem _ hq) hmem
      · exact hnd.1 (List.mem_singleton.mp hmem ▸ List.mem_map_of_mem hq)

/-- Apply a function to every value. -/
def mapValues {ω : Type v} (f : ν → ω) (d : Dict κ ν) : Dict κ ω where
  entries := d.entries.map fun p => (p.1, f p.2)
  nodup := by
    rw [List.map_map]
    exact d.nodup

/-! ### Items by increasing key -/

section Sorted

variable [LinearOrder κ]

/-- The items, sorted by key. -/
def sortedItems (d : Dict κ ν) : List (κ × ν) :=
  d.entries.insertionSort fun p q => p.1 ≤ q.1

/-- The keys, sorted. -/
def sortedKeys (d : Dict κ ν) : List κ := d.keys.insertionSort (· ≤ ·)

omit [DecidableEq κ] in
/-- `sorted(d.items())` has the entries of the dictionary, each once. -/
theorem sortedItems_perm (d : Dict κ ν) : d.sortedItems.Perm d.entries :=
  List.perm_insertionSort _ _

omit [DecidableEq κ] in
/-- And its keys ascend strictly, as the keys of a dictionary are all different. -/
theorem sortedItems_ascending (d : Dict κ ν) : Ascending d.sortedItems :=
  (ascending_insertionSort_iff d.entries).mpr d.nodup

/-- Sorting the items changes no lookup. -/
theorem assoc_sortedItems (d : Dict κ ν) (k : κ) : assoc d.sortedItems k = d.get? k :=
  assoc_perm ((d.sortedItems_perm.map Prod.fst).nodup_iff.mpr d.nodup) d.sortedItems_perm k

omit [DecidableEq κ] in
theorem sortedItems_eq_nil_iff (d : Dict κ ν) : d.sortedItems = [] ↔ d.entries = [] := by
  constructor
  · intro h
    have := d.sortedItems_perm
    rw [h] at this
    exact this.nil_eq.symm
  · intro h
    rw [sortedItems, h]
    rfl

omit [DecidableEq κ] in
/-- `sorted(d)` has the keys of the dictionary, each once. -/
theorem sortedKeys_perm (d : Dict κ ν) : d.sortedKeys.Perm d.keys :=
  List.perm_insertionSort _ _

omit [DecidableEq κ] in
theorem sortedKeys_pairwise (d : Dict κ ν) : d.sortedKeys.Pairwise (· < ·) := by
  have hle : d.sortedKeys.Pairwise (· ≤ ·) := List.pairwise_insertionSort _ _
  have hnd : d.sortedKeys.Nodup := d.sortedKeys_perm.nodup_iff.mpr d.nodup
  exact (hle.and hnd).imp fun ⟨h, hne⟩ => lt_of_le_of_ne h hne

omit [DecidableEq κ] in
/-- Sorting looks at the keys alone, so it commutes with a change of the values. -/
theorem sortedItems_mapValues {ω : Type v} (f : ν → ω) (d : Dict κ ν) :
    (d.mapValues f).sortedItems = d.sortedItems.map fun p => (p.1, f p.2) := by
  have hperm : (d.mapValues f).sortedItems.Perm (d.sortedItems.map fun p => (p.1, f p.2)) :=
    (d.mapValues f).sortedItems_perm.trans (d.sortedItems_perm.map _).symm
  have hasc : Ascending (d.sortedItems.map fun p => (p.1, f p.2)) :=
    List.pairwise_map.mpr d.sortedItems_ascending
  -- both are sorted by distinct keys
  exact List.Perm.eq_of_pairwise (fun a b _ _ hab hba => absurd hab (lt_asymm hba))
    (d.mapValues f).sortedItems_ascending hasc hperm

omit [DecidableEq κ] in
/-- Sorting the keys of already ascending items is idle. -/
theorem sortedKeys_of_ascending (d : Dict κ ν) (h : Ascending d.entries) :
    d.sortedKeys = d.entries.map Prod.fst := by
  refine List.Perm.eq_of_pairwise (fun a b _ _ => le_antisymm (a := a) (b := b))
    (List.pairwise_insertionSort _ _) ?_ d.sortedKeys_perm
  rw [List.pairwise_map]
  exact h.imp le_of_lt

end Sorted

end Dict

end Logvine
