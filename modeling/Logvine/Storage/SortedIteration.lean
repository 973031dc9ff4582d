import Logvine.Storage.MemTable

/-!
# Sorted iteration over a memtable

`iter_sorted` puts the items of all buffers into one list and sorts it by key, where
`get` and `get_range` let a newer buffer hide an older one.

- `iterSorted_perm`: what it yields, up to order;
- `showsMap_iterSorted_iff`: it shows the map a memtable is exactly if no key is in two
  of its buffers.

The source is `memtable.py`, 143–161. Its sort is stable and the active items stand first,
so of two items with one key the newer comes before the older, and both are yielded.
-/

namespace Logvine

namespace MemTable

/-- `MemTable.iter_sorted`: the items of the active dictionary and of the frozen ones,
oldest first, in one stable sort. -/
def iterSorted (m : MemTable) : List (Bytes × Bytes) :=
  let items := m.frozenQueue.foldl (fun items frozen => items ++ frozen.1.sortedItems) m.data.sortedItems
  items.insertionSort fun x y => x.1 ≤ y.1

/-- The active dictionary and the frozen ones, oldest first. -/
def buffers (m : MemTable) : List Buffer := m.data :: m.frozenQueue.map Prod.fst

/-- Items by strictly increasing key: each key of any buffer once, under the value a
lookup finds. -/
structure ShowsMap (m : MemTable) (items : List (Bytes × Bytes)) : Prop where
  ascending : Ascending items
  keys : ∀ key, key ∈ items.map Prod.fst ↔ ∃ d ∈ m.buffers, key ∈ d.keys
  values : ∀ key value, (key, value) ∈ items → m.get key = some value

/-- No key is in two of the buffers. -/
def KeysDisjoint (m : MemTable) : Prop := m.buffers.Pairwise fun d d' => ∀ key ∈ d.keys, key ∉ d'.keys

instance (m : MemTable) : Decidable m.KeysDisjoint :=
  inferInstanceAs (Decidable (m.buffers.Pairwise fun d d' => ∀ key ∈ d.keys, key ∉ d'.keys))

/-! ## What is yielded -/

/-- The list that is sorted. -/
theorem foldl_sortedItems (queue : List (Buffer × Nat)) (items : List (Bytes × Bytes)) :
    queue.foldl (fun items frozen => items ++ frozen.1.sortedItems) items =
      items ++ (queue.map Prod.fst).flatMap Dict.sortedItems := by
  induction queue generalizing items with
  | nil => exact (List.append_nil items).symm
  | cons frozen queue ih => rw [List.foldl_cons, ih, List.map_cons, List.flatMap_cons, List.append_assoc]

theorem iterSorted_eq (m : MemTable) :
    m.iterSorted = (m.buffers.flatMap Dict.sortedItems).insertionSort fun x y => x.1 ≤ y.1 := by
  rw [iterSorted, foldl_sortedItems, buffers, List.flatMap_cons]

/-- All items of all buffers, a key as often as it has buffers. -/
theorem iterSorted_perm (m : MemTable) : m.iterSorted.Perm (m.buffers.flatMap Dict.sortedItems) := by
  rw [iterSorted_eq]
  exact List.perm_insertionSort _ _

theorem mem_iterSorted {m : MemTable} {key value : Bytes} :
    (key, value) ∈ m.iterSorted ↔ ∃ d ∈ m.buffers, d.get? key = some value := by
  rw [m.iterSorted_perm.mem_iff, List.mem_flatMap]
  refine exists_congr fun d => and_congr_right fun _ => ?_
  rw [d.sortedItems_perm.mem_iff, d.get?_eq_some_iff]

theorem mem_keys_iterSorted {m : MemTable} {key : Bytes} :
    key ∈ m.iterSorted.map Prod.fst ↔ ∃ d ∈ m.buffers, key ∈ d.keys := by
  rw [(m.iterSorted_perm.map Prod.fst).mem_iff, List.map_flatMap, List.mem_flatMap]
  refine exists_congr fun d => and_congr_right fun _ => ?_
  rw [(d.sortedItems_perm.map Prod.fst).mem_iff]
  rfl

/-- The keys come out strictly increasing exactly if no buffer shares one with another. -/
theorem ascending_iterSorted_iff (m : MemTable) : Ascending m.iterSorted ↔ m.KeysDisjoint := by
  rw [iterSorted_eq, ascending_insertionSort_iff, List.map_flatMap, List.nodup_flatMap, KeysDisjoint]
  have hkeys : ∀ d : Buffer, (d.sortedItems.map Prod.fst).Perm d.keys := fun d => d.sortedItems_perm.map Prod.fst
  have hnodup : ∀ d ∈ m.buffers, (d.sortedItems.map Prod.fst).Nodup :=
    fun d _ => (hkeys d).nodup_iff.mpr d.nodup
  rw [and_iff_right hnodup]
  refine List.Pairwise.iff fun d d' => ?_
  rw [Function.onFun, List.disjoint_left]
  exact forall_congr' fun key => imp_congr (hkeys d).mem_iff (not_congr (hkeys d').mem_iff)

/-! ## What a lookup finds -/

/-- A lookup finds a value of one of the buffers, or there is none. -/
theorem get_cases (m : MemTable) (key : Bytes) :
    (∃ value, m.get key = some value ∧ ∃ d ∈ m.buffers, d.get? key = some value) ∨
      (m.get key = none ∧ ∀ d ∈ m.buffers, d.get? key = none) := by
  unfold get buffers
  split
  · next value hdata => exact .inl ⟨value, rfl, m.data, List.mem_cons_self, hdata⟩
  · next hdata =>
    cases hfind : m.frozenQueue.reverse.findSome? fun frozen => frozen.1.get? key with
    | some value =>
      obtain ⟨frozen, hfrozen, hget⟩ := List.exists_of_findSome?_eq_some hfind
      exact .inl ⟨value, rfl, frozen.1,
        List.mem_cons_of_mem _ (List.mem_map_of_mem (List.mem_reverse.mp hfrozen)), hget⟩
    | none =>
      rw [List.findSome?_eq_none_iff] at hfind
      refine .inr ⟨rfl, List.forall_mem_cons.mpr ⟨hdata, ?_⟩⟩
      intro d hd
      obtain ⟨frozen, hfrozen, rfl⟩ := List.mem_map.mp hd
      exact hfind frozen (List.mem_reverse.mpr hfrozen)

/-- Buffers without common keys agree on what is under a key. -/
theorem get_of_keysDisjoint {m : MemTable} (h : m.KeysDisjoint) {d : Buffer} (hd : d ∈ m.buffers)
    {key value : Bytes} (hget : d.get? key = some value) : m.get key = some value := by
  -- a key of one buffer is in no other, so two buffers that have it are the same one
  have hmem : ∀ {d : Buffer} {v : Bytes}, d.get? key = some v → key ∈ d.keys :=
    fun hv => List.mem_map_of_mem (mem_of_assoc hv)
  have hagree : ∀ ⦃d⦄, d ∈ m.buffers → ∀ ⦃d'⦄, d' ∈ m.buffers →
      ∀ v v', d.get? key = some v → d'.get? key = some v' → v = v' := by
    refine List.Pairwise.forall_of_forall_of_flip ?_ (h.imp ?_) (h.imp ?_)
    · exact fun d _ v v' hv hv' => Option.some.inj (hv.symm.trans hv')
    · exact fun hdisj v v' hv hv' => absurd (hmem hv') (hdisj key (hmem hv))
    · exact fun hdisj v v' hv hv' => absurd (hmem hv) (hdisj key (hmem hv'))
  rcases m.get_cases key with ⟨value', hfound, d', hd', hget'⟩ | ⟨-, hnone⟩
  · rw [hfound, hagree hd' hd value' value hget' hget]
  · rw [hnone d hd] at hget
    cases hget

/-- **When sorted iteration shows the memtable's map**: exactly if no key is in two of
its buffers. -/
theorem showsMap_iterSorted_iff (m : MemTable) : m.ShowsMap m.iterSorted ↔ m.KeysDisjoint := by
  constructor
  · intro h
    exact m.ascending_iterSorted_iff.mp h.ascending
  · intro h
    refine ⟨m.ascending_iterSorted_iff.mpr h, fun key => mem_keys_iterSorted, fun key value hmem => ?_⟩
    obtain ⟨d, hd, hget⟩ := mem_iterSorted.mp hmem
    exact get_of_keysDisjoint h hd hget

/-- A key that is written again after a rotation comes out twice, the new value first. -/
theorem showsMap_iterSorted_fails : ¬ ∀ m : MemTable, m.ShowsMap m.iterSorted := by
  intro h
  have := (h ((((init 10).put [97] [49]).rotate).put [97] [50])).ascending
  revert this
  decide +kernel

end MemTable

end Logvine
