import Logvine.Base.Reads
import Logvine.Storage.MemTable
import Logvine.Storage.Tables

/-!
# Reading from memory and tables

The two reads of the engine, over a memtable and the tables of a directory. They are written
in different ways: a lookup stops at the first table that has the key, a range read collects
all tables into a dictionary and remembers the keys it has seen (`engine.py`, 182–189 and
213–232).

- `live`, `view`: the values that can be read, and what memtable and tables hold together;
- `get_eq`, `readKeyRange_spec`: with readable tables, a lookup and a range read answer from
  one map, the memtable over the tables without deleted keys;
- `Collected`: what the loop of a range read keeps, item by item and table by table.

The same reads one file after the other are in `Logvine.Storage.ReadingSteps`.
-/

namespace Logvine

open Layer SSTableManager

namespace Reading

/-! ## The reads of the engine -/

/-- The memtable's value of a key, else that of the tables. -/
def stored (memtable : MemTable) (t : Tables) (key : Bytes) : Except Error (Option Bytes) :=
  match memtable.get key with
  | some value => .ok (some value)
  | none => t.get key

/-- A `KeyError` for a key that is absent or marked as deleted. -/
def unlessDeleted (key : Bytes) : Option Bytes → Except Error Bytes
  | none => .error (.keyError key)
  | some value => if value = tombstone then .error (.keyError key) else .ok value

/-- `LSMStorageEngine.get`. -/
def get (memtable : MemTable) (t : Tables) (key : Bytes) : Except Error Bytes := do
  let value ← stored memtable t key
  unlessDeleted key value

/-- The loop of `read_key_range` over the memtable: the keys seen and the result. -/
def collectMemtable (acc : List Bytes × Buffer) (item : Bytes × Bytes) : List Bytes × Buffer :=
  (item.1 :: acc.1, if item.2 ≠ tombstone then acc.2.set item.1 item.2 else acc.2)

/-- The loop of `read_key_range` over the items of a table. -/
def collect (acc : List Bytes × Buffer) (item : Bytes × Bytes) : List Bytes × Buffer :=
  if item.1 ∈ acc.1 then acc else collectMemtable acc item

/-- The loop of `read_key_range` over the tables. -/
def collectTables (files : Files) (startKey endKey : Bytes) :
    List SSTable → List Bytes × Buffer → Except Error (List Bytes × Buffer)
  | [], acc => .ok acc
  | sstable :: rest, acc => do
    let items ← sstable.rangeScan files startKey endKey
    collectTables files startKey endKey rest (items.foldl collect acc)

/-- `LSMStorageEngine.read_key_range`. -/
def readKeyRange (memtable : MemTable) (t : Tables) (startKey endKey : Bytes) :
    Except Error (List (Bytes × Bytes)) := do
  let acc := (memtable.getRange startKey endKey).entries.foldl collectMemtable ([], .empty)
  let sstables ← getOverlappingSstables t.manifest startKey endKey
  let acc ← collectTables t.files startKey endKey sstables acc
  return acc.2.sortedItems

/-! ## What they answer -/

/-- The value of a key that was not deleted. -/
def live (value : Option Bytes) : Option Bytes := value.filter fun v => decide (v ≠ tombstone)

@[simp] theorem live_none : live none = none := rfl

/-- A stored value can be read unless it is the one that marks deletions. -/
theorem live_some (v : Bytes) : live (some v) = if v ≠ tombstone then some v else none := by
  rw [live, Option.filter_some]
  by_cases h : v = tombstone <;> simp [h]

/-- What memtable and tables answer together. -/
def view (memtable : MemTable) (t : Tables) : Layer Bytes Bytes := above memtable.layer t.layer

/-- `get` raises a `KeyError` for a deleted key as for one that was never there. -/
theorem unlessDeleted_eq (key : Bytes) (value : Option Bytes) :
    unlessDeleted key value = match live value with
      | none => .error (.keyError key)
      | some value => .ok value := by
  cases value with
  | none => rfl
  | some value =>
    rw [unlessDeleted, live_some]
    by_cases h : value = tombstone <;> simp [h]

/-- `get` looks into the memtable first and into the tables if it finds nothing there. -/
theorem stored_eq {t : Tables} (hr : t.Readable) (memtable : MemTable) (key : Bytes) :
    stored memtable t key = .ok (view memtable t key) := by
  rw [stored, view, above_apply, ← MemTable.get_eq_layer]
  cases memtable.get key with
  | none => exact Tables.get_eq hr key
  | some value => rfl

/-- **Lookups**: the live value of the key. -/
theorem get_eq {t : Tables} (hr : t.Readable) (memtable : MemTable) (key : Bytes) :
    get memtable t key = match live (view memtable t key) with
      | none => .error (.keyError key)
      | some value => .ok value := by
  rw [get, stored_eq hr]
  exact unlessDeleted_eq key _

/-- What has been collected so far: the keys of a layer, and those of its values that
are live. -/
structure Collected (acc : List Bytes × Buffer) (f : Layer Bytes Bytes) : Prop where
  seen : ∀ k, k ∈ acc.1 ↔ f k ≠ none
  result : ∀ k, acc.2.get? k = live (f k)

/-- A range read begins with nothing seen. -/
theorem collected_start : Collected ([], .empty) Layer.empty :=
  ⟨fun k => by simp [Layer.empty], fun k => rfl⟩

/-- A pair of the memtable is new: the range of the memtable has each key once. -/
theorem Collected.memtable {acc : List Bytes × Buffer} {f : Layer Bytes Bytes} (h : Collected acc f)
    {item : Bytes × Bytes} (hnew : f item.1 = none) :
    Collected (collectMemtable acc item) (above f (MemTable.entry item.1 item.2)) := by
  constructor
  · intro k
    rw [collectMemtable, List.mem_cons, h.seen, above_apply, MemTable.entry]
    by_cases hk : item.1 = k
    · simp [hk]
    · simp [hk, Ne.symm hk]
  · intro k
    have hget : (collectMemtable acc item).2.get? k =
        if item.2 ≠ tombstone ∧ item.1 = k then some item.2 else acc.2.get? k := by
      rw [collectMemtable]
      by_cases hv : item.2 = tombstone
      · simp [hv]
      · simp [hv, Dict.get?_set]
    rw [hget, h.result, above_apply, MemTable.entry]
    by_cases hk : item.1 = k
    · rw [← hk, hnew, if_pos rfl, Option.none_or, live_some]
      by_cases hv : item.2 = tombstone <;> simp [hv]
    · simp [hk]

/-- A pair of a table counts only if its key was not seen before. -/
theorem Collected.item {acc : List Bytes × Buffer} {f : Layer Bytes Bytes} (h : Collected acc f)
    (item : Bytes × Bytes) :
    Collected (collect acc item) (above f (MemTable.entry item.1 item.2)) := by
  rw [collect]
  split
  · next hmem =>
    -- a key seen before keeps its first value
    have hsame : above f (MemTable.entry item.1 item.2) = f := by
      funext k
      rw [above_apply, MemTable.entry]
      by_cases hk : item.1 = k
      · obtain ⟨v, hv⟩ := Option.ne_none_iff_exists'.mp ((h.seen item.1).mp hmem)
        rw [← hk, hv]
        rfl
      · simp [hk]
    rwa [hsame]
  · next hnot => exact h.memtable (by simpa [h.seen] using hnot)

/-- The first pair of a list is the layer on top. -/
theorem assoc_cons_eq (p : Bytes × Bytes) (ps : List (Bytes × Bytes)) :
    assoc (p :: ps) = above (MemTable.entry p.1 p.2) (assoc ps) := by
  funext k
  rw [assoc_cons, above_apply, MemTable.entry]
  split <;> rfl

/-- The items of a table go below what was collected before. -/
theorem Collected.items {acc : List Bytes × Buffer} {f : Layer Bytes Bytes} (h : Collected acc f)
    (items : List (Bytes × Bytes)) : Collected (items.foldl collect acc) (above f (assoc items)) := by
  induction items generalizing acc f with
  | nil => exact (above_empty f).symm ▸ h
  | cons p items ih =>
    rw [List.foldl_cons, assoc_cons_eq, ← above_assoc]
    exact ih (h.item p)

/-- All pairs of the memtable. -/
theorem Collected.memtableItems {acc : List Bytes × Buffer} {f : Layer Bytes Bytes} (h : Collected acc f)
    {items : List (Bytes × Bytes)} (hnd : (items.map Prod.fst).Nodup)
    (hnew : ∀ p ∈ items, f p.1 = none) :
    Collected (items.foldl collectMemtable acc) (above f (assoc items)) := by
  induction items generalizing acc f with
  | nil => exact (above_empty f).symm ▸ h
  | cons p items ih =>
    rw [List.map_cons, List.nodup_cons] at hnd
    rw [List.foldl_cons, assoc_cons_eq, ← above_assoc]
    refine ih (h.memtable (hnew p List.mem_cons_self)) hnd.2 ?_
    intro q hq
    have hne : p.1 ≠ q.1 := fun e => hnd.1 (e ▸ List.mem_map_of_mem hq)
    rw [above_apply, hnew q (List.mem_cons_of_mem _ hq), MemTable.entry, if_neg hne]
    rfl

/-- A layer restricted to a range of keys. -/
def inRange (startKey endKey : Bytes) (f : Layer Bytes Bytes) : Layer Bytes Bytes := fun k =>
  if startKey ≤ k ∧ k < endKey then f k else none

/-- Cutting to a range and stacking layers commute. -/
theorem inRange_above (startKey endKey : Bytes) (f g : Layer Bytes Bytes) :
    inRange startKey endKey (above f g) = above (inRange startKey endKey f) (inRange startKey endKey g) := by
  funext k
  simp only [inRange, above_apply]
  split <;> rfl

theorem inRange_empty (startKey endKey : Bytes) :
    inRange startKey endKey Layer.empty = Layer.empty := by
  funext k
  simp [inRange, Layer.empty]

/-- The pairs within a range answer the keys of the range. -/
theorem assoc_filter_inRange (startKey endKey : Bytes) (pairs : List (Bytes × Bytes)) :
    assoc (pairs.filter fun p => decide (startKey ≤ p.1 ∧ p.1 < endKey)) =
      inRange startKey endKey (assoc pairs) := by
  funext k
  rw [assoc_filter_fst fun key => decide (startKey ≤ key ∧ key < endKey), inRange]
  by_cases h : startKey ≤ k ∧ k < endKey <;> simp [h]

/-- The tables a range read skips hold nothing in the range, so collecting from the
others collects all there is. -/
theorem collectTables_spec {files : Files} (startKey endKey : Bytes) {metas : List SSTableMeta}
    (h : ∀ m ∈ metas, SSTableManager.Readable files m) {acc : List Bytes × Buffer}
    {f : Layer Bytes Bytes} (hacc : Collected acc f) :
    ∃ infos acc', overlapping startKey endKey metas = .ok infos ∧
      collectTables files startKey endKey (infos.map metadataToSstable) acc = .ok acc' ∧
      Collected acc' (above f (inRange startKey endKey (resolve (metas.map (tableLayer files))))) := by
  induction metas generalizing acc f with
  | nil =>
    refine ⟨[], acc, rfl, rfl, ?_⟩
    rw [List.map_nil, resolve_nil, inRange_empty, above_empty]
    exact hacc
  | cons m metas ih =>
    obtain ⟨pairs, hm⟩ := h m List.mem_cons_self
    have hrest := fun m' hm' => h m' (List.mem_cons_of_mem _ hm')
    rw [List.map_cons, resolve_cons, inRange_above, ← above_assoc, tableLayer_of_lists hm,
      ← assoc_filter_inRange, overlapping, hm.minKeyHex, hm.maxKeyHex, fromHex_hexText, fromHex_hexText]
    -- a table whose recorded range misses that of the read is not opened
    by_cases hout : endKey ≤ (pairs.head hm.nonempty).1 ∨ (pairs.getLast hm.nonempty).1 < startKey
    · obtain ⟨infos, acc', hinfos, hcollect, hspec⟩ := ih hrest hacc
      refine ⟨infos, acc', ?_, hcollect, ?_⟩
      · simp only [bind, Except.bind, hinfos, if_pos hout]
        rfl
      · have hnone : pairs.filter (fun p => decide (startKey ≤ p.1 ∧ p.1 < endKey)) = [] := by
          refine List.filter_eq_nil_iff.mpr ?_
          intro p hp
          rw [decide_eq_true_eq]
          rintro ⟨hstart, hend⟩
          obtain ⟨hmin, hmax⟩ := between_of_assoc hm.holds.ascending hm.nonempty
            (assoc_of_mem hm.holds.ascending.nodup hp)
          rcases hout with hout | hout
          · exact absurd hend (not_lt.mpr (hout.trans hmin))
          · exact absurd hstart (not_le.mpr (lt_of_le_of_lt hmax hout))
        rw [hnone]
        exact (above_empty f).symm ▸ hspec
    · have hscan := SSTable.rangeScan_of_holds (t := metadataToSstable m) hm.holds (.inl rfl) startKey endKey
      obtain ⟨infos, acc', hinfos, hcollect, hspec⟩ := ih hrest (hacc.items
        (pairs.filter fun p => decide (startKey ≤ p.1 ∧ p.1 < endKey)))
      refine ⟨m :: infos, acc', ?_, ?_, hspec⟩
      · simp only [bind, Except.bind, hinfos, if_neg hout]
        rfl
      · rw [List.map_cons, collectTables, hscan]
        exact hcollect

/-- **Range reads**: the live keys of the range, ascending, with their values. -/
theorem readKeyRange_spec {t : Tables} (hr : t.Readable) (memtable : MemTable) (startKey endKey : Bytes) :
    ∃ items, readKeyRange memtable t startKey endKey = .ok items ∧ Ascending items ∧
      ∀ k, assoc items k = live (inRange startKey endKey (view memtable t) k) := by
  have hmemory : Collected
      ((memtable.getRange startKey endKey).entries.foldl collectMemtable ([], .empty))
      (inRange startKey endKey memtable.layer) := by
    have h := collected_start.memtableItems (memtable.getRange startKey endKey).nodup fun _ _ => rfl
    have hlayer : assoc (memtable.getRange startKey endKey).entries =
        inRange startKey endKey memtable.layer := by
      funext k
      rw [inRange, ← MemTable.get_eq_layer]
      exact MemTable.get?_getRange memtable startKey endKey k
    rwa [hlayer, empty_above] at h
  obtain ⟨infos, acc, hinfos, hcollect, hspec⟩ := collectTables_spec startKey endKey hr hmemory
  refine ⟨acc.2.sortedItems, ?_, acc.2.sortedItems_ascending, ?_⟩
  · rw [readKeyRange, getOverlappingSstables, map_snd_iterSstableMetadata, hinfos]
    show (do
      let acc ← collectTables t.files startKey endKey (infos.map metadataToSstable) _
      return acc.2.sortedItems) = _
    rw [hcollect]
    rfl
  · intro k
    rw [Dict.assoc_sortedItems, hspec.result, view, inRange_above]
    rfl

end Reading

end Logvine
