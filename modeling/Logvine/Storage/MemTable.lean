import Logvine.Base.Dict
import Logvine.Base.Layers
import Logvine.Storage.Basic

/-!
# The in-memory write buffer

A `MemTable` is the dictionary being written and a queue of frozen ones that wait to be
flushed, oldest first. A method that takes the memtable's lock (`memtable.py`, 65–236) is
one atomic step here, which `Logvine.Storage.MemTableSections` justifies; the engine's
longer critical sections are in `Logvine.Storage.Engine`. The methods that take no lock
(134–141 and 239–273) look at one attribute, inside a section of the engine or under its
flush lock.

- `MemTable.layer`: what a lookup sees, the active dictionary over the frozen
  ones, newest first (`get_eq_layer`);
- `layer_putUnlocked`, `layer_rotateUnlocked`: a put lays one entry over it, a
  rotation changes nothing;
- `get?_getRange`: a range read is the same map restricted to the range.
-/

namespace Logvine

open Layer

/-- Key-value pairs by insertion, as Python dictionaries keep them. -/
abbrev Buffer := Dict Bytes Bytes

/-- A `MemTable`: the active dictionary, the frozen ones with the log offset they
reach (oldest first), and the accounting of the active one. -/
structure MemTable where
  maxSize : Int
  data : Buffer
  frozenQueue : List (Buffer × Nat)
  currentSize : Int
  maxWalOffset : Nat

namespace MemTable

/-- `MemTable.__init__`. -/
def init (maxSize : Int) : MemTable := ⟨maxSize, .empty, [], 0, 0⟩

/-- `MemTable.set_max_wal_offset`. -/
def setMaxWalOffset (m : MemTable) (offset : Nat) : MemTable :=
  { m with maxWalOffset := max m.maxWalOffset offset }

/-- `MemTable._put_unlocked`: the size counts values only. -/
def putUnlocked (m : MemTable) (key value : Bytes) : MemTable :=
  let freed : Int := match m.data.get? key with
    | some old => old.length
    | none => 0
  { m with
    data := m.data.set key value
    currentSize := m.currentSize - freed + value.length }

/-- `MemTable.put`. -/
def put (m : MemTable) (key value : Bytes) : MemTable := m.putUnlocked key value

/-- `MemTable.delete`. -/
def delete (m : MemTable) (key : Bytes) : MemTable := m.put key tombstone

/-- `MemTable.get`: the active dictionary, then the frozen ones from the newest. -/
def get (m : MemTable) (key : Bytes) : Option Bytes :=
  match m.data.get? key with
  | some value => some value
  | none => m.frozenQueue.reverse.findSome? fun frozen => frozen.1.get? key

/-- `MemTable.is_full`. -/
def isFull (m : MemTable) : Bool := m.maxSize ≤ m.currentSize

/-- `MemTable._rotate_unlocked`. -/
def rotateUnlocked (m : MemTable) : MemTable :=
  { m with
    data := .empty
    frozenQueue := m.frozenQueue ++ [(m.data, m.maxWalOffset)]
    currentSize := 0
    maxWalOffset := 0 }

/-- `MemTable.rotate`. -/
def rotate (m : MemTable) : MemTable := m.rotateUnlocked

/-- `MemTable.clear_frozen`. -/
def clearFrozen (m : MemTable) : MemTable := { m with frozenQueue := m.frozenQueue.tail }

/-- `MemTable.batch_would_exceed`. -/
def batchWouldExceed (m : MemTable) (batchSize : Int) : Bool := m.maxSize ≤ m.currentSize + batchSize

/-- `MemTable.get_frozen_items`. -/
def getFrozenItems (m : MemTable) : Buffer :=
  match m.frozenQueue with
  | [] => .empty
  | frozen :: _ => frozen.1

/-- `MemTable.get_max_wal_offset_frozen`. -/
def getMaxWalOffsetFrozen (m : MemTable) : Nat :=
  match m.frozenQueue with
  | [] => 0
  | frozen :: _ => frozen.2

/-- `MemTable.get_frozen_queue_depth`. -/
def getFrozenQueueDepth (m : MemTable) : Nat := m.frozenQueue.length

/-- The items of a dictionary in the range, by increasing key: the loops of
`get_range` go through the sorted keys and break at the end of the range. -/
def rangeItems (startKey endKey : Bytes) (d : Buffer) : List (Bytes × Bytes) :=
  (d.sortedItems.takeWhile fun p => p.1 < endKey).filter fun p => startKey ≤ p.1 ∧ p.1 < endKey

/-- `MemTable.get_range`: the frozen dictionaries from the oldest, then the active
one. -/
def getRange (m : MemTable) (startKey endKey : Bytes) : Buffer :=
  let result := m.frozenQueue.foldl
    (fun result frozen => result.setAll (rangeItems startKey endKey frozen.1)) Dict.empty
  result.setAll (rangeItems startKey endKey m.data)

/-! ## The map a memtable is -/

/-- The frozen dictionaries as layers, oldest first. -/
def frozenLayers (m : MemTable) : List (Layer Bytes Bytes) := m.frozenQueue.map fun frozen => frozen.1.get?

/-- The active dictionary over the frozen ones. -/
def layer (m : MemTable) : Layer Bytes Bytes := above m.data.get? (resolve m.frozenLayers.reverse)

/-- `get` answers from the active buffer, then from the frozen ones, youngest first. -/
theorem get_eq_layer (m : MemTable) (key : Bytes) : m.get key = m.layer key := by
  have hfrozen : resolve m.frozenLayers.reverse key =
      m.frozenQueue.reverse.findSome? fun frozen => frozen.1.get? key := by
    rw [frozenLayers, ← List.map_reverse, resolve, List.findSome?_map]
    rfl
  rw [get, layer, above_apply, hfrozen]
  cases m.data.get? key <;> rfl

/-- The layer that holds one entry. -/
def entry (key value : Bytes) : Layer Bytes Bytes := fun k => if key = k then some value else none

/-- Setting an entry puts it above all others. -/
theorem get?_set_eq (d : Buffer) (key value : Bytes) :
    (d.set key value).get? = above (entry key value) d.get? := by
  funext k
  rw [Dict.get?_set, above_apply, entry]
  split <;> rfl

/-- A write is seen at once, whatever is frozen. -/
@[simp] theorem layer_putUnlocked (m : MemTable) (key value : Bytes) :
    (m.putUnlocked key value).layer = above (entry key value) m.layer := by
  show above (m.data.set key value).get? _ = _
  rw [get?_set_eq, above_assoc]
  rfl

/-- Rotating changes no answer. -/
@[simp] theorem layer_rotateUnlocked (m : MemTable) : m.rotateUnlocked.layer = m.layer := by
  show above Layer.empty (resolve (m.frozenQueue ++ [(m.data, m.maxWalOffset)]
    |>.map fun frozen => frozen.1.get?).reverse) = _
  rw [empty_above, List.map_append, List.reverse_append]
  exact resolve_cons _ _

@[simp] theorem layer_setMaxWalOffset (m : MemTable) (offset : Nat) :
    (m.setMaxWalOffset offset).layer = m.layer := rfl

@[simp] theorem layer_init (maxSize : Int) : (init maxSize).layer = Layer.empty := rfl

/-! ## Range reads -/

/-- The items of a range are the sorted items that lie in it. -/
theorem rangeItems_eq (startKey endKey : Bytes) (d : Buffer) :
    rangeItems startKey endKey d =
      d.sortedItems.filter fun p => decide (startKey ≤ p.1 ∧ p.1 < endKey) := by
  have htake : (d.sortedItems.takeWhile fun p => decide (p.1 < endKey)) =
      d.sortedItems.filter fun p => decide (p.1 < endKey) :=
    takeWhile_of_ascending d.sortedItems_ascending endKey
  rw [rangeItems, htake, List.filter_filter]
  refine List.filter_congr ?_
  intro e _
  by_cases h : startKey ≤ e.1 ∧ e.1 < endKey <;> simp [h]

/-- They answer as the dictionary, restricted to the range. -/
theorem assoc_rangeItems (startKey endKey : Bytes) (d : Buffer) (k : Bytes) :
    assoc (rangeItems startKey endKey d) k =
      if startKey ≤ k ∧ k < endKey then d.get? k else none := by
  rw [rangeItems_eq, assoc_filter_fst fun key => decide (startKey ≤ key ∧ key < endKey),
    Dict.assoc_sortedItems]
  by_cases h : startKey ≤ k ∧ k < endKey <;> simp [h]

/-- A range read of one buffer meets each key once. -/
theorem nodup_rangeItems (startKey endKey : Bytes) (d : Buffer) :
    ((rangeItems startKey endKey d).map Prod.fst).Nodup := by
  rw [rangeItems_eq]
  exact (List.filter_sublist.map Prod.fst).nodup d.sortedItems_ascending.nodup

/-- A range read answers the keys of the range as a lookup does, and no others. -/
theorem get?_getRange (m : MemTable) (startKey endKey k : Bytes) :
    (m.getRange startKey endKey).get? k =
      if startKey ≤ k ∧ k < endKey then m.get k else none := by
  have hset : ∀ (r d : Buffer), (r.setAll (rangeItems startKey endKey d)).get? k =
      if startKey ≤ k ∧ k < endKey then (d.get? k).or (r.get? k) else r.get? k := by
    intro r d
    -- a sorted dictionary has each key once, so first and last entry of a key are the same
    have hrev : assoc (rangeItems startKey endKey d).reverse k =
        assoc (rangeItems startKey endKey d) k :=
      (assoc_perm (nodup_rangeItems _ _ d) (List.reverse_perm _).symm k).symm
    rw [Dict.get?_setAll, hrev, assoc_rangeItems]
    split <;> simp
  -- by induction on the queue, over whatever the earlier buffers have given: a later one overrides
  have hfrozen : ∀ (q : List (Buffer × Nat)) (r : Buffer),
      (q.foldl (fun r frozen => r.setAll (rangeItems startKey endKey frozen.1)) r).get? k =
        if startKey ≤ k ∧ k < endKey then
          (resolve (q.map fun frozen => frozen.1.get?).reverse k).or (r.get? k)
        else r.get? k := by
    intro q
    induction q with
    | nil => intro r; simp [empty]
    | cons frozen q ih =>
      intro r
      rw [List.foldl_cons, ih, hset]
      split
      · rw [List.map_cons, List.reverse_cons, resolve_append, resolve_singleton, above_apply,
          Option.or_assoc]
      · rfl
  rw [getRange, hset, hfrozen, get_eq_layer]
  split
  · rw [Dict.get?_empty, Option.or_none]
    rfl
  · rfl

end MemTable

end Logvine
