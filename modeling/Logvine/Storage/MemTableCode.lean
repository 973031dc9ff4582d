import Logvine.Base.Sections
import Logvine.Storage.Engine
import Logvine.Storage.ReadWriteLock
import Logvine.Storage.SortedIteration

/-!
# The code of the memtable's methods

Everywhere else a method of the memtable is one step. Here it is the section of code it is in
the source between taking and releasing the lock: every read and every change of an attribute is
an access of its own.

- `Section.body`: what the methods do inside the lock, and `put` and `batch_put` of the engine,
  which hold it themselves; `Section.apply`: the same as one step (`run_body`);
- `readOnly_body`: the sections that take the lock for reading change nothing.

An access is what cannot be divided. `_current_size -= len(...)` is a read and a change
(`memtable.py`, 98–102), so two writers inside at once would lose one of two updates; one
step per access is what makes the work of the lock visible. The sections are `memtable.py`,
67–70, 82–86, 113–123, 149–158, 169–173, 193–201 and 214–236, and `engine.py`, 146–162 and
264–275.
-/

namespace Logvine

open LockOrder Sections

namespace MemTable

/-! ## The code of the methods -/

/-- `self._max_wal_offset = max(self._max_wal_offset, offset)`. -/
def raiseOffsetCode (offset : Nat) : Code MemTable Unit := do
  let maxWalOffset ← Code.read fun m : MemTable => m.maxWalOffset
  Code.modify fun m => { m with maxWalOffset := max maxWalOffset offset }

/-- `_put_unlocked`. -/
def putUnlockedCode (key value : Bytes) : Code MemTable Unit := do
  if ← Code.read fun m : MemTable => (m.data.get? key).isSome then
    let currentSize ← Code.read fun m : MemTable => m.currentSize
    let old ← Code.read fun m : MemTable => m.data.get? key
    Code.modify fun m => { m with currentSize := currentSize - (old.getD []).length }
  Code.modify fun m => { m with data := m.data.set key value }
  let currentSize ← Code.read fun m : MemTable => m.currentSize
  Code.modify fun m => { m with currentSize := currentSize + value.length }

/-- `_rotate_unlocked`. -/
def rotateUnlockedCode : Code MemTable Unit := do
  let data ← Code.read fun m : MemTable => m.data
  let maxWalOffset ← Code.read fun m : MemTable => m.maxWalOffset
  Code.modify fun m => { m with frozenQueue := m.frozenQueue ++ [(data, maxWalOffset)] }
  Code.modify fun m => { m with data := .empty }
  Code.modify fun m => { m with currentSize := 0 }
  Code.modify fun m => { m with maxWalOffset := 0 }

/-- The loop of `get` over the frozen buffers, from the newest of the first so many. -/
def getFrozenCode (key : Bytes) : Nat → Code MemTable (Option Bytes)
  | 0 => pure none
  | i + 1 => do
    match ← Code.read fun m : MemTable => m.frozenQueue[i]?.bind fun frozen => frozen.1.get? key with
    | some value => pure (some value)
    | none => getFrozenCode key i

/-- The section of `get`. -/
def getCode (key : Bytes) : Code MemTable (Option Bytes) := do
  if ← Code.read fun m : MemTable => (m.data.get? key).isSome then
    Code.read fun m : MemTable => m.data.get? key
  else
    let depth ← Code.read fun m : MemTable => m.frozenQueue.length
    getFrozenCode key depth

/-- The values of the active dictionary under some keys; `none` for a `KeyError`. -/
def itemsCode : List Bytes → Code MemTable (Option (List (Bytes × Bytes)))
  | [] => pure (some [])
  | key :: keys => do
    match ← Code.read fun m : MemTable => m.data.get? key with
    | none => pure none
    | some value => return (← itemsCode keys).map fun items => (key, value) :: items

/-- The section of `iter_sorted`, up to the snapshot. -/
def iterSortedCode : Code MemTable (Option (List (Bytes × Bytes))) := do
  let keys ← Code.read fun m : MemTable => m.data.sortedKeys
  match ← itemsCode keys with
  | none => pure none
  | some items =>
    let depth ← Code.read fun m : MemTable => m.frozenQueue.length
    let all ← (List.range depth).foldlM (fun items i => do
      return items ++ (← Code.read fun m : MemTable =>
        (m.frozenQueue[i]?.map fun frozen => frozen.1.sortedItems).getD []))
      items
    return some (all.insertionSort fun x y => x.1 ≤ y.1)

/-- The section of `get_range`, which catches its exceptions. -/
def getRangeCode (startKey endKey : Bytes) : Code MemTable Buffer := do
  let depth ← Code.read fun m : MemTable => m.frozenQueue.length
  let result ← (List.range depth).foldlM (fun (result : Buffer) i => do
    return result.setAll (← Code.read fun m : MemTable =>
      (m.frozenQueue[i]?.map fun frozen => rangeItems startKey endKey frozen.1).getD [])) .empty
  let keys ← Code.read fun m : MemTable => m.data.sortedKeys
  match ← itemsCode ((keys.takeWhile fun key => key < endKey).filter fun key => startKey ≤ key ∧ key < endKey) with
  | none => pure .empty
  | some items => return result.setAll items

/-- The section of `LSMStorageEngine.put`; it answers whether it has rotated. -/
def putSectionCode (key value : Bytes) (offset : Nat) : Code MemTable Bool := do
  putUnlockedCode key value
  raiseOffsetCode offset
  let shouldRotate ← Code.read fun m : MemTable => m.isFull
  if shouldRotate then rotateUnlockedCode
  return shouldRotate

/-- The section of `LSMStorageEngine.batch_put`. -/
def batchSectionCode (inputSize : Int) (items : List (Bytes × Bytes)) (lastOffset : Nat) : Code MemTable Bool := do
  let shouldRotate ← Code.read fun m : MemTable => m.batchWouldExceed inputSize
  if shouldRotate then rotateUnlockedCode
  items.foldlM (fun _ item => putUnlockedCode item.1 item.2) ()
  Code.modify fun m => { m with maxWalOffset := lastOffset }
  return shouldRotate

/-! ## What it does -/

/-- Access by access, and in one go: `set_max_wal_offset`. -/
@[simp] theorem run_raiseOffsetCode (offset : Nat) (m : MemTable) :
    (raiseOffsetCode offset).run m = (m.setMaxWalOffset offset, ()) := rfl

/-- `_put_unlocked`: the size is read, changed and written in accesses of their own. -/
@[simp] theorem run_putUnlockedCode (key value : Bytes) (m : MemTable) :
    (putUnlockedCode key value).run m = (m.putUnlocked key value, ()) := by
  rw [putUnlockedCode, putUnlocked]
  cases hget : m.data.get? key with
  | none => simp [hget]
  | some old => simp [hget]

/-- `_rotate_unlocked`. -/
@[simp] theorem run_rotateUnlockedCode (m : MemTable) : rotateUnlockedCode.run m = (m.rotateUnlocked, ()) := rfl

/-- The loop of `get` over the frozen buffers, from the youngest of the first `i` on. -/
theorem run_getFrozenCode (key : Bytes) (m : MemTable) (i : Nat) :
    (getFrozenCode key i).run m =
      (m, (m.frozenQueue.take i).reverse.findSome? fun frozen => frozen.1.get? key) := by
  induction i with
  | zero => rfl
  | succ i ih =>
    rw [getFrozenCode, Code.run_bind, Code.run_read, List.take_add_one, List.reverse_append, List.findSome?_append]
    cases hi : m.frozenQueue[i]? with
    | none => simp [ih]
    | some frozen => cases hget : frozen.1.get? key with
      | none => simp [hget, ih]
      | some value => simp [hget]

/-- `get`, which tests for the key and then reads its value. -/
theorem run_getCode (key : Bytes) (m : MemTable) : (getCode key).run m = (m, m.get key) := by
  rw [getCode, MemTable.get]
  cases hget : m.data.get? key with
  | none => simp [hget, run_getFrozenCode]
  | some value => simp [hget]

/-- The loop of `iter_sorted` over the active keys finds every one of them, as nobody has taken
one out in between. -/
theorem run_itemsCode {m : MemTable} {items : List (Bytes × Bytes)}
    (h : ∀ item ∈ items, m.data.get? item.1 = some item.2) :
    (itemsCode (items.map Prod.fst)).run m = (m, some items) := by
  induction items with
  | nil => rfl
  | cons item items ih =>
    have hitem := h item List.mem_cons_self
    have hrest := ih fun item' hitem' => h item' (List.mem_cons_of_mem _ hitem')
    rw [List.map_cons, itemsCode, Code.run_bind, Code.run_read, hitem]
    simp [hrest]

/-- The sorted keys are those of the sorted items. -/
theorem sortedKeys_eq (d : Buffer) : d.sortedKeys = d.sortedItems.map Prod.fst := by
  have hperm : d.sortedKeys.Perm (d.sortedItems.map Prod.fst) :=
    d.sortedKeys_perm.trans (d.sortedItems_perm.map Prod.fst).symm
  refine hperm.eq_of_pairwise (fun x y _ _ hxy hyx => absurd hxy (not_lt_of_gt hyx)) d.sortedKeys_pairwise ?_
  exact List.pairwise_map.mpr d.sortedItems_ascending

theorem get?_of_mem_sortedItems {d : Buffer} {item : Bytes × Bytes} (h : item ∈ d.sortedItems) :
    d.get? item.1 = some item.2 :=
  (d.get?_eq_some_iff).mpr (d.sortedItems_perm.mem_iff.mp h)

/-- The buffers of the queue by their indices, from one on. -/
theorem run_frozenFrom {ρ : Type} {m : MemTable} {f : ρ → Nat → Code MemTable ρ} {g : ρ → Buffer × Nat → ρ}
    (h : ∀ b i frozen, m.frozenQueue[i]? = some frozen → (f b i).run m = (m, g b frozen)) (b : ρ) {i n : Nat}
    (hn : i + n = m.frozenQueue.length) :
    ((List.range' i n).foldlM f b).run m = (m, (m.frozenQueue.drop i).foldl g b) := by
  induction n generalizing b i with
  | zero =>
    rw [List.drop_of_length_le (by omega)]
    rfl
  | succ n ih =>
    have hi : i < m.frozenQueue.length := by omega
    rw [List.range'_succ, List.foldlM_cons, Code.run_bind, h b i _ (List.getElem?_eq_getElem hi), ih _ (by omega),
      List.drop_eq_getElem_cons hi, List.foldl_cons]

/-- A loop over the frozen queue by index, as long as each round leaves the memtable. -/
theorem run_frozenLoop {ρ : Type} {m : MemTable} {f : ρ → Nat → Code MemTable ρ} {g : ρ → Buffer × Nat → ρ}
    (h : ∀ b i frozen, m.frozenQueue[i]? = some frozen → (f b i).run m = (m, g b frozen)) (b : ρ) :
    ((List.range m.frozenQueue.length).foldlM f b).run m = (m, m.frozenQueue.foldl g b) := by
  rw [List.range_eq_range', run_frozenFrom h b (Nat.zero_add _), List.drop_zero]

/-- `iter_sorted`, read to its end: no key goes missing. -/
theorem run_iterSortedCode (m : MemTable) : iterSortedCode.run m = (m, some m.iterSorted) := by
  have hitems := run_itemsCode (m := m) fun item hitem => get?_of_mem_sortedItems (d := m.data) hitem
  rw [iterSortedCode, Code.run_bind, Code.run_read, sortedKeys_eq, Code.run_bind, hitems, Code.run_bind, Code.run_read,
    Code.run_bind, run_frozenLoop (g := fun items frozen => items ++ frozen.1.sortedItems)]
  · rfl
  · intro b i frozen hi
    simp [hi]

/-- `get_range`. -/
theorem run_getRangeCode (startKey endKey : Bytes) (m : MemTable) :
    (getRangeCode startKey endKey).run m = (m, m.getRange startKey endKey) := by
  have hkeys : ((m.data.sortedKeys.takeWhile fun key => decide (key < endKey)).filter fun key =>
      decide (startKey ≤ key ∧ key < endKey)) = (rangeItems startKey endKey m.data).map Prod.fst := by
    rw [sortedKeys_eq, List.takeWhile_map, List.filter_map]
    rfl
  have hrange : ∀ item ∈ rangeItems startKey endKey m.data, m.data.get? item.1 = some item.2 :=
    fun item hitem => get?_of_mem_sortedItems ((List.takeWhile_sublist _).subset (List.mem_filter.mp hitem).1)
  have hitems := run_itemsCode hrange
  rw [getRangeCode, Code.run_bind, Code.run_read, Code.run_bind,
    run_frozenLoop (g := fun (result : Buffer) frozen => result.setAll (rangeItems startKey endKey frozen.1))]
  · rw [Code.run_bind, Code.run_read, hkeys, Code.run_bind, hitems]
    rfl
  · intro b i frozen hi
    simp [hi]

/-- The section of `put` of the engine; what it answers is whether it has rotated. -/
theorem run_putSectionCode (key value : Bytes) (offset : Nat) (m : MemTable) :
    (putSectionCode key value offset).run m = (LSMStorageEngine.putSection m key value offset,
      ((m.putUnlocked key value).setMaxWalOffset offset).isFull) := by
  rw [putSectionCode, LSMStorageEngine.putSection]
  cases hfull : ((m.putUnlocked key value).setMaxWalOffset offset).isFull <;> simp [hfull]

/-- The loop of `batch_put` over its entries. -/
theorem run_putAll (items : List (Bytes × Bytes)) (m : MemTable) :
    (items.foldlM (fun _ item => putUnlockedCode item.1 item.2) ()).run m =
      (items.foldl (fun m item => m.putUnlocked item.1 item.2) m, ()) := by
  induction items generalizing m with
  | nil => rfl
  | cons item items ih => rw [List.foldlM_cons, Code.run_bind, run_putUnlockedCode, ih, List.foldl_cons]

/-- The section of `batch_put` of the engine; it decides on the rotation before its first entry.
-/
theorem run_batchSectionCode (inputSize : Int) (items : List (Bytes × Bytes)) (lastOffset : Nat) (m : MemTable) :
    (batchSectionCode inputSize items lastOffset).run m =
      (LSMStorageEngine.batchSection m inputSize items lastOffset, m.batchWouldExceed inputSize) := by
  rw [batchSectionCode, LSMStorageEngine.batchSection]
  cases hexceed : m.batchWouldExceed inputSize <;> simp [hexceed, run_putAll]

/-! ## Calls -/

/-- A section of the memtable: a method that takes the lock, or what `put` and `batch_put` of
the engine do while they hold it. The methods that take none are not among these. -/
inductive Section where
  | setMaxWalOffset (offset : Nat)
  | put (key value : Bytes)
  | get (key : Bytes)
  | delete (key : Bytes)
  | iterSorted
  | rotate
  | clearFrozen
  | getRange (startKey endKey : Bytes)
  | putSection (key value : Bytes) (offset : Nat)
  | batchSection (inputSize : Int) (items : List (Bytes × Bytes)) (lastOffset : Nat)
deriving DecidableEq, Repr

/-- What it answers. -/
inductive Answer where
  | done
  | value (value : Option Bytes)
  | range (items : Buffer)
  | sorted (items : Option (List (Bytes × Bytes)))
  | rotated (shouldRotate : Bool)

namespace Section

/-- It takes the lock for writing. -/
def writes : Section → Bool
  | .get _ | .iterSorted | .getRange _ _ => false
  | .setMaxWalOffset _ | .put _ _ | .delete _ | .rotate | .clearFrozen | .putSection _ _ _ | .batchSection _ _ _ => true

/-- What it does between taking and releasing the lock. -/
def body : Section → Code MemTable Answer
  | .setMaxWalOffset offset => do
    raiseOffsetCode offset
    return .done
  | .put key value => do
    putUnlockedCode key value
    return .done
  | .get key => return .value (← getCode key)
  | .delete key => do
    putUnlockedCode key tombstone
    return .done
  | .iterSorted => return .sorted (← iterSortedCode)
  | .rotate => do
    rotateUnlockedCode
    return .done
  | .clearFrozen => do
    if ← Code.read fun m : MemTable => !m.frozenQueue.isEmpty then
      Code.modify fun m => { m with frozenQueue := m.frozenQueue.tail }
    return .done
  | .getRange startKey endKey => return .range (← getRangeCode startKey endKey)
  | .putSection key value offset => return .rotated (← putSectionCode key value offset)
  | .batchSection inputSize items lastOffset => return .rotated (← batchSectionCode inputSize items lastOffset)

/-- The same as one step. -/
def apply (sec : Section) (m : MemTable) : MemTable × Answer :=
  match sec with
  | .setMaxWalOffset offset => (m.setMaxWalOffset offset, .done)
  | .put key value => (m.put key value, .done)
  | .get key => (m, .value (m.get key))
  | .delete key => (m.delete key, .done)
  | .iterSorted => (m, .sorted (some m.iterSorted))
  | .rotate => (m.rotate, .done)
  | .clearFrozen => (m.clearFrozen, .done)
  | .getRange startKey endKey => (m, .range (m.getRange startKey endKey))
  | .putSection key value offset => (LSMStorageEngine.putSection m key value offset,
      .rotated ((m.putUnlocked key value).setMaxWalOffset offset).isFull)
  | .batchSection inputSize items lastOffset =>
    (LSMStorageEngine.batchSection m inputSize items lastOffset, .rotated (m.batchWouldExceed inputSize))

/-- The point at which it asks for the lock. -/
def entry (sec : Section) : LockPc := if sec.writes then .acquireWrite else .acquireRead

end Section

/-- **What a section does access by access** it does as one step. -/
theorem run_body (sec : Section) : sec.body.run = sec.apply := by
  funext m
  cases sec with
  | setMaxWalOffset offset => rfl
  | put key value => exact (Code.run_bind ..).trans (by rw [run_putUnlockedCode]; rfl)
  | get key => exact (Code.run_bind ..).trans (by rw [run_getCode]; rfl)
  | delete key => exact (Code.run_bind ..).trans (by rw [run_putUnlockedCode]; rfl)
  | iterSorted => exact (Code.run_bind ..).trans (by rw [run_iterSortedCode]; rfl)
  | rotate => rfl
  | clearFrozen =>
    rw [Section.body, Section.apply, clearFrozen, Code.run_bind, Code.run_read]
    cases hqueue : m.frozenQueue with
    | nil =>
      have hsame : m = { m with frozenQueue := [] } := by rw [← hqueue]
      exact congrArg (·, Answer.done) hsame
    | cons frozen rest =>
      show ({ m with frozenQueue := m.frozenQueue.tail }, Answer.done) = _
      rw [hqueue]
  | getRange startKey endKey => exact (Code.run_bind ..).trans (by rw [run_getRangeCode]; rfl)
  | putSection key value offset => exact (Code.run_bind ..).trans (by rw [run_putSectionCode]; rfl)
  | batchSection inputSize items lastOffset => exact (Code.run_bind ..).trans (by rw [run_batchSectionCode]; rfl)

/-- Lookups in the frozen buffers write nothing. -/
theorem readOnly_getFrozenCode (key : Bytes) (i : Nat) : (getFrozenCode key i).ReadOnly := by
  induction i with
  | zero => trivial
  | succ i ih =>
    refine (Code.readOnly_read _).bind fun value => ?_
    cases value with
    | none => exact ih
    | some value => trivial

theorem readOnly_itemsCode (keys : List Bytes) : (itemsCode keys).ReadOnly := by
  induction keys with
  | nil => trivial
  | cons key keys ih =>
    refine (Code.readOnly_read _).bind fun value => ?_
    cases value with
    | none => trivial
    | some value => exact ih.bind fun _ => trivial

/-- The sections that take the lock for reading only read. -/
theorem readOnly_body (sec : Section) (h : sec.writes = false) : sec.body.ReadOnly := by
  cases sec with
  | get key =>
    refine Code.ReadOnly.bind (Code.ReadOnly.bind (Code.readOnly_read _) fun found => ?_) fun _ => trivial
    cases found with
    | true => exact Code.readOnly_read _
    | false => exact (Code.readOnly_read _).bind fun depth => readOnly_getFrozenCode key depth
  | iterSorted =>
    refine Code.ReadOnly.bind ((Code.readOnly_read _).bind fun keys => (readOnly_itemsCode keys).bind fun items => ?_)
      fun _ => trivial
    cases items with
    | none => trivial
    | some items =>
      refine (Code.readOnly_read _).bind fun depth => (Code.readOnly_foldlM (fun _ _ => ?_) _ _).bind fun _ => trivial
      exact (Code.readOnly_read _).bind fun _ => trivial
  | getRange startKey endKey =>
    refine Code.ReadOnly.bind ((Code.readOnly_read _).bind fun depth => ?_) fun _ => trivial
    refine (Code.readOnly_foldlM (fun _ _ => ?_) _ _).bind fun result => ?_
    · exact (Code.readOnly_read _).bind fun _ => trivial
    · refine (Code.readOnly_read _).bind fun keys => (readOnly_itemsCode _).bind fun items => ?_
      cases items with
      | none => trivial
      | some items => trivial
  | setMaxWalOffset | put | delete | rotate | clearFrozen | putSection | batchSection => cases h

end MemTable

end Logvine
