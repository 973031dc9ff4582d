import Logvine.Base.LayeredStore
import Logvine.Storage.Recovery

/-!
# The engine as a layered store

Memtable and tables of an engine are a `LayeredStore`: the active dictionary, the
frozen ones, and what the tables answer. Every atomic section of the engine is one
step of that store.

- `step_putSection`, `step_delete`, `step_batchSection`: a writing section writes
  its entries, and only adds to the frozen queue;
- `FlushInv`: what a flush that is under way can rely on;
- `flushInv_next`: a step of a flush keeps that and is a quiet step of the store, if
  the name it writes to is not listed and the clock has moved on (`FlushClock`).

Between the listing of the table and the dropping of the buffer (`engine.py`, 309–313) the
entries of a flush are there twice. Readers do not notice, because the table stands directly
below the buffers that are younger: it is the newest of level 0 if its creation time is
later than all others, and that is what `FlushClock` asks for.
-/

namespace Logvine

open Layer SSTableManager

namespace LSMStorageEngine

/-- Memtable and tables as a layered store. -/
def store (m : MemTable) (t : Tables) : LayeredStore Bytes Bytes := ⟨m.data.get?, m.frozenLayers, t.layer⟩

/-- The abstract store answers as the memtable and the tables do. -/
theorem view_store (m : MemTable) (t : Tables) : (store m t).view = Reading.view m t := rfl

theorem memory_store (m : MemTable) (t : Tables) : (store m t).memory = m.layer := rfl

/-! ## Writing sections -/

/-- The entries of a batch, the last of a key deciding. -/
def itemsLayer (items : List (Bytes × Bytes)) : Layer Bytes Bytes := assoc items.reverse

/-- The frozen queue has only been added to. -/
def Extends (m m' : MemTable) : Prop := m.frozenQueue <+: m'.frozenQueue

/-- Rotating freezes the active buffer behind all others. -/
theorem frozenLayers_rotateUnlocked (m : MemTable) :
    m.rotateUnlocked.frozenLayers = m.frozenLayers ++ [m.data.get?] := by
  simp only [MemTable.frozenLayers, MemTable.rotateUnlocked, List.map_append, List.map_cons, List.map_nil]

/-- As a store: an empty buffer on top of one frozen layer more. -/
theorem store_rotateUnlocked (m : MemTable) (t : Tables) :
    store m.rotateUnlocked t = ⟨Layer.empty, m.frozenLayers ++ [m.data.get?], t.layer⟩ := by
  rw [store, frozenLayers_rotateUnlocked]
  rfl

/-- What waits to be flushed keeps its place when a buffer is frozen. -/
theorem extends_rotateUnlocked (m : MemTable) : Extends m m.rotateUnlocked := List.prefix_append _ _

/-- `rotate` is a quiet step of the store. -/
theorem step_rotate (m : MemTable) (t : Tables) : LayeredStore.Step (store m t) .quiet (store m.rotate t) := by
  have := LayeredStore.Step.rotate (store m t)
  rwa [MemTable.rotate, store_rotateUnlocked]

/-- The section of `put` is one write of the store, whether or not it rotates afterwards. -/
theorem step_putSection (m : MemTable) (t : Tables) (key value : Bytes) (offset : Nat) :
    LayeredStore.Step (store m t) (.write (MemTable.entry key value))
      (store (putSection m key value offset) t) := by
  have hdata : (m.data.set key value).get? = above (MemTable.entry key value) m.data.get? :=
    MemTable.get?_set_eq ..
  unfold putSection
  dsimp only
  split
  · have := LayeredStore.Step.writeRotate (store m t) (MemTable.entry key value)
    rw [store_rotateUnlocked]
    show LayeredStore.Step _ _ ⟨Layer.empty, m.frozenLayers ++ [(m.data.set key value).get?], t.layer⟩
    rwa [hdata]
  · have := LayeredStore.Step.write (store m t) (MemTable.entry key value)
    show LayeredStore.Step _ _ ⟨(m.data.set key value).get?, m.frozenLayers, t.layer⟩
    rwa [hdata]

/-- It adds at most one frozen buffer at the end. -/
theorem extends_putSection (m : MemTable) (key value : Bytes) (offset : Nat) :
    Extends m (putSection m key value offset) := by
  unfold putSection
  dsimp only
  split
  · exact List.prefix_append _ _
  · exact List.prefix_rfl

/-- `delete` is a write of the value that marks deletions. -/
theorem step_delete (m : MemTable) (t : Tables) (key : Bytes) :
    LayeredStore.Step (store m t) (.write (MemTable.entry key tombstone)) (store (m.delete key) t) := by
  have hdata : (m.data.set key tombstone).get? = above (MemTable.entry key tombstone) m.data.get? :=
    MemTable.get?_set_eq ..
  have := LayeredStore.Step.write (store m t) (MemTable.entry key tombstone)
  show LayeredStore.Step _ _ ⟨(m.data.set key tombstone).get?, m.frozenLayers, t.layer⟩
  rwa [hdata]

/-- The loop of `batch_put` sets all entries in the active buffer and touches nothing else. -/
theorem foldl_putUnlocked (m : MemTable) (items : List (Bytes × Bytes)) :
    (items.foldl (fun m item => m.putUnlocked item.1 item.2) m).data = m.data.setAll items ∧
      (items.foldl (fun m item => m.putUnlocked item.1 item.2) m).frozenQueue = m.frozenQueue ∧
      (items.foldl (fun m item => m.putUnlocked item.1 item.2) m).maxSize = m.maxSize := by
  induction items generalizing m with
  | nil => exact ⟨rfl, rfl, rfl⟩
  | cons item items ih => exact ih (m.putUnlocked item.1 item.2)

/-- Of entries set one after the other the last one counts. -/
theorem get?_setAll_eq (d : Buffer) (items : List (Bytes × Bytes)) :
    (d.setAll items).get? = above (itemsLayer items) d.get? :=
  funext fun k => d.get?_setAll items k

/-- The memtable a batch is put into: rotated first if the batch would fill it. -/
def beforeBatch (m : MemTable) (inputSize : Int) : MemTable :=
  if m.batchWouldExceed inputSize then m.rotateUnlocked else m

/-- The section of `batch_put`: it rotates first if it has to, then sets all entries, and keeps
the offset of the last record. -/
theorem batchSection_spec (m : MemTable) (inputSize : Int) (items : List (Bytes × Bytes)) (lastOffset : Nat) :
    (batchSection m inputSize items lastOffset).data = (beforeBatch m inputSize).data.setAll items ∧
      (batchSection m inputSize items lastOffset).frozenQueue = (beforeBatch m inputSize).frozenQueue ∧
      (batchSection m inputSize items lastOffset).maxWalOffset = lastOffset := by
  obtain ⟨hdata, hqueue, -⟩ := foldl_putUnlocked (beforeBatch m inputSize) items
  exact ⟨hdata, hqueue, rfl⟩

/-- The section of `batch_put` is one write of all its entries. -/
theorem step_batchSection (m : MemTable) (t : Tables) (inputSize : Int) (items : List (Bytes × Bytes))
    (lastOffset : Nat) :
    LayeredStore.Step (store m t) (.write (itemsLayer items))
      (store (batchSection m inputSize items lastOffset) t) := by
  obtain ⟨hdata, hqueue, -⟩ := batchSection_spec m inputSize items lastOffset
  have hstore : store (batchSection m inputSize items lastOffset) t =
      ⟨above (itemsLayer items) (beforeBatch m inputSize).data.get?,
        (beforeBatch m inputSize).frozenLayers, t.layer⟩ := by
    rw [store, hdata, get?_setAll_eq, MemTable.frozenLayers, hqueue]
    rfl
  rw [hstore]
  unfold beforeBatch
  split
  · have := LayeredStore.Step.rotateWrite (store m t) (itemsLayer items)
    rw [frozenLayers_rotateUnlocked]
    show LayeredStore.Step _ _ ⟨above (itemsLayer items) Layer.empty, m.frozenLayers ++ [m.data.get?], t.layer⟩
    rwa [above_empty]
  · exact LayeredStore.Step.write (store m t) (itemsLayer items)

/-- It adds at most one frozen buffer at the end, like `put`. -/
theorem extends_batchSection (m : MemTable) (inputSize : Int) (items : List (Bytes × Bytes))
    (lastOffset : Nat) : Extends m (batchSection m inputSize items lastOffset) := by
  rw [Extends, (batchSection_spec m inputSize items lastOffset).2.1, beforeBatch]
  split
  · exact List.prefix_append _ _
  · exact List.prefix_rfl

/-! ## Flushes under way -/

/-- The oldest frozen buffer has these items and this log offset. -/
def Oldest (m : MemTable) (items : List (Bytes × Bytes)) (walOffset : Nat) : Prop :=
  ∃ frozen rest, m.frozenQueue = (frozen, walOffset) :: rest ∧ items = frozen.sortedItems

/-- The oldest frozen buffer stays the oldest while others are frozen behind it. -/
theorem Oldest.later {m m' : MemTable} {items : List (Bytes × Bytes)} {walOffset : Nat}
    (h : Oldest m items walOffset) (hext : Extends m m') : Oldest m' items walOffset := by
  obtain ⟨frozen, rest, hqueue, hitems⟩ := h
  obtain ⟨more, hmore⟩ := hext
  exact ⟨frozen, rest ++ more, by rw [← hmore, hqueue, List.cons_append], hitems⟩

/-- What a flush relies on between two of its steps: the buffer it works on is still
the oldest; a file it has written holds the items and is not listed yet; once recorded,
the tables hold all of the buffer. -/
def FlushInv (m : MemTable) (t : Tables) : FlushPc → Prop
  | .collected items => items ≠ [] ∧ ∃ walOffset, Oldest m items walOffset
  | .writing items walOffset => items ≠ [] ∧ Oldest m items walOffset
  | .written sstable walOffset => ∃ items, items ≠ [] ∧ Oldest m items walOffset ∧
      SSTable.Holds t.files sstable.path items ∧ SSTable.IndexOf sstable items ∧ ¬t.Listed sstable.path
  | .described metadata walOffset => ∃ items, items ≠ [] ∧ Oldest m items walOffset ∧
      Lists t.files metadata items ∧ ¬t.Listed metadata.path ∧
      ∀ m' ∈ t.manifest.getLevelSstables 0, m'.stamp ≤ metadata.stamp
  | .added walOffset | .saved walOffset | .recorded walOffset => ∃ items, items ≠ [] ∧
      Oldest m items walOffset ∧ Below (assoc items) t.layer
  | .idle | .cleared _ | .returned | .raised _ => True

/-- The name a flush picks is not listed, and the time it records is not before those
of the tables of level 0. -/
def FlushClock (storagePath : Path) (t : Tables) (nowMs : Nat) : FlushPc → Prop
  | .writing _ _ => ¬t.Listed (sstablePath storagePath nowMs)
  | .written sstable _ => ∀ m ∈ t.manifest.getLevelSstables 0, m.stamp ≤ toLex (nowMs, sstable.path)
  | _ => True

/-- What a flush relies on is kept by whatever only freezes buffers. -/
theorem FlushInv.later {m m' : MemTable} {t : Tables} {pc : FlushPc} (h : FlushInv m t pc)
    (hext : Extends m m') : FlushInv m' t pc := by
  cases pc with
  | collected items =>
    obtain ⟨hne, walOffset, hold⟩ := h
    exact ⟨hne, walOffset, hold.later hext⟩
  | writing items walOffset => exact ⟨h.1, h.2.later hext⟩
  | written sstable walOffset =>
    obtain ⟨items, hne, hold, hrest⟩ := h
    exact ⟨items, hne, hold.later hext, hrest⟩
  | described metadata walOffset =>
    obtain ⟨items, hne, hold, hrest⟩ := h
    exact ⟨items, hne, hold.later hext, hrest⟩
  | added walOffset | saved walOffset | recorded walOffset =>
    obtain ⟨items, hne, hold, hrest⟩ := h
    exact ⟨items, hne, hold.later hext, hrest⟩
  | idle | cleared walOffset | returned | raised err => trivial

/-- Dropping the oldest buffer takes away the lowest of the frozen layers. -/
theorem frozenLayers_of_oldest {m : MemTable} {items : List (Bytes × Bytes)} {walOffset : Nat}
    (h : Oldest m items walOffset) :
    ∃ fs, m.frozenLayers = assoc items :: fs ∧ m.clearFrozen.frozenLayers = fs := by
  obtain ⟨frozen, rest, hqueue, rfl⟩ := h
  have hlayer : assoc frozen.sortedItems = frozen.get? := funext fun k => frozen.assoc_sortedItems k
  refine ⟨rest.map fun frozen => frozen.1.get?, ?_, ?_⟩
  · rw [MemTable.frozenLayers, hqueue, List.map_cons, hlayer]
  · rw [MemTable.frozenLayers, MemTable.clearFrozen, hqueue, List.tail_cons]

/-- The first items of a flush are those of the oldest buffer. -/
theorem oldest_of_items {m : MemTable} {item : Bytes × Bytes} {items : List (Bytes × Bytes)}
    (h : m.getFrozenItems.sortedItems = item :: items) :
    Oldest m (item :: items) m.getMaxWalOffsetFrozen := by
  cases hq : m.frozenQueue with
  | nil =>
    rw [MemTable.getFrozenItems, hq] at h
    cases h
  | cons head rest =>
    rw [MemTable.getFrozenItems, hq] at h
    exact ⟨head.1, rest, by rw [hq, MemTable.getMaxWalOffsetFrozen, hq], h.symm⟩

section Flush

variable {L : Type} [Log L] {e : LSMStorageEngine L} {pc : FlushPc} {nowMs : Nat}

/-- **Every step of a flush** keeps what the flush relies on and the tables readable,
and is a quiet step of the store. -/
theorem flushInv_next (h : FlushInv e.memtable e.tables pc) (hr : e.tables.Readable)
    (hclock : FlushClock e.storagePath e.tables nowMs pc) :
    FlushInv (flushNext nowMs e pc).1.memtable (flushNext nowMs e pc).1.tables (flushNext nowMs e pc).2 ∧
      (flushNext nowMs e pc).1.tables.Readable ∧
      LayeredStore.Step (store e.memtable e.tables) .quiet
        (store (flushNext nowMs e pc).1.memtable (flushNext nowMs e pc).1.tables) := by
  -- only registering the table and dropping the buffer touch the store
  have hidle := LayeredStore.Step.idle (store e.memtable e.tables)
  cases pc with
  | idle =>
    rw [flushNext]
    split
    · exact ⟨trivial, hr, hidle⟩
    · next item items hitems =>
      exact ⟨⟨by simp, _, oldest_of_items hitems⟩, hr, hidle⟩
  | collected items =>
    obtain ⟨hne, walOffset, hold⟩ := h
    refine ⟨⟨hne, ?_⟩, hr, hidle⟩
    obtain ⟨frozen, rest, hqueue, hitems⟩ := hold
    refine ⟨frozen, rest, ?_, hitems⟩
    rw [MemTable.getMaxWalOffsetFrozen, hqueue]
    exact hqueue
  | writing items walOffset =>
    obtain ⟨hne, hold⟩ := h
    have hfree : ¬e.tables.Listed (sstablePath e.storagePath nowMs) := hclock
    -- no listed table reads the file, so that even a half-written one changes no answer
    have hquiet : ∀ content, LayeredStore.Step (store e.memtable e.tables) .quiet
        (store e.memtable (e.tables.setFile (sstablePath e.storagePath nowMs) content)) := by
      intro content
      rw [store, store, Tables.layer_setFile hfree]
      exact .idle _
    have hasc : Ascending items := by
      obtain ⟨frozen, rest, -, rfl⟩ := hold
      exact frozen.sortedItems_ascending
    rw [flushNext]
    cases hwrite : e.tables.write (.init (sstablePath e.storagePath nowMs) 0) items with
    | mk t result =>
      cases result with
      | error err =>
        obtain ⟨content, heq⟩ := e.tables.write_eq_setFile (.init (sstablePath e.storagePath nowMs) 0) items
        rw [hwrite] at heq
        obtain rfl : t = e.tables.setFile (sstablePath e.storagePath nowMs) content := heq
        exact ⟨trivial, Tables.readable_setFile hr hfree _, hquiet _⟩
      | ok sstable =>
        obtain ⟨rfl, hpath, hindex, hholds⟩ := Tables.write_ok hasc hwrite
        refine ⟨⟨items, hne, hold, ?_, hindex, ?_⟩, Tables.readable_setFile hr hfree _, hquiet _⟩
        · rwa [hpath]
        · rw [hpath]
          exact hfree
  | written sstable walOffset =>
    obtain ⟨items, hne, hold, hholds, hindex, hfree⟩ := h
    obtain ⟨m, hbuild, hlists, hpath, -, hcreated⟩ := lists_buildMetadata hholds hindex hne 0 nowMs
    rw [flushNext, Tables.buildMetadata, hbuild]
    refine ⟨⟨items, hne, hold, hlists, by rwa [hpath], ?_⟩, hr, hidle⟩
    intro m' hm'
    rw [SSTableMeta.stamp, SSTableMeta.stamp, hcreated, hpath]
    exact hclock m' hm'
  | described metadata walOffset =>
    obtain ⟨items, hne, hold, hlists, hfree, hnew⟩ := h
    -- the new table is the newest of level 0 and comes first
    have hlayer : (e.tables.addSstable 0 metadata).layer = above (assoc items) e.tables.layer :=
      Tables.layer_addSstable hlists hnew
    obtain ⟨fs, hfs, -⟩ := frozenLayers_of_oldest hold
    refine ⟨⟨items, hne, hold, ?_⟩, Tables.readable_addSstable hr ⟨items, hlists⟩ 0, ?_⟩
    · show Below (assoc items) (e.tables.addSstable 0 metadata).layer
      rw [hlayer]
      exact below_above_left _ _
    · have := LayeredStore.Step.register (s := store e.memtable e.tables) hfs
      show LayeredStore.Step _ _ ⟨_, _, (e.tables.addSstable 0 metadata).layer⟩
      rwa [hlayer]
  | added walOffset => exact ⟨h, hr, hidle⟩
  | saved walOffset => exact ⟨h, hr, hidle⟩
  | recorded walOffset =>
    obtain ⟨items, -, hold, hbelow⟩ := h
    obtain ⟨fs, hfs, hcleared⟩ := frozenLayers_of_oldest hold
    refine ⟨trivial, hr, ?_⟩
    -- the buffer can go: the tables hold all of it
    have := LayeredStore.Step.retire (s := store e.memtable e.tables) hfs hbelow
    show LayeredStore.Step _ _ ⟨_, e.memtable.clearFrozen.frozenLayers, _⟩
    rwa [hcleared]
  | cleared walOffset => exact ⟨trivial, hr, hidle⟩
  | returned => exact ⟨trivial, hr, hidle⟩
  | raised err => exact ⟨trivial, hr, hidle⟩

end Flush

end LSMStorageEngine

end Logvine
