import Logvine.Storage.Reading
import Logvine.Storage.WalTails

/-!
# The storage engine

`LSMStorageEngine`: a write goes to the log first and to the memtable second; a
memtable that has grown full is frozen; a flush writes the oldest frozen buffer to
a table, records it, drops the buffer and cuts the log.

- `putSection`, `batchSection`: what `put` and `batch_put` do while they hold the
  memtable's write lock, one atomic step each;
- `flush` is the whole of `LSMStorageEngine.flush`, `flushNext` the same one step
  after the other (`flush_reached`);
- `flush_cases`: what a flush can do.

The engine is generic in its log (`Log`), which is a `Wal` in the program. Starting
a thread that flushes is not part of a write here: flushes are calls of their own.

The order of the steps is what the other modules are about. A write appends before it takes
the memtable's lock (`engine.py`, 141–162 and 261–275), so logging and applying it are two
steps; a flush drops the buffer after its table is listed and saved, and cuts the log last
(306–316), so that a flushed entry is in memory or in a listed table at every moment.
-/

namespace Logvine

open Layer

/-- The log as the engine uses it. -/
class Log (L : Type) where
  append : L → UInt8 → Bytes → Bytes → L × Except Error Nat
  appendBatch : L → UInt8 → List Bytes → List Bytes → L × Except Error Nat
  truncateUpto : L → Int → L

instance [Zlib] : Log Wal := ⟨Wal.append, Wal.appendBatch, Wal.truncateUpto⟩

/-- An `LSMStorageEngine`, with the setting `memtable_max_size` it was started with. -/
structure LSMStorageEngine (L : Type) where
  storagePath : Path
  memtableMaxSize : Int
  memtable : MemTable
  wal : L
  tables : Tables

namespace LSMStorageEngine

/-! ## Writing -/

/-- The section of `put` under the write lock. -/
def putSection (m : MemTable) (key value : Bytes) (offset : Nat) : MemTable :=
  let m := (m.putUnlocked key value).setMaxWalOffset offset
  if m.isFull then m.rotateUnlocked else m

/-- What an entry adds to the size of a batch. An empty previous value counts as none. -/
def entrySize (m : MemTable) (key value : Bytes) : Int :=
  match m.get key with
  | some (b :: prev) => value.length + 64 - (b :: prev).length
  | _ => value.length + 64 + key.length

/-- The computed size of a batch. -/
def batchInputSize (m : MemTable) (items : List (Bytes × Bytes)) : Int :=
  items.foldl (fun size item => size + entrySize m item.1 item.2) 0

/-- The section of `batch_put` under the write lock. -/
def batchSection (m : MemTable) (inputSize : Int) (items : List (Bytes × Bytes)) (lastOffset : Nat) :
    MemTable :=
  let m := if m.batchWouldExceed inputSize then m.rotateUnlocked else m
  let m := items.foldl (fun m item => m.putUnlocked item.1 item.2) m
  { m with maxWalOffset := lastOffset }

section Calls

variable {L : Type} [Log L]

/-- `LSMStorageEngine.put`. -/
def put (e : LSMStorageEngine L) (key value : Bytes) : LSMStorageEngine L × Except Error Unit :=
  match Log.append e.wal OperationType.put key value with
  | (wal, .error err) => ({ e with wal := wal }, .error err)
  | (wal, .ok offset) =>
    ({ e with wal := wal, memtable := putSection e.memtable key value offset }, .ok ())

/-- `LSMStorageEngine.delete`. -/
def delete (e : LSMStorageEngine L) (key : Bytes) : LSMStorageEngine L × Except Error Unit :=
  match Log.append e.wal OperationType.delete key [] with
  | (wal, .error err) => ({ e with wal := wal }, .error err)
  | (wal, .ok offset) =>
    ({ e with wal := wal, memtable := (e.memtable.delete key).setMaxWalOffset offset }, .ok ())

/-- `LSMStorageEngine.batch_put`. -/
def batchPut (e : LSMStorageEngine L) (keys values : List Bytes) :
    LSMStorageEngine L × Except Error Unit :=
  if keys.length ≠ values.length then
    (e, .error (.valueError "keys and values must have the same length"))
  else
    let inputSize := batchInputSize e.memtable (keys.zip values)
    if e.memtableMaxSize < inputSize then (e, .error (.batchTooLarge inputSize e.memtableMaxSize))
    else
      match Log.appendBatch e.wal OperationType.put keys values with
      | (wal, .error err) => ({ e with wal := wal }, .error err)
      | (wal, .ok lastRecordOffset) =>
        ({ e with
            wal := wal
            memtable := batchSection e.memtable inputSize (keys.zip values) lastRecordOffset },
          .ok ())

/-- `MemTable.rotate` on the engine's memtable. -/
def rotate (e : LSMStorageEngine L) : LSMStorageEngine L := { e with memtable := e.memtable.rotate }

/-! ## Reading -/

/-- `LSMStorageEngine.get`. -/
def get (e : LSMStorageEngine L) (key : Bytes) : Except Error Bytes := Reading.get e.memtable e.tables key

/-- `LSMStorageEngine.read_key_range`. -/
def readKeyRange (e : LSMStorageEngine L) (startKey endKey : Bytes) : Except Error (List (Bytes × Bytes)) :=
  Reading.readKeyRange e.memtable e.tables startKey endKey

/-! ## Flushing -/

/-- `LSMStorageEngine.flush`, with its two readings of the clock. Whatever raises ends
it; a write that raises has unlinked its file. -/
def flush (e : LSMStorageEngine L) (nameMs createdMs : Nat) : LSMStorageEngine L :=
  match e.memtable.getFrozenItems.sortedItems with
  | [] => e
  | item :: items =>
    let walOffset := e.memtable.getMaxWalOffsetFrozen
    -- the offset is taken before the write, the clock once for the name and once for the entry
    match e.tables.write (.init (sstablePath e.storagePath nameMs) 0) (item :: items) with
    | (t, .error _) => { e with tables := t }
    | (t, .ok sstable) =>
      match t.buildMetadata sstable 0 createdMs with
      | .error _ => { e with tables := t }
      | .ok metadata =>
        -- recorded and saved, then dropped from the queue, then cut from the log
        { e with
          memtable := e.memtable.clearFrozen
          wal := Log.truncateUpto e.wal walOffset
          tables := (t.addSstable 0 metadata).save }

/-- The loop of `LSMStorageEngine.flush_all`, for a number of rounds: nothing if the
queue is not empty by then. The readings are those of the successive flushes. -/
def flushAll (readings : Nat → Nat × Nat) : Nat → LSMStorageEngine L → Option (LSMStorageEngine L)
  | 0, e => if 0 < e.memtable.getFrozenQueueDepth then none else some e
  | rounds + 1, e =>
    if 0 < e.memtable.getFrozenQueueDepth then
      flushAll (fun n => readings (n + 1)) rounds (e.flush (readings 0).1 (readings 0).2)
    else some e

/-! ## A flush step by step -/

/-- How far a flush has come, with the local variables still used. `added` stands
between the change of the manifest in memory and its saving, `saved` between the two
savings. -/
inductive FlushPc where
  | idle
  | collected (items : List (Bytes × Bytes))
  | writing (items : List (Bytes × Bytes)) (walOffset : Nat)
  | written (sstable : SSTable) (walOffset : Nat)
  | described (metadata : SSTableMeta) (walOffset : Nat)
  | added (walOffset : Nat)
  | saved (walOffset : Nat)
  | recorded (walOffset : Nat)
  | cleared (walOffset : Nat)
  | returned
  | raised (err : Error)

/-- One step of a flush, with the reading of the clock if it takes one. -/
def flushNext (nowMs : Nat) (e : LSMStorageEngine L) : FlushPc → LSMStorageEngine L × FlushPc
  | .idle =>
    match e.memtable.getFrozenItems.sortedItems with
    | [] => (e, .returned)
    | item :: items => (e, .collected (item :: items))
  | .collected items => (e, .writing items e.memtable.getMaxWalOffsetFrozen)
  | .writing items walOffset =>
    match e.tables.write (.init (sstablePath e.storagePath nowMs) 0) items with
    | (t, .error err) => ({ e with tables := t }, .raised err)
    | (t, .ok sstable) => ({ e with tables := t }, .written sstable walOffset)
  | .written sstable walOffset =>
    match e.tables.buildMetadata sstable 0 nowMs with
    | .error err => (e, .raised err)
    | .ok metadata => (e, .described metadata walOffset)
  | .described metadata walOffset =>
    ({ e with tables := { e.tables with manifest := e.tables.manifest.addEntry 0 metadata } }, .added walOffset)
  | .added walOffset => ({ e with tables := e.tables.save }, .saved walOffset)
  | .saved walOffset => ({ e with tables := e.tables.save }, .recorded walOffset)
  | .recorded walOffset => ({ e with memtable := e.memtable.clearFrozen }, .cleared walOffset)
  | .cleared walOffset => ({ e with wal := Log.truncateUpto e.wal walOffset }, .returned)
  | .returned => (e, .returned)
  | .raised err => (e, .raised err)

/-- The reading a flush takes at each point. -/
def clockAt (nameMs createdMs : Nat) : FlushPc → Nat
  | .written _ _ => createdMs
  | _ => nameMs

/-- A step of a flush with these two readings. -/
def FlushStep (nameMs createdMs : Nat) (s s' : LSMStorageEngine L × FlushPc) : Prop :=
  flushNext (clockAt nameMs createdMs s.2) s.1 s.2 = s'

/-- **The steps add up to `flush`**, which has then returned or caught an exception. -/
theorem flush_reached (e : LSMStorageEngine L) (nameMs createdMs : Nat) :
    ∃ pc, (pc = .returned ∨ ∃ err, pc = .raised err) ∧
      Relation.ReflTransGen (FlushStep nameMs createdMs) (e, .idle) (e.flush nameMs createdMs, pc) := by
  unfold flush
  split
  · next hnil =>
    refine ⟨.returned, .inl rfl, .single ?_⟩
    simp only [FlushStep, flushNext, hnil]
  · next item items hitems =>
    have hcollected : FlushStep nameMs createdMs (e, .idle) (e, .collected (item :: items)) := by
      simp only [FlushStep, flushNext, hitems]
    have hstart : Relation.ReflTransGen (FlushStep nameMs createdMs) (e, .idle)
        (e, .writing (item :: items) e.memtable.getMaxWalOffsetFrozen) :=
      .head hcollected (.single rfl)
    dsimp only
    split
    · next t err hwrite =>
      refine ⟨.raised err, .inr ⟨err, rfl⟩, hstart.tail ?_⟩
      simp only [FlushStep, clockAt, flushNext, hwrite]
    · next t sstable hwrite =>
      have hwritten := hstart.tail (c := ({ e with tables := t },
          .written sstable e.memtable.getMaxWalOffsetFrozen)) <| by
        simp only [FlushStep, clockAt, flushNext, hwrite]
      split
      · next err hbuild =>
        refine ⟨.raised err, .inr ⟨err, rfl⟩, hwritten.tail ?_⟩
        simp only [FlushStep, clockAt, flushNext, hbuild]
      -- the five steps that are left cannot fail
      · next metadata hbuild =>
        have hdescribed := hwritten.tail (c := ({ e with tables := t },
            .described metadata e.memtable.getMaxWalOffsetFrozen)) <| by
          simp only [FlushStep, clockAt, flushNext, hbuild]
        exact ⟨.returned, .inl rfl, hdescribed.trans
          (.head rfl (.head rfl (.head rfl (.head rfl (.single rfl)))))⟩

/-- **What a flush can do**: nothing, for want of items; fail to write its file; or
record the items of the oldest frozen buffer, drop the buffer and cut the log. -/
theorem flush_cases (e : LSMStorageEngine L) (nameMs createdMs : Nat) :
    (e.memtable.getFrozenItems.entries = [] ∧ e.flush nameMs createdMs = e) ∨
      ∃ frozen walOffset rest, e.memtable.frozenQueue = (frozen, walOffset) :: rest ∧
        frozen.sortedItems ≠ [] ∧
        ((¬SSTable.Fits frozen.sortedItems ∧ e.flush nameMs createdMs =
            { e with tables := e.tables.setFile (sstablePath e.storagePath nameMs) none }) ∨
          (SSTable.Fits frozen.sortedItems ∧ ∃ m : SSTableMeta,
            m.path = sstablePath e.storagePath nameMs ∧ m.createdAtMs = some createdMs ∧
            SSTableManager.Lists (e.tables.setFile m.path
              (some (SSTable.fileBytes frozen.sortedItems))).files m frozen.sortedItems ∧
            e.flush nameMs createdMs =
              { e with
                memtable := e.memtable.clearFrozen
                wal := Log.truncateUpto e.wal walOffset
                tables := ((e.tables.setFile m.path
                  (some (SSTable.fileBytes frozen.sortedItems))).addSstable 0 m).save })) := by
  cases hq : e.memtable.frozenQueue with
  | nil =>
    have hitems : e.memtable.getFrozenItems = .empty := by rw [MemTable.getFrozenItems, hq]
    refine .inl ⟨by rw [hitems]; rfl, ?_⟩
    have hnil : (Dict.empty : Buffer).sortedItems = [] := rfl
    rw [flush, hitems, hnil]
  | cons head rest =>
    obtain ⟨frozen, walOffset⟩ := head
    have hitems : e.memtable.getFrozenItems = frozen := by rw [MemTable.getFrozenItems, hq]
    have hoffset : e.memtable.getMaxWalOffsetFrozen = walOffset := by
      rw [MemTable.getMaxWalOffsetFrozen, hq]
    cases hsorted : frozen.sortedItems with
    | nil =>
      refine .inl ⟨by rw [hitems]; exact frozen.sortedItems_eq_nil_iff.mp hsorted, ?_⟩
      rw [flush, hitems, hsorted]
    | cons item items =>
      refine .inr ⟨frozen, walOffset, rest, rfl, by simp [hsorted], ?_⟩
      have hasc := frozen.sortedItems_ascending
      rw [hsorted] at hasc
      -- an overlong key or value makes the write raise; otherwise the table can be described
      rcases SSTable.tableBytes_eq hasc.nodup with ⟨hfits, index, hindex, hbytes⟩ | ⟨hfits, err, hbytes⟩
      · refine .inr ⟨hsorted ▸ hfits, ?_⟩
        have hwrite : e.tables.write (.init (sstablePath e.storagePath nameMs) 0) (item :: items) =
            (e.tables.setFile (sstablePath e.storagePath nameMs) (some (SSTable.fileBytes (item :: items))),
              .ok ⟨sstablePath e.storagePath nameMs, 0, index⟩) := by
          simp only [Tables.write, SSTable.write, hbytes]
          rfl
        obtain ⟨m, hbuild, hlists, hpath, hcreated⟩ :=
          Tables.write_spec hasc (by simp) hwrite createdMs
        refine ⟨m, hpath, hcreated, by rwa [hsorted, hpath], ?_⟩
        rw [flush, hitems, hsorted]
        simp only [hwrite, hbuild, hoffset, hpath]
      · refine .inl ⟨hsorted ▸ hfits, ?_⟩
        rw [flush, hitems, hsorted]
        simp only [Tables.write, SSTable.write, hbytes]
        rfl

end Calls

end LSMStorageEngine

end Logvine
