import Logvine.Storage.EngineRun

/-!
# Counting the active buffer

A memtable counts the lengths of the active values; the engine estimates what a
batch will add before it lets the batch in.

- `exact_putUnlocked`, `exact_batchSection`: the count is that of the active values;
- `batchInputSize_eq`, `currentSize_batchSection`: what the estimate and the real
  growth subtract for replaced values;
- `batchPut_fits_iff`: an admitted batch stays below the limit exactly if the
  estimate has not subtracted too much.

The estimate looks keys up in all buffers (`engine.py`, 251–256), before any item of the
batch is in them, while a put subtracts what it replaces in the active buffer
(`memtable.py`, 98–102). The estimate also adds 64 bytes for each item, which the count
knows nothing of. Which of the two is larger depends on the keys.
-/

namespace Logvine

/-- The length of a value, if there is one. -/
def lengthOf : Option Bytes → Int
  | none => 0
  | some value => value.length

@[simp] theorem lengthOf_none : lengthOf none = 0 := rfl

@[simp] theorem lengthOf_some (value : Bytes) : lengthOf (some value) = value.length := rfl

/-- The lengths of some values together. -/
def valueBytes (items : List (Bytes × Bytes)) : Int := (items.map fun item => (item.2.length : Int)).sum

@[simp] theorem valueBytes_nil : valueBytes [] = 0 := rfl

@[simp] theorem valueBytes_cons (item : Bytes × Bytes) (items : List (Bytes × Bytes)) :
    valueBytes (item :: items) = item.2.length + valueBytes items := List.sum_cons

/-- Setting an entry takes the length of the old value and adds that of the new one. -/
theorem valueBytes_setEntry (l : List (Bytes × Bytes)) (key value : Bytes) :
    valueBytes (Dict.setEntry l key value) = valueBytes l - lengthOf (assoc l key) + value.length := by
  induction l with
  | nil => simp [Dict.setEntry]
  | cons p ps ih =>
    rw [Dict.setEntry, assoc_cons]
    split
    · simp only [valueBytes_cons, lengthOf_some]
      omega
    · simp only [valueBytes_cons, ih]
      omega

namespace MemTable

/-- What `_current_size` counts. -/
def dataSize (d : Buffer) : Int := valueBytes d.entries

/-- The count is that of the active values. -/
def Exact (m : MemTable) : Prop := m.currentSize = dataSize m.data

instance (m : MemTable) : Decidable m.Exact := inferInstanceAs (Decidable (_ = _))

/-- `_put_unlocked` moves the size by the same difference. -/
theorem currentSize_putUnlocked (m : MemTable) (key value : Bytes) :
    (m.putUnlocked key value).currentSize = m.currentSize - lengthOf (m.data.get? key) + value.length := by
  unfold putUnlocked
  cases m.data.get? key <;> rfl

/-- So a size that was exact stays exact. -/
theorem exact_putUnlocked {m : MemTable} (h : m.Exact) (key value : Bytes) : (m.putUnlocked key value).Exact := by
  have hset : dataSize (m.data.set key value) =
      dataSize m.data - lengthOf (m.data.get? key) + value.length :=
    valueBytes_setEntry m.data.entries key value
  rw [Exact, currentSize_putUnlocked, h]
  exact hset.symm

/-- Rotating starts with an empty buffer and a size of zero. -/
theorem exact_rotateUnlocked (m : MemTable) : m.rotateUnlocked.Exact := rfl

end MemTable

namespace LSMStorageEngine

/-! ## The estimate -/

/-- What the estimate adds for an entry besides its value. -/
def overhead (m : MemTable) (key : Bytes) : Int := if lengthOf (m.get key) = 0 then 64 + key.length else 64

/-- What the estimate adds for a batch besides its values. -/
def overheads (m : MemTable) (items : List (Bytes × Bytes)) : Int :=
  (items.map fun item => overhead m item.1).sum

/-- What the estimate subtracts for a batch: for each entry the value a lookup finds,
in whichever buffer that is. -/
def credit (m : MemTable) (items : List (Bytes × Bytes)) : Int :=
  (items.map fun item => lengthOf (m.get item.1)).sum

/-- What putting the entries into a buffer frees: the values it holds by then. -/
def freed : Buffer → List (Bytes × Bytes) → Int
  | _, [] => 0
  | d, item :: items => lengthOf (d.get? item.1) + freed (d.set item.1 item.2) items

/-- What is left below the limit if a batch of this size is put into an empty buffer,
when it is rotated first, or on top of the active data. -/
def room (m : MemTable) (inputSize : Int) : Int :=
  if m.batchWouldExceed inputSize then m.maxSize - inputSize else m.maxSize - (m.currentSize + inputSize)

/-- What an item adds to the computed size: its value and the overhead, less the value that a lookup
through all buffers finds. -/
theorem entrySize_eq (m : MemTable) (key value : Bytes) :
    entrySize m key value = value.length + overhead m key - lengthOf (m.get key) := by
  unfold entrySize overhead
  split
  · next b prev heq =>
    have hne : lengthOf (some (b :: prev)) ≠ 0 := by
      simp only [lengthOf_some, List.length_cons]
      omega
    rw [heq, if_neg hne, lengthOf_some]
  · next hempty =>
    have hzero : lengthOf (m.get key) = 0 := by
      cases heq : m.get key with
      | none => rfl
      | some prev =>
        cases prev with
        | nil => rfl
        | cons b prev => exact absurd heq (hempty b prev)
    rw [if_pos hzero, hzero]
    omega

/-- The estimate of a batch. -/
theorem batchInputSize_eq (m : MemTable) (items : List (Bytes × Bytes)) :
    batchInputSize m items = valueBytes items + overheads m items - credit m items := by
  -- over whatever the entries before have added up to
  have hfold : ∀ size : Int, items.foldl (fun size item => size + entrySize m item.1 item.2) size =
      size + (valueBytes items + overheads m items - credit m items) := by
    induction items with
    | nil =>
      intro size
      simp [overheads, credit]
    | cons item items ih =>
      intro size
      rw [List.foldl_cons, ih, entrySize_eq]
      simp only [valueBytes_cons, overheads, credit, List.map_cons, List.sum_cons]
      omega
  rw [batchInputSize, hfold, Int.zero_add]

/-! ## The growth -/

/-- The loop of `batch_put` adds the values of the items and takes what they replace, each item
once. -/
theorem currentSize_foldl (m : MemTable) (items : List (Bytes × Bytes)) :
    (items.foldl (fun m item => m.putUnlocked item.1 item.2) m).currentSize =
      m.currentSize + valueBytes items - freed m.data items := by
  induction items generalizing m with
  | nil => simp [freed]
  | cons item items ih =>
    have hdata : (m.putUnlocked item.1 item.2).data = m.data.set item.1 item.2 := rfl
    rw [List.foldl_cons, ih, MemTable.currentSize_putUnlocked, hdata, freed, valueBytes_cons]
    omega

/-- The loop keeps an exact size exact. -/
theorem exact_foldl {m : MemTable} (h : m.Exact) (items : List (Bytes × Bytes)) :
    (items.foldl (fun m item => m.putUnlocked item.1 item.2) m).Exact := by
  induction items generalizing m with
  | nil => exact h
  | cons item items ih => exact ih (MemTable.exact_putUnlocked h item.1 item.2)

/-- So does the rotation that `batch_put` may make first. -/
theorem exact_beforeBatch {m : MemTable} (h : m.Exact) (inputSize : Int) : (beforeBatch m inputSize).Exact := by
  unfold beforeBatch
  split
  · exact MemTable.exact_rotateUnlocked m
  · exact h

theorem exact_batchSection {m : MemTable} (h : m.Exact) (inputSize : Int) (items : List (Bytes × Bytes))
    (lastOffset : Nat) : (batchSection m inputSize items lastOffset).Exact :=
  exact_foldl (exact_beforeBatch h inputSize) items

/-- The size after the section of `batch_put`, from the buffer that its loop starts on. -/
theorem currentSize_batchSection (m : MemTable) (inputSize : Int) (items : List (Bytes × Bytes))
    (lastOffset : Nat) :
    (batchSection m inputSize items lastOffset).currentSize =
      (beforeBatch m inputSize).currentSize + valueBytes items -
        freed (beforeBatch m inputSize).data items :=
  currentSize_foldl (beforeBatch m inputSize) items

/-- The limit is never changed. -/
theorem maxSize_batchSection (m : MemTable) (inputSize : Int) (items : List (Bytes × Bytes))
    (lastOffset : Nat) : (batchSection m inputSize items lastOffset).maxSize = m.maxSize := by
  have hbefore : (beforeBatch m inputSize).maxSize = m.maxSize := by
    unfold beforeBatch
    split <;> rfl
  exact (foldl_putUnlocked (beforeBatch m inputSize) items).2.2.trans hbefore

/-- The buffer a batch is put into, the estimate and what it leaves below the limit. -/
theorem currentSize_beforeBatch (m : MemTable) (inputSize : Int) :
    (beforeBatch m inputSize).currentSize = m.maxSize - inputSize - room m inputSize := by
  unfold beforeBatch room
  split
  · show (0 : Int) = _
    omega
  · omega

/-- A batch fits exactly if what the estimate subtracts too much is made up for. -/
theorem batchSection_fits_iff (m : MemTable) (items : List (Bytes × Bytes)) (lastOffset : Nat) :
    (batchSection m (batchInputSize m items) items lastOffset).currentSize ≤ m.maxSize ↔
      credit m items ≤ freed (beforeBatch m (batchInputSize m items)).data items +
        overheads m items + room m (batchInputSize m items) := by
  have hgrowth := currentSize_batchSection m (batchInputSize m items) items lastOffset
  have hbefore := currentSize_beforeBatch m (batchInputSize m items)
  have hestimate := batchInputSize_eq m items
  constructor
  · intro h
    omega
  · intro h
    omega

section Calls

variable {L : Type} [Log L]

/-- **When an admitted batch fits.** A batch that is accepted leaves no more than the
limit in the active buffer exactly if the previous values that its estimate subtracts
are no longer than those it replaces in the buffer it is put into, the overheads the
estimate adds and the room it leaves. The room is never negative. -/
theorem batchPut_fits_iff (e : LSMStorageEngine L) (keys values : List Bytes)
    (hmax : e.memtable.maxSize = e.memtableMaxSize) (haccepted : (e.batchPut keys values).2 = .ok ()) :
    let items := keys.zip values
    let inputSize := batchInputSize e.memtable items
    let after := (e.batchPut keys values).1.memtable
    (after.currentSize ≤ after.maxSize ↔
        credit e.memtable items ≤ freed (beforeBatch e.memtable inputSize).data items +
          overheads e.memtable items + room e.memtable inputSize) ∧
      0 ≤ room e.memtable inputSize ∧ (e.memtable.Exact → after.Exact) := by
  intro items inputSize after
  rcases run_batchPut e keys values with ⟨offset, -, hsize, -, hrun⟩ | ⟨wal, err, hrun⟩
  · have hafter : after = batchSection e.memtable inputSize items offset :=
      congrArg (fun r => r.1.memtable) hrun
    rw [hafter, maxSize_batchSection]
    refine ⟨batchSection_fits_iff e.memtable items offset, ?_, fun h => exact_batchSection h ..⟩
    have hadmitted : inputSize ≤ e.memtableMaxSize := hsize
    unfold room
    split
    · omega
    · next hfits =>
      have : ¬e.memtable.maxSize ≤ e.memtable.currentSize + inputSize := fun h => hfits (decide_eq_true h)
      omega
  · have hrefused : (e.batchPut keys values).2 = .error err := congrArg Prod.snd hrun
    rw [hrefused] at haccepted
    cases haccepted

end Calls

/-! ## Some batches -/

/-- An engine whose only value, of eighty bytes, is in a frozen buffer. -/
def frozenValue : LSMStorageEngine Wal := ((fresh "db" 70).put [97] (List.replicate 80 0)).1

/-- A batch of two values for the same new key. -/
theorem batchPut_fits_iff_repeated :
    let e : LSMStorageEngine Wal := fresh "db" 200
    let after := (e.batchPut [[97], [97]] [[49], [50, 50]]).1.memtable
    after.currentSize ≤ after.maxSize ∧ after.Exact :=
  let fits := batchPut_fits_iff (fresh "db" 200 : LSMStorageEngine Wal) [[97], [97]] [[49], [50, 50]]
    (by decide +kernel) (by decide +kernel)
  ⟨fits.1.mpr (by decide +kernel), fits.2.2 (by decide +kernel)⟩

/-- The value of the frozen buffer is subtracted: 75 + 64 - 80 = 59 is admitted, and the
buffer holds 75 bytes afterwards. -/
theorem batchPut_fits_fails :
    ¬ ∀ (e : LSMStorageEngine Wal) (keys values : List Bytes),
      e.memtable.maxSize = e.memtableMaxSize → e.memtable.Exact →
      e.memtable.currentSize < e.memtable.maxSize → (e.batchPut keys values).2 = .ok () →
      (e.batchPut keys values).1.memtable.currentSize ≤ (e.batchPut keys values).1.memtable.maxSize := by
  intro h
  have := h frozenValue [[97]] [List.replicate 75 0] (by decide +kernel) (by decide +kernel)
    (by decide +kernel) (by decide +kernel)
  revert this
  decide +kernel

end LSMStorageEngine

end Logvine
