import Logvine.Storage.Contents
import Logvine.Storage.Threads

/-!
# A write between its steps

A write that has been logged changes the memtable later, and a flush may go on in between.

- `landed`: the memtable once the write under way is done;
- `WriterPc.effect`: what it makes of the values that can be read (`live_landed`);
- `flushNext_landed`: a step of a flush does the same before and after the write's last steps,
  unless it looks for a frozen buffer and finds none.

A write is two or three steps (`engine.py`, 142–151, 197–199 and 261–273), and a crash after
the first of them leaves a record that the next engine replays. To know what it then shows,
the write has to be finished in thought and the flush beside it compared with a flush after
it.
-/

namespace Logvine

open Layer

/-! ## The frozen buffers apart -/

namespace MemTable

/-- The same memtable with other frozen buffers. -/
def withQueue (m : MemTable) (queue : List (Buffer × Nat)) : MemTable := { m with frozenQueue := queue }

theorem putAll_withQueue (m : MemTable) (queue : List (Buffer × Nat)) (items : List (Bytes × Bytes)) :
    items.foldl (fun m item => m.putUnlocked item.1 item.2) (m.withQueue queue) =
      (items.foldl (fun m item => m.putUnlocked item.1 item.2) m).withQueue queue := by
  induction items generalizing m with
  | nil => rfl
  | cons item items ih => exact ih (m.putUnlocked item.1 item.2)

theorem rotateUnlocked_clearFrozen {m : MemTable} (h : m.frozenQueue ≠ []) :
    m.clearFrozen.rotateUnlocked = m.rotateUnlocked.clearFrozen := by
  rw [clearFrozen, clearFrozen, rotateUnlocked, rotateUnlocked]
  simp only [List.tail_append_of_ne_nil h]

end MemTable

namespace LSMStorageEngine

/-! ## The memtable after the write -/

/-- The memtable once the write under way has done its last section. -/
def landed (m : MemTable) : WriterPc → MemTable
  | .putLogged key value offset => putSection m key value offset
  | .deleteLogged key offset => (m.delete key).setMaxWalOffset offset
  | .deleteApplied _ offset => m.setMaxWalOffset offset
  | .batchLogged items inputSize lastOffset => batchSection m inputSize items lastOffset
  | .idle | .batchSizing _ _ _ _ => m

/-- What the write under way will make of the values that can be read. -/
def WriterPc.effect (m : Contents) : WriterPc → Contents
  | .putLogged key value _ => Function.update m key (Reading.live (some value))
  | .deleteLogged key _ => Function.update m key none
  | .batchLogged items _ _ =>
    items.foldl (fun m item => Function.update m item.1 (Reading.live (some item.2))) m
  | .idle | .deleteApplied _ _ | .batchSizing _ _ _ _ => m

theorem extends_landed (m : MemTable) (pc : WriterPc) : Extends m (landed m pc) := by
  cases pc with
  | putLogged key value offset => exact extends_putSection m key value offset
  | batchLogged items inputSize lastOffset => exact extends_batchSection m inputSize items lastOffset
  | idle | deleteLogged key offset | deleteApplied key offset | batchSizing keys values rest inputSize =>
    exact List.prefix_rfl

/-- The values that can be read after the write. -/
theorem live_landed {m : MemTable} {t : Tables} {contents : Contents}
    (h : ∀ key, Reading.live (Reading.view m t key) = contents key) (pc : WriterPc) (key : Bytes) :
    Reading.live (Reading.view (landed m pc) t key) = pc.effect contents key := by
  cases pc with
  | putLogged k value offset =>
    have hview := LayeredStore.view_write (step_putSection m t k value offset)
    rw [view_store, view_store] at hview
    rw [landed, hview]
    exact live_above_entry h k value key
  | deleteLogged k offset =>
    have hview : Reading.view (m.delete k) t = above (MemTable.entry k tombstone) (Reading.view m t) :=
      LayeredStore.view_write (step_delete m t k)
    show Reading.live (Reading.view (m.delete k) t key) = _
    rw [hview]
    exact live_above_entry h k tombstone key
  | batchLogged items inputSize lastOffset =>
    have hview := LayeredStore.view_write (step_batchSection m t inputSize items lastOffset)
    rw [view_store, view_store] at hview
    rw [landed, hview]
    exact live_above_items_eq h items key
  | idle | deleteApplied k offset | batchSizing keys values rest inputSize => exact h key

/-- A buffer is dropped before or after the write. -/
theorem landed_clearFrozen {m : MemTable} (h : m.frozenQueue ≠ []) (pc : WriterPc) :
    landed m.clearFrozen pc = (landed m pc).clearFrozen := by
  cases pc with
  | putLogged key value offset =>
    have hqueue : ((m.putUnlocked key value).setMaxWalOffset offset).frozenQueue ≠ [] := h
    rw [landed, landed, putSection, putSection]
    by_cases hfull : ((m.putUnlocked key value).setMaxWalOffset offset).isFull
    · rw [if_pos hfull, ← MemTable.rotateUnlocked_clearFrozen hqueue]
      exact if_pos hfull
    · rw [if_neg hfull]
      exact if_neg hfull
  | batchLogged items inputSize lastOffset =>
    have hbefore : beforeBatch m.clearFrozen inputSize = (beforeBatch m inputSize).clearFrozen := by
      rw [beforeBatch, beforeBatch]
      by_cases hexceed : m.batchWouldExceed inputSize
      · rw [if_pos hexceed, ← MemTable.rotateUnlocked_clearFrozen h]
        exact if_pos hexceed
      · rw [if_neg hexceed]
        exact if_neg hexceed
    have hput := MemTable.putAll_withQueue (beforeBatch m inputSize) (beforeBatch m inputSize).frozenQueue.tail items
    obtain ⟨-, hqueue, -⟩ := foldl_putUnlocked (beforeBatch m inputSize) items
    show { items.foldl (fun m item => m.putUnlocked item.1 item.2) (beforeBatch m.clearFrozen inputSize) with
      maxWalOffset := lastOffset } = _
    rw [hbefore]
    show { items.foldl (fun m item => m.putUnlocked item.1 item.2)
      ((beforeBatch m inputSize).withQueue (beforeBatch m inputSize).frozenQueue.tail) with
        maxWalOffset := lastOffset } = _
    rw [hput, ← hqueue]
    rfl
  | idle | deleteLogged key offset | deleteApplied key offset | batchSizing keys values rest inputSize => rfl

/-- A step of the write changes no table, and shows a reader the change of the memtable at once. -/
theorem view_writeNext {L : Type} [Log L] (e : LSMStorageEngine L) (pc : WriterPc) :
    (Config.writeNext e pc).1.tables = e.tables ∧
      Reading.view (Config.writeNext e pc).1.memtable e.tables = Reading.view (landed e.memtable pc) e.tables := by
  cases pc with
  | idle | putLogged key value offset | deleteLogged key offset | deleteApplied key offset
  | batchLogged items inputSize lastOffset => exact ⟨rfl, rfl⟩
  | batchSizing keys values rest inputSize =>
    cases rest with
    | cons item rest => exact ⟨rfl, rfl⟩
    | nil =>
      rw [Config.writeNext]
      split
      · exact ⟨rfl, rfl⟩
      · rcases Log.appendBatch e.wal OperationType.put keys values with ⟨wal, err | lastOffset⟩ <;> exact ⟨rfl, rfl⟩

/-! ## Flushes beside it -/

section Flush

variable {L : Type} [Log L] {e : LSMStorageEngine L} {pc : FlushPc}

omit [Log L] in
theorem oldest_landed {items : List (Bytes × Bytes)} {walOffset : Nat} (h : Oldest e.memtable items walOffset)
    (writing : WriterPc) :
    (landed e.memtable writing).getFrozenItems.sortedItems = items ∧
      (landed e.memtable writing).getMaxWalOffsetFrozen = walOffset := by
  obtain ⟨frozen, rest, hqueue, rfl⟩ := h.later (extends_landed e.memtable writing)
  rw [MemTable.getFrozenItems, MemTable.getMaxWalOffsetFrozen, hqueue]
  exact ⟨rfl, rfl⟩

/-- **A step of a flush** and the write's last steps in either order. -/
theorem flushNext_landed (h : FlushInv e.memtable e.tables pc) (writing : WriterPc) (nowMs : Nat) :
    flushNext nowMs { e with memtable := landed e.memtable writing } pc =
        ({ (flushNext nowMs e pc).1 with memtable := landed (flushNext nowMs e pc).1.memtable writing },
          (flushNext nowMs e pc).2) ∨
      pc = .idle ∧ flushNext nowMs e pc = (e, .returned) := by
  cases pc with
  | idle =>
    cases hitems : e.memtable.getFrozenItems.sortedItems with
    | nil =>
      right
      rw [flushNext, hitems]
      exact ⟨rfl, rfl⟩
    | cons item items =>
      left
      have hlanded := (oldest_landed (oldest_of_items hitems) writing).1
      simp only [flushNext, hitems, hlanded]
  | collected items =>
    left
    obtain ⟨-, walOffset, hold⟩ := h
    have hoffset : e.memtable.getMaxWalOffsetFrozen = walOffset := by
      obtain ⟨frozen, rest, hqueue, -⟩ := hold
      rw [MemTable.getMaxWalOffsetFrozen, hqueue]
    rw [flushNext, flushNext, (oldest_landed hold writing).2, hoffset]
  | writing items walOffset =>
    left
    rw [flushNext, flushNext]
    rcases e.tables.write (.init (sstablePath e.storagePath nowMs) 0) items with ⟨t, err | sstable⟩ <;> rfl
  | written sstable walOffset =>
    left
    rw [flushNext, flushNext]
    rcases e.tables.buildMetadata sstable 0 nowMs with err | metadata <;> rfl
  | recorded walOffset =>
    left
    obtain ⟨items, -, ⟨frozen, rest, hqueue, -⟩, -⟩ := h
    have hne : e.memtable.frozenQueue ≠ [] := by rw [hqueue]; exact List.cons_ne_nil _ _
    rw [flushNext, flushNext, landed_clearFrozen hne]
  | described metadata walOffset | added walOffset | saved walOffset | cleared walOffset | returned | raised err =>
    exact .inl rfl

end Flush

end LSMStorageEngine

end Logvine
