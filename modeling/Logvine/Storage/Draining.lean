import Logvine.Storage.EngineRun

/-!
# Draining the frozen queue

A flush does nothing with an empty buffer at the head of the queue, and leaves it
there. `flush_all` then goes on for ever.

- `Regular`: what the accounting of a memtable guarantees in every run;
- `allFilled_run`: the one step that freezes an empty buffer is a batch of exactly
  the maximal size put into an empty memtable (`FillsEmpty`);
- `drains_iff`: `flush_all` ends with an empty queue exactly if there was no such step.

The early return is `engine.py`, 297–299, the loop 331–332. A `put` rotates behind its own
write (150–160), so what it freezes has an entry; `batch_put` rotates in front of its writes
(266–271), and `batch_would_exceed` is true of an empty buffer when the batch alone reaches
the limit.
-/

namespace Logvine

namespace LSMStorageEngine

/-- Keys and values whose lengths fit their fields. -/
def ShortItems (d : Buffer) : Prop :=
  ∀ key value, d.get? key = some value → key.length < 2 ^ 32 ∧ value.length < 2 ^ 32

/-- No frozen buffer is empty. -/
def AllFilled (m : MemTable) : Prop := ∀ frozen ∈ m.frozenQueue, frozen.1.entries ≠ []

theorem shortItems_empty : ShortItems .empty := nofun

/-- Buffers stay short under all writes of short entries. -/
theorem ShortItems.setAll {d : Buffer} (h : ShortItems d) (items : List (Bytes × Bytes))
    (hitems : ∀ item ∈ items, item.1.length < 2 ^ 32 ∧ item.2.length < 2 ^ 32) :
    ShortItems (d.setAll items) := by
  intro key value hget
  rw [Dict.get?_setAll] at hget
  rcases Option.or_eq_some_iff.mp hget with hnew | ⟨-, hold⟩
  · exact hitems _ (List.mem_reverse.mp (mem_of_assoc hnew))
  · exact h key value hold

theorem ShortItems.set {d : Buffer} (h : ShortItems d) {key value : Bytes} (hkey : key.length < 2 ^ 32)
    (hvalue : value.length < 2 ^ 32) : ShortItems (d.set key value) :=
  h.setAll [(key, value)] fun _ hitem => List.mem_singleton.mp hitem ▸ ⟨hkey, hvalue⟩

/-- A buffer of short items is written, unless the file grows too large. -/
theorem ShortItems.fits {d : Buffer} (h : ShortItems d)
    (hdata : (SSTable.dataBytes d.sortedItems).length < 2 ^ 64) : SSTable.Fits d.sortedItems := by
  have hmem : ∀ p ∈ d.sortedItems, p.1.length < 2 ^ 32 ∧ p.2.length < 2 ^ 32 :=
    fun p hp => h p.1 p.2 (d.get?_eq_some_iff.mpr (d.sortedItems_perm.mem_iff.mp hp))
  exact ⟨fun p hp => (hmem p hp).1, fun p hp => (hmem p hp).2, hdata⟩

/-- A buffer that was written to is not empty. -/
theorem entries_set_ne_nil (d : Buffer) (key value : Bytes) : (d.set key value).entries ≠ [] := by
  intro hnil
  have := ((d.set key value).entries_eq_nil_iff.mp hnil) key
  rw [Dict.get?_set, if_pos rfl] at this
  cases this

/-- If the oldest buffer and all others have entries, all have. -/
theorem allFilled_of_clearFrozen {m : MemTable} (hhead : m.getFrozenItems.entries ≠ [])
    (hrest : AllFilled m.clearFrozen) : AllFilled m := by
  rw [AllFilled, MemTable.clearFrozen] at hrest
  rw [MemTable.getFrozenItems] at hhead
  rw [AllFilled]
  cases hqueue : m.frozenQueue with
  | nil => exact List.forall_mem_nil _
  | cons head rest =>
    rw [hqueue] at hhead hrest
    exact List.forall_mem_cons.mpr ⟨hhead, hrest⟩

/-! ## One flush -/

section Flush

variable {L : Type} [Log L]

/-- A flush removes the oldest buffer exactly if there is something to write and it can
be written. -/
theorem memtable_flush_cases (e : LSMStorageEngine L) (nameMs createdMs : Nat) :
    (e.memtable.getFrozenItems.entries ≠ [] ∧ SSTable.Fits e.memtable.getFrozenItems.sortedItems ∧
        (e.flush nameMs createdMs).memtable = e.memtable.clearFrozen) ∨
      (¬(e.memtable.getFrozenItems.entries ≠ [] ∧ SSTable.Fits e.memtable.getFrozenItems.sortedItems) ∧
        (e.flush nameMs createdMs).memtable = e.memtable) := by
  rcases flush_cases e nameMs createdMs with ⟨hnil, heq⟩ | ⟨frozen, walOffset, rest, hqueue, hne, hcases⟩
  · exact .inr ⟨fun h => h.1 hnil, by rw [heq]⟩
  · have hitems : e.memtable.getFrozenItems = frozen := by rw [MemTable.getFrozenItems, hqueue]
    rw [hitems]
    rcases hcases with ⟨hfits, heq⟩ | ⟨hfits, m, -, -, -, heq⟩
    · exact .inr ⟨fun h => hfits h.2, by rw [heq]⟩
    · exact .inl ⟨fun hnil => hne (frozen.sortedItems_eq_nil_iff.mpr hnil), hfits, by rw [heq]⟩

/-- `flush_all` ends exactly if every buffer of the queue can be flushed. -/
theorem flushAll_of_flushable (readings : Nat → Nat × Nat) (e : LSMStorageEngine L)
    (h : ∀ frozen ∈ e.memtable.frozenQueue, frozen.1.entries ≠ [] ∧ SSTable.Fits frozen.1.sortedItems) :
    ∃ e', flushAll readings e.memtable.frozenQueue.length e = some e' ∧ e'.memtable.frozenQueue = [] := by
  -- one round of the loop removes one buffer, so the induction is on the queue
  generalize hqueue : e.memtable.frozenQueue = queue at h
  induction queue generalizing readings e with
  | nil =>
    refine ⟨e, ?_, hqueue⟩
    rw [List.length_nil, flushAll, MemTable.getFrozenQueueDepth, hqueue, if_neg (by simp)]
  | cons head rest ih =>
    have hitems : e.memtable.getFrozenItems = head.1 := by rw [MemTable.getFrozenItems, hqueue]
    have hflush : (e.flush (readings 0).1 (readings 0).2).memtable = e.memtable.clearFrozen := by
      rcases memtable_flush_cases e (readings 0).1 (readings 0).2 with ⟨-, -, heq⟩ | ⟨hnot, -⟩
      · exact heq
      · rw [hitems] at hnot
        exact absurd (h head List.mem_cons_self) hnot
    obtain ⟨e', hrun, hdone⟩ := ih (fun n => readings (n + 1)) (e.flush (readings 0).1 (readings 0).2)
      (by rw [hflush, MemTable.clearFrozen, hqueue, List.tail_cons])
      fun frozen hfrozen => h frozen (List.mem_cons_of_mem _ hfrozen)
    refine ⟨e', ?_, hdone⟩
    rw [List.length_cons, flushAll, MemTable.getFrozenQueueDepth, hqueue, if_pos (by simp)]
    exact hrun

/-- If `flush_all` comes to an end, no frozen buffer was empty: at an empty one it would call
`flush` for ever. -/
theorem filled_of_flushAll {readings : Nat → Nat × Nat} {rounds : Nat} {e e' : LSMStorageEngine L}
    (h : flushAll readings rounds e = some e') : AllFilled e.memtable := by
  induction rounds generalizing readings e with
  | zero =>
    rw [flushAll] at h
    split at h
    · cases h
    · next hdepth =>
      have hnil : e.memtable.frozenQueue = [] := by simpa [MemTable.getFrozenQueueDepth] using hdepth
      rw [AllFilled, hnil]
      nofun
  | succ rounds ih =>
    rw [flushAll] at h
    split at h
    · have hrest := ih h
      rcases memtable_flush_cases e (readings 0).1 (readings 0).2 with ⟨hhead, -, heq⟩ | ⟨-, heq⟩
      · rw [heq] at hrest
        exact allFilled_of_clearFrozen hhead hrest
      · rwa [heq] at hrest
    · next hdepth =>
      have hnil : e.memtable.frozenQueue = [] := by simpa [MemTable.getFrozenQueueDepth] using hdepth
      rw [AllFilled, hnil]
      nofun

end Flush

/-! ## What is frozen -/

/-- What the accounting of a memtable guarantees. -/
structure Regular (maxSize : Int) (m : MemTable) : Prop where
  maxSize : m.maxSize = maxSize
  size : m.data.entries = [] → m.currentSize = 0
  active : ShortItems m.data
  frozen : ∀ frozen ∈ m.frozenQueue, ShortItems frozen.1

theorem Regular.putUnlocked {maxSize : Int} {m : MemTable} (h : Regular maxSize m) {key value : Bytes}
    (hkey : key.length < 2 ^ 32) (hvalue : value.length < 2 ^ 32) : Regular maxSize (m.putUnlocked key value) :=
  ⟨h.maxSize, fun hnil => absurd hnil (entries_set_ne_nil m.data key value), h.active.set hkey hvalue, h.frozen⟩

theorem Regular.rotateUnlocked {maxSize : Int} {m : MemTable} (h : Regular maxSize m) :
    Regular maxSize m.rotateUnlocked := by
  refine ⟨h.maxSize, fun _ => rfl, shortItems_empty, ?_⟩
  intro frozen hfrozen
  rcases List.mem_append.mp hfrozen with hold | hnew
  · exact h.frozen frozen hold
  · rw [List.mem_singleton.mp hnew]
    exact h.active

/-- A rotation leaves all frozen buffers filled exactly when they were and the active one has
entries. -/
theorem allFilled_rotateUnlocked (m : MemTable) :
    AllFilled m.rotateUnlocked ↔ AllFilled m ∧ m.data.entries ≠ [] := by
  simp only [AllFilled, MemTable.rotateUnlocked, List.mem_append, List.mem_singleton, or_imp, forall_and,
    forall_eq]

/-- The section of `put` freezes the buffer it has just written to, so never an empty one. -/
theorem regular_putSection {maxSize : Int} {m : MemTable} (h : Regular maxSize m) {key value : Bytes}
    (hkey : key.length < 2 ^ 32) (hvalue : value.length < 2 ^ 32) (offset : Nat) :
    Regular maxSize (putSection m key value offset) ∧ (AllFilled (putSection m key value offset) ↔ AllFilled m) := by
  have hput : Regular maxSize ((m.putUnlocked key value).setMaxWalOffset offset) :=
    let hput := h.putUnlocked hkey hvalue
    ⟨hput.maxSize, hput.size, hput.active, hput.frozen⟩
  unfold putSection
  dsimp only
  split
  · refine ⟨hput.rotateUnlocked, (allFilled_rotateUnlocked _).trans ?_⟩
    exact and_iff_left (entries_set_ne_nil m.data key value)
  · exact ⟨hput, Iff.rfl⟩

/-- The loop of `batch_put` keeps the bounds, since every item is within them. -/
theorem regular_foldl {maxSize : Int} {m : MemTable} (h : Regular maxSize m) {items : List (Bytes × Bytes)}
    (hitems : ∀ item ∈ items, item.1.length < 2 ^ 32 ∧ item.2.length < 2 ^ 32) :
    Regular maxSize (items.foldl (fun m item => m.putUnlocked item.1 item.2) m) := by
  induction items generalizing m with
  | nil => exact h
  | cons item items ih =>
    have hitem := hitems item List.mem_cons_self
    exact ih (h.putUnlocked hitem.1 hitem.2) fun item' hitem' => hitems item' (List.mem_cons_of_mem _ hitem')

/-- A batch freezes an empty buffer if its size is the limit and the memtable is empty. -/
theorem regular_batchSection {maxSize : Int} {m : MemTable} (h : Regular maxSize m)
    {inputSize : Int} (hsize : inputSize ≤ maxSize) {items : List (Bytes × Bytes)}
    (hitems : ∀ item ∈ items, item.1.length < 2 ^ 32 ∧ item.2.length < 2 ^ 32) (lastOffset : Nat) :
    Regular maxSize (batchSection m inputSize items lastOffset) ∧
      (AllFilled (batchSection m inputSize items lastOffset) ↔
        AllFilled m ∧ ¬(m.data.entries = [] ∧ inputSize = maxSize)) := by
  have hbefore : Regular maxSize (beforeBatch m inputSize) := by
    unfold beforeBatch
    split
    · exact h.rotateUnlocked
    · exact h
  have hafter := regular_foldl hbefore hitems
  refine ⟨⟨hafter.maxSize, hafter.size, hafter.active, hafter.frozen⟩, ?_⟩
  rw [AllFilled, (batchSection_spec m inputSize items lastOffset).2.1, ← AllFilled, beforeBatch]
  split
  · next hexceeds =>
    rw [allFilled_rotateUnlocked]
    refine and_congr_right fun _ => not_congr ⟨fun hnil => ⟨hnil, ?_⟩, And.left⟩
    -- an empty buffer counts nothing: only a batch as large as the limit exceeds it
    have hlimit : m.maxSize ≤ m.currentSize + inputSize := of_decide_eq_true hexceeds
    rw [h.size hnil, h.maxSize] at hlimit
    omega
  · next hfits =>
    refine (and_iff_left ?_).symm
    rintro ⟨hnil, heq⟩
    refine hfits (decide_eq_true ?_)
    rw [h.size hnil, h.maxSize, heq]
    omega

section Runs

variable [Zlib]

/-! ## Runs -/

omit [Zlib] in
/-- What the log can record is shorter than 4 GiB. -/
theorem short_of_fits {r : LogRecord} (h : r.Fits) : r.key.length < 2 ^ 32 ∧ r.value.length < 2 ^ 32 := by
  unfold LogRecord.Fits at h
  omega

/-- A record the log took is short. -/
theorem short_of_append {w : Wal} {operation : UInt8} {key value : Bytes} {offset : Nat}
    (h : (w.append operation key value).2 = .ok offset) : key.length < 2 ^ 32 ∧ value.length < 2 ^ 32 :=
  short_of_fits ((w.append_ok_iff ⟨operation, key, value⟩).mp ⟨offset, h⟩)

/-- So are all items of a batch that the log took. -/
theorem short_of_appendBatch {w : Wal} {operation : UInt8} {keys values : List Bytes} {offset : Nat}
    (hlen : keys.length = values.length) (h : (w.appendBatch operation keys values).2 = .ok offset) :
    ∀ item ∈ keys.zip values, item.1.length < 2 ^ 32 ∧ item.2.length < 2 ^ 32 := by
  intro item hitem
  exact short_of_fits ((w.appendBatch_ok_iff operation hlen).mp ⟨offset, h⟩ _ (List.mem_map_of_mem hitem))

/-- A batch of exactly the maximal size is put into an empty memtable. -/
def FillsEmpty (e : LSMStorageEngine Wal) : Op → Prop
  | .batchPut keys values => ((Op.batchPut keys values).run e).2 = .ok () ∧ e.memtable.data.entries = [] ∧
      batchInputSize e.memtable (keys.zip values) = e.memtableMaxSize
  | _ => False

/-- One operation of the engine: the buffers stay regular, and all stay filled exactly when it
freezes no empty one. -/
theorem regular_run {e : LSMStorageEngine Wal} (h : Regular e.memtableMaxSize e.memtable) {op : Op}
    (hop : op ≠ .rotate) :
    Regular (op.run e).1.memtableMaxSize (op.run e).1.memtable ∧
      (AllFilled (op.run e).1.memtable ↔ AllFilled e.memtable ∧ ¬FillsEmpty e op) := by
  have hsame : ¬FillsEmpty e op → (AllFilled e.memtable ↔ AllFilled e.memtable ∧ ¬FillsEmpty e op) :=
    fun hnot => (and_iff_left hnot).symm
  cases op with
  | put key value =>
    rcases run_put e key value with ⟨offset, happend, heq⟩ | ⟨err, heq⟩ <;> rw [heq]
    · obtain ⟨hkey, hvalue⟩ := short_of_append happend
      have hput := regular_putSection h hkey hvalue offset
      exact ⟨hput.1, hput.2.trans (hsame not_false)⟩
    · exact ⟨h, hsame not_false⟩
  | delete key =>
    rcases run_delete e key with ⟨offset, happend, heq⟩ | ⟨err, heq⟩ <;> rw [heq]
    · have htombstone : tombstone.length < 2 ^ 32 := by decide
      have hput := h.putUnlocked (short_of_append happend).1 htombstone
      exact ⟨⟨hput.maxSize, hput.size, hput.active, hput.frozen⟩, hsame not_false⟩
    · exact ⟨h, hsame not_false⟩
  | batchPut keys values =>
    rcases run_batchPut e keys values with ⟨offset, hlen, hsize, happend, heq⟩ | ⟨wal, err, heq⟩
    · have hbatch := regular_batchSection h hsize (short_of_appendBatch hlen happend) offset
      rw [FillsEmpty, heq, and_iff_right rfl]
      exact hbatch
    · have hnot : ¬FillsEmpty e (.batchPut keys values) := by
        rintro ⟨hok, -⟩
        rw [heq] at hok
        cases hok
      rw [heq]
      exact ⟨h, hsame hnot⟩
  | rotate => exact absurd rfl hop
  | flush nameMs createdMs =>
    have hmax : (e.flush nameMs createdMs).memtableMaxSize = e.memtableMaxSize := by
      rcases flush_cases e nameMs createdMs with ⟨-, heq⟩ | ⟨_, _, _, -, -, ⟨-, heq⟩ | ⟨-, _, -, -, -, heq⟩⟩ <;>
        rw [heq]
    show Regular (e.flush nameMs createdMs).memtableMaxSize (e.flush nameMs createdMs).memtable ∧
      (AllFilled (e.flush nameMs createdMs).memtable ↔ _)
    rw [hmax]
    rcases memtable_flush_cases e nameMs createdMs with ⟨hhead, -, heq⟩ | ⟨-, heq⟩ <;> rw [heq]
    · refine ⟨⟨h.maxSize, h.size, h.active, fun frozen hfrozen => h.frozen frozen (List.mem_of_mem_tail hfrozen)⟩, ?_⟩
      refine Iff.trans ⟨allFilled_of_clearFrozen hhead, ?_⟩ (hsame not_false)
      intro hall frozen hfrozen
      exact hall frozen (List.mem_of_mem_tail hfrozen)
    · exact ⟨h, hsame not_false⟩
  | compact nowNs createdMs => exact ⟨h, hsame not_false⟩

/-- A run of them, by induction on the operations. -/
theorem regular_runOps {e : LSMStorageEngine Wal} (h : Regular e.memtableMaxSize e.memtable) {ops : List Op}
    (hops : .rotate ∉ ops) :
    Regular (runOps e ops).memtableMaxSize (runOps e ops).memtable ∧
      (AllFilled (runOps e ops).memtable ↔ AllFilled e.memtable ∧ Along (fun e op => ¬FillsEmpty e op) e ops) := by
  induction ops generalizing e with
  | nil => exact ⟨h, (and_iff_left trivial).symm⟩
  | cons op ops ih =>
    rw [List.mem_cons, not_or] at hops
    obtain ⟨hregular, hfilled⟩ := regular_run h (Ne.symm hops.1)
    obtain ⟨hrest, hrun⟩ := ih hregular hops.2
    refine ⟨hrest, hrun.trans ?_⟩
    rw [hfilled, Along, and_assoc]

/-- A flush removes exactly the oldest buffer, and `flush_all` comes to an end, with
nothing left in the queue. -/
def Drains (e : LSMStorageEngine Wal) : Prop :=
  (∀ nameMs createdMs, (e.flush nameMs createdMs).memtable.frozenQueue = e.memtable.frozenQueue.tail) ∧
    ∀ readings, ∃ rounds e', flushAll readings rounds e = some e' ∧ e'.memtable.frozenQueue = []

/-- `flush_all` comes to an end exactly when no frozen buffer is empty. -/
theorem drains_iff_allFilled {e : LSMStorageEngine Wal} (h : Regular e.memtableMaxSize e.memtable)
    (hfiles : ∀ frozen ∈ e.memtable.frozenQueue, (SSTable.dataBytes frozen.1.sortedItems).length < 2 ^ 64) :
    Drains e ↔ AllFilled e.memtable := by
  constructor
  · rintro ⟨-, hall⟩
    obtain ⟨rounds, e', hrun, -⟩ := hall fun _ => (0, 0)
    exact filled_of_flushAll hrun
  · intro hfilled
    -- the accounting keeps keys and values short; the file size is assumed
    have hflushable : ∀ frozen ∈ e.memtable.frozenQueue,
        frozen.1.entries ≠ [] ∧ SSTable.Fits frozen.1.sortedItems :=
      fun frozen hfrozen => ⟨hfilled frozen hfrozen, (h.frozen frozen hfrozen).fits (hfiles frozen hfrozen)⟩
    refine ⟨?_, fun readings => ⟨_, flushAll_of_flushable readings e hflushable⟩⟩
    intro nameMs createdMs
    rcases memtable_flush_cases e nameMs createdMs with ⟨-, -, heq⟩ | ⟨hnot, heq⟩ <;> rw [heq]
    · rfl
    · cases hqueue : e.memtable.frozenQueue with
      | nil => rfl
      | cons head rest =>
        rw [MemTable.getFrozenItems, hqueue] at hnot
        exact absurd (hflushable head (hqueue ▸ List.mem_cons_self)) hnot

/-- **When the frozen queue drains**: in the state reached by any run of writes, flushes
and compactions from an empty directory, a flush that can write its file removes the
oldest buffer, and `flush_all` ends, exactly if no batch of the run of just the maximal
size was put into an empty memtable. -/
theorem drains_iff (storagePath : Path) (memtableMaxSize : Int) (ops : List Op) (hops : .rotate ∉ ops)
    (hfiles : ∀ frozen ∈ (runOps (fresh storagePath memtableMaxSize) ops).memtable.frozenQueue,
      (SSTable.dataBytes frozen.1.sortedItems).length < 2 ^ 64) :
    Drains (runOps (fresh storagePath memtableMaxSize) ops) ↔
      Along (fun e op => ¬FillsEmpty e op) (fresh storagePath memtableMaxSize) ops := by
  have hstart : Regular (fresh storagePath memtableMaxSize).memtableMaxSize
      (fresh storagePath memtableMaxSize).memtable := ⟨rfl, fun _ => rfl, shortItems_empty, nofun⟩
  obtain ⟨hregular, hfilled⟩ := regular_runOps hstart hops
  have hnone : AllFilled (fresh storagePath memtableMaxSize).memtable := nofun
  rw [drains_iff_allFilled hregular hfiles, hfilled, and_iff_right hnone]

end Runs

/-! ## Some runs -/

/-- Two buffers are frozen, the second with a deletion in it, and one is flushed. -/
def twoFull : List Op := [.put [97] [49, 49], .delete [97], .put [99] [51, 51], .flush 1 2]

/-- What is left is flushed to the end; a deletion is an item as well. -/
theorem drains_iff_twoFull : Drains (runOps (fresh "db" 2) twoFull) :=
  (drains_iff "db" 2 twoFull (by decide) (by decide +kernel)).mpr (by
    simp only [twoFull, Along, FillsEmpty]
    decide +kernel)

/-- A batch of size 66, the limit, into an empty memtable: an empty buffer is frozen. -/
theorem drains_fails :
    ¬ ∀ (storagePath : Path) (memtableMaxSize : Int), 0 < memtableMaxSize → ∀ ops : List Op, .rotate ∉ ops →
      (∀ frozen ∈ (runOps (fresh storagePath memtableMaxSize) ops).memtable.frozenQueue,
        (SSTable.dataBytes frozen.1.sortedItems).length < 2 ^ 64) →
      Drains (runOps (fresh storagePath memtableMaxSize) ops) := by
  intro h
  have hflush := (h "db" 66 (by decide) [.batchPut [[97]] [[49]]] (by decide) (by decide +kernel)).1 0 0
  have hleft := congrArg List.length hflush
  revert hleft
  decide +kernel

end LSMStorageEngine

end Logvine
