import Logvine.Storage.CompactionRun
import Logvine.Storage.EngineSteps

/-!
# Sequential runs of an engine

Calls made one after the other on one engine: writes, rotations, flushes and
compactions. A flush or a compaction that writes a file takes its name from the clock.

- `NameOk`, `ClockOk`: the name is not that of a listed table; the clock shows a later
  time than any listed table was recorded at;
- `readable_runOps`: with such names all listed tables stay readable, so that lookups
  and range reads agree (`readKeyRange_agrees`);
- `view_runOps`: with such readings of the clock an accepted write puts its entries
  over what was there, and no other call changes an answer; the engine is the map
  of the writes it accepted (`get_refines_map`, `lastPut_readable_iff`).

Whether a write is accepted is a matter of its arguments and of the state before it
(`Op.Accepted`): the record fits its length fields (`wal.py`, 199–217), a batch has as many
values as keys and a computed size within the limit (`engine.py`, 244–259). `accepted_iff`
says that the engine answers so.

The clock is read twice for a table, for its name (`engine.py`, 304; `compaction.py`, 126)
and for its creation time (`sstable_manager.py`, 56). A name read twice overwrites a table,
a time that is not later puts a table behind an older one; so there are two conditions.
-/

namespace Logvine

open Layer SSTableManager

namespace LSMStorageEngine

/-- A call on an engine, with the readings of the clock it takes. -/
inductive Op where
  | put (key value : Bytes)
  | delete (key : Bytes)
  | batchPut (keys values : List Bytes)
  | rotate
  | flush (nameMs createdMs : Nat)
  | compact (nowNs createdMs : Nat)
deriving DecidableEq, Repr

namespace Op

/-- The millisecond a flush names its file by. -/
def nameMs : Op → Option Nat
  | .flush nameMs _ => some nameMs
  | _ => none

/-- The nanosecond a compaction names its file by. -/
def nowNs : Op → Option Nat
  | .compact nowNs _ => some nowNs
  | _ => none

/-- The millisecond recorded for the new table. -/
def createdMs : Op → Option Nat
  | .flush _ createdMs => some createdMs
  | .compact _ createdMs => some createdMs
  | _ => none

/-- The values a client hands over. -/
def values : Op → List Bytes
  | .put _ value => [value]
  | .batchPut _ values => values
  | _ => []

/-- The keys a call writes. -/
def keys : Op → List Bytes
  | .put key _ => [key]
  | .delete key => [key]
  | .batchPut keys _ => keys
  | _ => []

/-- The entries a write leaves when it is accepted. -/
def written : Op → Layer Bytes Bytes
  | .put key value => MemTable.entry key value
  | .delete key => MemTable.entry key tombstone
  | .batchPut keys values => itemsLayer (keys.zip values)
  | _ => Layer.empty

/-- What a write makes of a map from keys to values. -/
def effect (m : Bytes → Option Bytes) : Op → Bytes → Option Bytes
  | .put key value => Function.update m key (some value)
  | .delete key => Function.update m key none
  | .batchPut keys values =>
    (keys.zip values).foldl (fun m item => Function.update m item.1 (some item.2)) m
  | _ => m

end Op

section Runs

variable {L : Type} [Log L]

/-- Make a call. -/
def Op.run (e : LSMStorageEngine L) : Op → LSMStorageEngine L × Except Error Unit
  | .put key value => e.put key value
  | .delete key => e.delete key
  | .batchPut keys values => e.batchPut keys values
  | .rotate => (e.rotate, .ok ())
  | .flush nameMs createdMs => (e.flush nameMs createdMs, .ok ())
  | .compact nowNs createdMs =>
    ({ e with tables := CompactionManager.compact e.storagePath nowNs createdMs e.tables }, .ok ())

/-- The engine after a sequence of calls. -/
def runOps (e : LSMStorageEngine L) (ops : List Op) : LSMStorageEngine L :=
  ops.foldl (fun e op => (op.run e).1) e

/-- A property of each call of a sequence and the engine it is made on. -/
def Along (P : LSMStorageEngine L → Op → Prop) : LSMStorageEngine L → List Op → Prop
  | _, [] => True
  | e, op :: ops => P e op ∧ Along P (op.run e).1 ops

/-- The file a call writes, if it comes to that. -/
def Op.target (e : LSMStorageEngine L) : Op → Option Path
  | .flush nameMs _ =>
    if e.memtable.getFrozenItems.entries = [] then none else some (sstablePath e.storagePath nameMs)
  | .compact nowNs _ =>
    if e.tables.manifest.getLevelSstables 0 = [] then none else some (compactedPath e.storagePath nowNs)
  | _ => none

/-- The file a call writes is not that of a listed table. -/
def NameOk (e : LSMStorageEngine L) (op : Op) : Prop := ∀ path ∈ op.target e, ¬e.tables.Listed path

/-- In addition, the clock has moved on since all listed tables were recorded. -/
def ClockOk (e : LSMStorageEngine L) (op : Op) : Prop :=
  NameOk e op ∧ (op.target e ≠ none → ∀ nowMs ∈ op.createdMs, CompactionManager.Newer e.tables nowMs)

/-- What the memtable and the tables answer. -/
def view (e : LSMStorageEngine L) : Layer Bytes Bytes := Reading.view e.memtable e.tables

/-- Readable tables under distinct names. -/
structure Sound (e : LSMStorageEngine L) : Prop where
  readable : e.tables.Readable
  distinct : ((readOrder e.tables.manifest).map SSTableMeta.path).Nodup

/-! ## Writes -/

/-- `put` in two cases: the record is appended and the section runs, or nothing but the log has
changed. -/
theorem run_put (e : LSMStorageEngine L) (key value : Bytes) :
    (∃ offset, (Log.append e.wal OperationType.put key value).2 = .ok offset ∧
        (Op.put key value).run e = ({ e with
        wal := (Log.append e.wal OperationType.put key value).1
        memtable := putSection e.memtable key value offset }, .ok ())) ∨
      ∃ err, (Op.put key value).run e =
        ({ e with wal := (Log.append e.wal OperationType.put key value).1 }, .error err) := by
  rw [Op.run, put]
  split
  · next err heq => exact .inr ⟨err, by rw [heq]⟩
  · next offset heq => exact .inl ⟨offset, by rw [heq], by rw [heq]⟩

/-- `delete` likewise. -/
theorem run_delete (e : LSMStorageEngine L) (key : Bytes) :
    (∃ offset, (Log.append e.wal OperationType.delete key []).2 = .ok offset ∧
        (Op.delete key).run e = ({ e with
        wal := (Log.append e.wal OperationType.delete key []).1
        memtable := (e.memtable.delete key).setMaxWalOffset offset }, .ok ())) ∨
      ∃ err, (Op.delete key).run e =
        ({ e with wal := (Log.append e.wal OperationType.delete key []).1 }, .error err) := by
  rw [Op.run, delete]
  split
  · next err heq => exact .inr ⟨err, by rw [heq]⟩
  · next offset heq => exact .inl ⟨offset, by rw [heq], by rw [heq]⟩

/-- `batch_put` likewise, with its two checks before the log is asked. -/
theorem run_batchPut (e : LSMStorageEngine L) (keys values : List Bytes) :
    (∃ lastOffset, keys.length = values.length ∧
        batchInputSize e.memtable (keys.zip values) ≤ e.memtableMaxSize ∧
        (Log.appendBatch e.wal OperationType.put keys values).2 = .ok lastOffset ∧
        (Op.batchPut keys values).run e = ({ e with
          wal := (Log.appendBatch e.wal OperationType.put keys values).1
          memtable := batchSection e.memtable (batchInputSize e.memtable (keys.zip values))
            (keys.zip values) lastOffset }, .ok ())) ∨
      ∃ wal err, (Op.batchPut keys values).run e = ({ e with wal := wal }, .error err) := by
  rw [Op.run, batchPut]
  split
  · exact .inr ⟨e.wal, _, rfl⟩
  · next hlen =>
    dsimp only
    split
    · exact .inr ⟨e.wal, _, rfl⟩
    · next hsize =>
      split
      · next err heq => exact .inr ⟨_, err, rfl⟩
      · next offset heq => exact .inl ⟨offset, not_not.mp hlen, not_lt.mp hsize, by rw [heq], by rw [heq]⟩

/-- `put` raises exactly when the log does. -/
theorem run_put_ok_iff (e : LSMStorageEngine L) (key value : Bytes) :
    ((Op.put key value).run e).2 = .ok () ↔
      ∃ offset, (Log.append e.wal OperationType.put key value).2 = .ok offset := by
  rw [Op.run, put]
  rcases Log.append e.wal OperationType.put key value with ⟨wal, err | offset⟩
  · exact iff_of_false (fun h => by cases h) fun ⟨_, h⟩ => by cases h
  · exact iff_of_true rfl ⟨offset, rfl⟩

/-- So does `delete`. -/
theorem run_delete_ok_iff (e : LSMStorageEngine L) (key : Bytes) :
    ((Op.delete key).run e).2 = .ok () ↔
      ∃ offset, (Log.append e.wal OperationType.delete key []).2 = .ok offset := by
  rw [Op.run, delete]
  rcases Log.append e.wal OperationType.delete key [] with ⟨wal, err | offset⟩
  · exact iff_of_false (fun h => by cases h) fun ⟨_, h⟩ => by cases h
  · exact iff_of_true rfl ⟨offset, rfl⟩

/-- `batch_put` raises by itself for unequal lengths and for its size. -/
theorem run_batchPut_ok_iff (e : LSMStorageEngine L) (keys values : List Bytes) :
    ((Op.batchPut keys values).run e).2 = .ok () ↔ keys.length = values.length ∧
      batchInputSize e.memtable (keys.zip values) ≤ e.memtableMaxSize ∧
      ∃ offset, (Log.appendBatch e.wal OperationType.put keys values).2 = .ok offset := by
  rw [Op.run, batchPut]
  by_cases hlen : keys.length = values.length
  · rw [if_neg (not_not.mpr hlen)]
    dsimp only
    by_cases hsize : batchInputSize e.memtable (keys.zip values) ≤ e.memtableMaxSize
    · rw [if_neg (not_lt.mpr hsize)]
      rcases Log.appendBatch e.wal OperationType.put keys values with ⟨wal, err | offset⟩
      · exact iff_of_false (fun h => by cases h) fun ⟨_, _, _, h⟩ => by cases h
      · exact iff_of_true rfl ⟨hlen, hsize, offset, rfl⟩
    · rw [if_pos (not_le.mp hsize)]
      exact iff_of_false (fun h => by cases h) fun h => hsize h.2.1
  · rw [if_pos hlen]
    exact iff_of_false (fun h => by cases h) fun h => hlen h.1

/-- What a write, a rotation or a call that raises leaves of an engine: the tables, and
a store that has taken one step. -/
structure Wrote (e e' : LSMStorageEngine L) (event : LayeredStore.Event Bytes Bytes) : Prop where
  storagePath : e'.storagePath = e.storagePath
  tables : e'.tables = e.tables
  step : LayeredStore.Step (store e.memtable e.tables) event (store e'.memtable e'.tables)

/-- As the store sees it, an operation on the memtable writes what it accepted, and else nothing.
-/
theorem wrote_run (e : LSMStorageEngine L) (op : Op) (h : op.createdMs = none) :
    Wrote e (op.run e).1
      (if op = .rotate ∨ (op.run e).2 ≠ .ok () then .quiet else .write op.written) := by
  cases op with
  | put key value =>
    rcases run_put e key value with ⟨offset, -, heq⟩ | ⟨err, heq⟩ <;> rw [heq]
    · exact ⟨rfl, rfl, step_putSection ..⟩
    · exact ⟨rfl, rfl, .idle _⟩
  | delete key =>
    rcases run_delete e key with ⟨offset, -, heq⟩ | ⟨err, heq⟩ <;> rw [heq]
    · exact ⟨rfl, rfl, step_delete ..⟩
    · exact ⟨rfl, rfl, .idle _⟩
  | batchPut keys values =>
    rcases run_batchPut e keys values with ⟨offset, -, -, -, heq⟩ | ⟨wal, err, heq⟩ <;> rw [heq]
    · exact ⟨rfl, rfl, step_batchSection ..⟩
    · exact ⟨rfl, rfl, .idle _⟩
  | rotate => exact ⟨rfl, rfl, step_rotate ..⟩
  | flush nameMs createdMs => cases h
  | compact nowNs createdMs => cases h

/-! ## Flushes and compactions -/

omit [Log L] in
/-- A flush of a buffer with entries writes a table. -/
theorem target_flush (e : LSMStorageEngine L) (nameMs createdMs : Nat) {frozen : Buffer} {walOffset : Nat}
    {rest : List (Buffer × Nat)} (hqueue : e.memtable.frozenQueue = (frozen, walOffset) :: rest)
    (hne : frozen.sortedItems ≠ []) :
    (Op.flush nameMs createdMs).target e = some (sstablePath e.storagePath nameMs) := by
  rw [Op.target, if_neg]
  rw [MemTable.getFrozenItems, hqueue]
  exact fun hnil => hne (frozen.sortedItems_eq_nil_iff.mpr hnil)

omit [Log L] in
/-- A compaction with tables in level 0 writes one. -/
theorem target_compact (e : LSMStorageEngine L) (nowNs createdMs : Nat)
    (hne : e.tables.manifest.getLevelSstables 0 ≠ []) :
    (Op.compact nowNs createdMs).target e = some (compactedPath e.storagePath nowNs) := if_neg hne

/-- With none in level 0 it does nothing. -/
theorem compact_of_nothing {storagePath : Path} {timeNs nowMs : Nat} {t : Tables}
    (h : t.manifest.getLevelSstables 0 = []) : CompactionManager.compact storagePath timeNs nowMs t = t := by
  have hnil : levelOrder t.manifest 0 = [] := by
    rw [levelOrder, h]
    rfl
  rw [CompactionManager.compact]
  dsimp only
  rw [map_snd_iterSstableMetadata_level, if_pos hnil]

/-- A buffer that has become a table is seen in the same place. -/
theorem view_recorded {m : MemTable} {t t' : Tables} {frozen : Buffer} {walOffset : Nat}
    {rest : List (Buffer × Nat)} (hqueue : m.frozenQueue = (frozen, walOffset) :: rest)
    (hlayer : t'.layer = above (assoc frozen.sortedItems) t.layer) :
    Reading.view m.clearFrozen t' = Reading.view m t := by
  obtain ⟨fs, hfs, hcleared⟩ := frozenLayers_of_oldest ⟨frozen, rest, hqueue, rfl⟩
  -- first the table is registered, then the buffer dropped, as the flush does it
  have hregistered : (store m t').view = (store m t).view := by
    rw [store, hlayer]
    exact LayeredStore.view_quiet (LayeredStore.Step.register (s := store m t) hfs)
  have hretired := LayeredStore.view_quiet (LayeredStore.Step.retire (s := store m t') hfs
    (by rw [show (store m t').tables = t'.layer from rfl, hlayer]; exact below_above_left _ _))
  rw [← view_store, ← view_store, store, hcleared]
  exact hretired.trans hregistered

/-- A flush under an unused name lists at most one table more. -/
theorem oneNew_flush {e : LSMStorageEngine L} (h : Sound e) {nameMs createdMs : Nat}
    (hname : NameOk e (.flush nameMs createdMs)) :
    (e.flush nameMs createdMs).storagePath = e.storagePath ∧
      Tables.OneNew (sstablePath e.storagePath nameMs) createdMs e.tables (e.flush nameMs createdMs).tables := by
  rcases flush_cases e nameMs createdMs with ⟨-, heq⟩ | ⟨frozen, walOffset, rest, hqueue, hne, hcases⟩
  · rw [heq]
    exact ⟨rfl, Tables.oneNew_refl h.readable h.distinct _ _⟩
  · have hfree := hname _ (target_flush e nameMs createdMs hqueue hne)
    -- the file was not written to the end, or its table is listed
    rcases hcases with ⟨-, heq⟩ | ⟨-, m, hpath, hcreated, hlists, heq⟩ <;> rw [heq]
    · exact ⟨rfl, Tables.oneNew_setFile h.readable h.distinct hfree _ _⟩
    · rw [← hpath] at hfree ⊢
      exact ⟨rfl, Tables.oneNew_addSstable h.readable h.distinct hfree hcreated ⟨_, hlists⟩⟩

/-- If also the clock has moved on, it changes no answer. -/
theorem view_flush {e : LSMStorageEngine L} {nameMs createdMs : Nat}
    (hclock : ClockOk e (.flush nameMs createdMs)) : view (e.flush nameMs createdMs) = view e := by
  rcases flush_cases e nameMs createdMs with ⟨-, heq⟩ | ⟨frozen, walOffset, rest, hqueue, hne, hcases⟩
  · rw [heq]
  · have htarget := target_flush e nameMs createdMs hqueue hne
    have hfree := hclock.1 _ htarget
    rcases hcases with ⟨-, heq⟩ | ⟨-, m, hpath, hcreated, hlists, heq⟩ <;> rw [heq]
    · rw [view, Reading.view, Tables.layer_setFile hfree]
      rfl
    · have hnewer := hclock.2 (by rw [htarget]; simp) createdMs rfl
      rw [← hpath] at hfree
      refine view_recorded hqueue ?_
      show ((e.tables.setFile m.path _).addSstable 0 m).layer = _
      rw [Tables.layer_addSstable hlists, Tables.layer_setFile hfree]
      intro m' hm'
      refine stamp_le_of_lt ?_
      rw [hcreated]
      exact hnewer m' (mem_readOrder.mpr ⟨0, hm'⟩)

/-- What a call leaves listed under unused names: what was listed before, and its own
table. -/
theorem sound_run {e : LSMStorageEngine L} (h : Sound e) {op : Op} (hname : NameOk e op) :
    Sound (op.run e).1 ∧ (op.run e).1.storagePath = e.storagePath ∧
      ∀ m ∈ readOrder (op.run e).1.tables.manifest, m ∈ readOrder e.tables.manifest ∨
        m.createdAtMs = op.createdMs ∧
          ((∃ nameMs ∈ op.nameMs, m.path = sstablePath e.storagePath nameMs) ∨
            ∃ nowNs ∈ op.nowNs, m.path = compactedPath e.storagePath nowNs) := by
  have hwrote : op.createdMs = none → Sound (op.run e).1 ∧ (op.run e).1.storagePath = e.storagePath ∧
      (op.run e).1.tables = e.tables := by
    intro hop
    have hw := wrote_run e op hop
    exact ⟨⟨by rw [hw.tables]; exact h.readable, by rw [hw.tables]; exact h.distinct⟩, hw.storagePath,
      hw.tables⟩
  cases op with
  | flush nameMs createdMs =>
    obtain ⟨hpath, hnew⟩ := oneNew_flush h hname
    refine ⟨⟨hnew.readable, hnew.distinct⟩, hpath, fun m hm => (hnew.listed m hm).imp id ?_⟩
    intro hm
    exact ⟨hm.2, .inl ⟨nameMs, rfl, hm.1⟩⟩
  | compact nowNs createdMs =>
    have hnew : Tables.OneNew (compactedPath e.storagePath nowNs) createdMs e.tables
        (CompactionManager.compact e.storagePath nowNs createdMs e.tables) := by
      by_cases hnil : e.tables.manifest.getLevelSstables 0 = []
      · rw [compact_of_nothing hnil]
        exact Tables.oneNew_refl h.readable h.distinct _ _
      · exact CompactionManager.compact_oneNew h.readable (hname _ (target_compact e nowNs createdMs hnil))
          h.distinct createdMs
    refine ⟨⟨hnew.readable, hnew.distinct⟩, rfl, fun m hm => (hnew.listed m hm).imp id ?_⟩
    intro hm
    exact ⟨hm.2, .inr ⟨nowNs, rfl, hm.1⟩⟩
  | put key value | delete key | batchPut keys values | rotate =>
    obtain ⟨hsound, hpath, htables⟩ := hwrote rfl
    exact ⟨hsound, hpath, fun m hm => .inl (htables ▸ hm)⟩

/-- **What a call does to the answers**: an accepted write puts its entries over what was
there, any other call changes nothing. -/
theorem view_run {e : LSMStorageEngine L} (h : Sound e) {op : Op} (hclock : ClockOk e op) :
    view (op.run e).1 = if (op.run e).2 = .ok () then above op.written (view e) else view e := by
  have hwrote : op.createdMs = none → op ≠ .rotate →
      view (op.run e).1 = if (op.run e).2 = .ok () then above op.written (view e) else view e := by
    intro hop hrotate
    have hwrote := wrote_run e op hop
    by_cases hok : (op.run e).2 = .ok ()
    · rw [if_neg (by simp [hrotate, hok])] at hwrote
      rw [if_pos hok]
      exact LayeredStore.view_write hwrote.step
    · rw [if_pos (.inr hok)] at hwrote
      rw [if_neg hok]
      exact LayeredStore.view_quiet hwrote.step
  cases op with
  | flush nameMs createdMs => exact (view_flush hclock).trans (if_pos rfl).symm
  | compact nowNs createdMs =>
    have hlayer : (CompactionManager.compact e.storagePath nowNs createdMs e.tables).layer =
        e.tables.layer := by
      by_cases hnil : e.tables.manifest.getLevelSstables 0 = []
      · rw [compact_of_nothing hnil]
      · have htarget := target_compact e nowNs createdMs hnil
        exact CompactionManager.layer_compact h.readable (hclock.1 _ htarget) h.distinct
          (hclock.2 (by rw [htarget]; simp) createdMs rfl)
    show above e.memtable.layer (CompactionManager.compact e.storagePath nowNs createdMs e.tables).layer = _
    rw [hlayer]
    exact (if_pos rfl).symm
  | rotate => exact (LayeredStore.view_quiet (wrote_run e .rotate rfl).step).trans (if_pos rfl).symm
  | put key value => exact hwrote rfl (by simp)
  | delete key => exact hwrote rfl (by simp)
  | batchPut keys values => exact hwrote rfl (by simp)

/-! ## Runs under unused names -/

/-- A sound engine stays sound along every run whose new names are unused. -/
theorem sound_runOps {e : LSMStorageEngine L} (h : Sound e) {ops : List Op} (hnames : Along NameOk e ops) :
    Sound (runOps e ops) := by
  induction ops generalizing e with
  | nil => exact h
  | cons op ops ih => exact ih (sound_run h hnames.1).1 hnames.2

omit [Log L] in
/-- A sound engine answers a key with a value exactly if that is what it shows. -/
theorem get_of_sound {e : LSMStorageEngine L} (h : Sound e) (key value : Bytes) :
    e.get key = .ok value ↔ Reading.live (view e key) = some value := by
  rw [get, Reading.get_eq h.readable, view]
  cases Reading.live (Reading.view e.memtable e.tables key) <;> simp

omit [Log L] in
/-- With readable tables a range read returns, by increasing key, what lookups return. -/
theorem readKeyRange_of_sound {e : LSMStorageEngine L} (h : Sound e) (startKey endKey : Bytes) :
    ∃ items, e.readKeyRange startKey endKey = .ok items ∧ Ascending items ∧
      ∀ key value, (key, value) ∈ items ↔ startKey ≤ key ∧ key < endKey ∧ e.get key = .ok value := by
  obtain ⟨items, hread, hasc, hlive⟩ := Reading.readKeyRange_spec h.readable e.memtable startKey endKey
  refine ⟨items, hread, hasc, ?_⟩
  intro key value
  rw [← assoc_eq_some_iff hasc.nodup, hlive, get_of_sound h, Reading.inRange]
  by_cases hin : startKey ≤ key ∧ key < endKey
  · rw [if_pos hin]
    exact ⟨fun hv => ⟨hin.1, hin.2, hv⟩, fun hv => hv.2.2⟩
  · rw [if_neg hin]
    refine ⟨?_, fun hv => absurd ⟨hv.1, hv.2.1⟩ hin⟩
    rintro ⟨⟩

/-! ## Runs by an advancing clock -/

theorem along_mono {P Q : LSMStorageEngine L → Op → Prop} (hPQ : ∀ e op, P e op → Q e op)
    {e : LSMStorageEngine L} {ops : List Op} (h : Along P e ops) : Along Q e ops := by
  induction ops generalizing e with
  | nil => trivial
  | cons op ops ih => exact ⟨hPQ e op h.1, ih h.2⟩

/-- A clock that moves on gives unused names. -/
theorem along_names {e : LSMStorageEngine L} {ops : List Op} (h : Along ClockOk e ops) : Along NameOk e ops :=
  along_mono (fun _ _ hclock => hclock.1) h

/-- Readings of the clock, by what they are used for, increase from call to call. -/
structure Increasing (ops : List Op) : Prop where
  names : (ops.filterMap Op.nameMs).Pairwise (· < ·)
  compactions : (ops.filterMap Op.nowNs).Pairwise (· < ·)
  created : (ops.filterMap Op.createdMs).Pairwise (· < ·)

/-- Every listed table was recorded by one of these calls. -/
def RecordedBy (done : List Op) (e : LSMStorageEngine L) : Prop :=
  ∀ m ∈ readOrder e.tables.manifest, (∃ createdMs ∈ done.filterMap Op.createdMs, m.createdAtMs = some createdMs) ∧
    ((∃ nameMs ∈ done.filterMap Op.nameMs, m.path = sstablePath e.storagePath nameMs) ∨
      ∃ nowNs ∈ done.filterMap Op.nowNs, m.path = compactedPath e.storagePath nowNs)

omit [Log L] in
theorem lt_of_increasing {done ops : List Op} {op : Op} {f : Op → Option Nat}
    (h : ((done ++ op :: ops).filterMap f).Pairwise (· < ·)) {a b : Nat} (ha : a ∈ done.filterMap f)
    (hb : f op = some b) : a < b := by
  rw [List.filterMap_append, List.filterMap_cons_some hb] at h
  exact (List.pairwise_append.mp h).2.2 a ha b List.mem_cons_self

omit [Log L] in
/-- Increasing readings are a clock that moves on. -/
theorem clockOk_of_increasing {done ops : List Op} {op : Op} (h : Increasing (done ++ op :: ops))
    {e : LSMStorageEngine L} (hrec : RecordedBy done e) : ClockOk e op := by
  have hnewer : ∀ nowMs ∈ op.createdMs, CompactionManager.Newer e.tables nowMs := by
    -- every listed table was recorded by an earlier call, at an earlier time
    intro nowMs hnow m hm
    obtain ⟨⟨created, hcreated, heq⟩, -⟩ := hrec m hm
    rw [heq]
    exact lt_of_increasing h.created hcreated hnow
  refine ⟨?_, fun _ => hnewer⟩
  intro path hpath
  cases op with
  | flush nameMs createdMs =>
    rw [Op.target] at hpath
    split at hpath
    · cases hpath
    · obtain rfl := Option.mem_some_iff.mp hpath
      rintro ⟨m, hm, heq⟩
      rcases (hrec m hm).2 with ⟨name, hname, hpath⟩ | ⟨nowNs, -, hpath⟩
      · have hlt := lt_of_increasing h.names hname (b := nameMs) rfl
        exact absurd (Tables.sstablePath_inj (hpath.symm.trans heq)) (Nat.ne_of_lt hlt)
      · exact Tables.sstablePath_ne_compactedPath _ _ _ (heq.symm.trans hpath)
  | compact nowNs createdMs =>
    rw [Op.target] at hpath
    split at hpath
    · cases hpath
    · obtain rfl := Option.mem_some_iff.mp hpath
      rintro ⟨m, hm, heq⟩
      rcases (hrec m hm).2 with ⟨name, -, hpath⟩ | ⟨ns, hns, hpath⟩
      · exact Tables.sstablePath_ne_compactedPath _ _ _ (hpath.symm.trans heq)
      · have hlt := lt_of_increasing h.compactions hns (b := nowNs) rfl
        exact absurd (Tables.compactedPath_inj (hpath.symm.trans heq)) (Nat.ne_of_lt hlt)
  | put key value | delete key | batchPut keys values | rotate => cases hpath

/-- One operation more: the tables it leaves are named by the operations so far. -/
theorem recordedBy_run {done : List Op} {op : Op} {e : LSMStorageEngine L} (h : Sound e)
    (hrec : RecordedBy done e) (hname : NameOk e op) : RecordedBy (done ++ [op]) (op.run e).1 := by
  obtain ⟨-, hpath, hlisted⟩ := sound_run h hname
  intro m hm
  rw [hpath]
  have hkeep : ∀ {f : Op → Option Nat} {a : Nat}, a ∈ done.filterMap f → a ∈ (done ++ [op]).filterMap f := by
    intro f a ha
    rw [List.filterMap_append]
    exact List.mem_append_left _ ha
  have hown : ∀ {f : Op → Option Nat} {a : Nat}, f op = some a → a ∈ (done ++ [op]).filterMap f := by
    intro f a ha
    exact List.mem_filterMap.mpr ⟨op, by simp, ha⟩
  rcases hlisted m hm with hm | ⟨hcreated, hnamed⟩
  · obtain ⟨⟨created, hc, heq⟩, hnamed⟩ := hrec m hm
    refine ⟨⟨created, hkeep hc, heq⟩, ?_⟩
    rcases hnamed with ⟨name, hn, heq⟩ | ⟨ns, hn, heq⟩
    · exact .inl ⟨name, hkeep hn, heq⟩
    · exact .inr ⟨ns, hkeep hn, heq⟩
  · rcases hnamed with ⟨name, hn, heq⟩ | ⟨ns, hn, heq⟩
    · cases op with
      | flush nameMs createdMs => exact ⟨⟨createdMs, hown rfl, hcreated⟩, .inl ⟨name, hown hn, heq⟩⟩
      | put key value | delete key | batchPut keys values | rotate | compact nowNs createdMs => cases hn
    · cases op with
      | compact nowNs createdMs => exact ⟨⟨createdMs, hown rfl, hcreated⟩, .inr ⟨ns, hown hn, heq⟩⟩
      | put key value | delete key | batchPut keys values | rotate | flush nameMs createdMs => cases hn

/-- Under increasing readings every call finds an unused name and a later time. -/
theorem along_of_increasing (done : List Op) {ops : List Op} (hinc : Increasing (done ++ ops))
    {e : LSMStorageEngine L} (h : Sound e) (hrec : RecordedBy done e) : Along ClockOk e ops := by
  -- `done` grows by the calls made, and all listed tables were recorded by one of them
  induction ops generalizing done e with
  | nil => trivial
  | cons op ops ih =>
    have hclock := clockOk_of_increasing hinc hrec
    have hinc' : Increasing ((done ++ [op]) ++ ops) := by rwa [List.append_assoc]
    exact ⟨hclock, ih (done ++ [op]) hinc' (sound_run h hclock.1).1 (recordedBy_run h hrec hclock.1)⟩

/-! ## The map an engine is -/

/-- Whether a call is accepted on an engine, told from its arguments and from what the
engine holds before it: records must fit the log's four-byte length fields, and a batch
must have as many keys as values and keep within the limit. -/
def Op.Accepted (e : LSMStorageEngine L) : Op → Prop
  | .put key value => LogRecord.Fits ⟨OperationType.put, key, value⟩
  | .delete key => LogRecord.Fits ⟨OperationType.delete, key, []⟩
  | .batchPut keys values =>
    keys.length = values.length ∧ batchInputSize e.memtable (keys.zip values) ≤ e.memtableMaxSize ∧
      ∀ r ∈ Wal.batchRecords OperationType.put keys values, r.Fits
  | _ => True

instance (e : LSMStorageEngine L) (op : Op) : Decidable (op.Accepted e) :=
  match op with
  | .put _ _ => inferInstanceAs (Decidable (LogRecord.Fits _))
  | .delete _ => inferInstanceAs (Decidable (LogRecord.Fits _))
  | .batchPut _ _ => inferInstanceAs (Decidable (_ ∧ _ ∧ _))
  | .rotate => isTrue trivial
  | .flush _ _ => isTrue trivial
  | .compact _ _ => isTrue trivial

/-- The map the accepted writes of some calls make of `m`. -/
def expected : LSMStorageEngine L → (Bytes → Option Bytes) → List Op → Bytes → Option Bytes
  | _, m, [] => m
  | e, m, op :: ops => expected (op.run e).1 (if op.Accepted e then op.effect m else m) ops

omit [Log L] in
/-- A write is seen as an update of the map at its key. -/
theorem live_above_entry {f : Layer Bytes Bytes} {m : Bytes → Option Bytes} (h : ∀ k, Reading.live (f k) = m k)
    (key value : Bytes) (k : Bytes) :
    Reading.live (above (MemTable.entry key value) f k) =
      Function.update m key (Reading.live (some value)) k := by
  rw [above_apply, MemTable.entry]
  by_cases hk : key = k
  · subst hk
    rw [if_pos rfl, Function.update_self]
    rfl
  · rw [if_neg hk, Function.update_of_ne (Ne.symm hk), Option.none_or, h]

omit [Log L] in
/-- Any value but the tombstone is live. -/
theorem live_of_ne {value : Bytes} (h : value ≠ tombstone) : Reading.live (some value) = some value := by
  rw [Reading.live_some, if_pos h]

omit [Log L] in
/-- A batch is seen as its updates one after the other. -/
theorem live_above_items {f : Layer Bytes Bytes} {m : Bytes → Option Bytes} (h : ∀ k, Reading.live (f k) = m k)
    {items : List (Bytes × Bytes)} (hvalues : ∀ item ∈ items, item.2 ≠ tombstone) (k : Bytes) :
    Reading.live (above (itemsLayer items) f k) =
      items.foldl (fun (m : Bytes → Option Bytes) item => Function.update m item.1 (some item.2)) m k := by
  induction items generalizing f m with
  | nil => exact h k
  | cons item items ih =>
    have hsplit : above (itemsLayer (item :: items)) f =
        above (itemsLayer items) (above (MemTable.entry item.1 item.2) f) := by
      rw [← above_assoc]
      congr 1
      funext k'
      rw [itemsLayer, List.reverse_cons, assoc_append, assoc_cons, assoc_nil]
      rfl
    rw [hsplit, List.foldl_cons]
    refine ih ?_ fun item' hitem' => hvalues item' (List.mem_cons_of_mem _ hitem')
    intro k'
    rw [live_above_entry h, live_of_ne (hvalues item List.mem_cons_self)]

omit [Log L] in
/-- What an accepted write does to the live values. -/
theorem live_written {f : Layer Bytes Bytes} {m : Bytes → Option Bytes} (h : ∀ k, Reading.live (f k) = m k)
    {op : Op} (hvalues : tombstone ∉ op.values) (k : Bytes) :
    Reading.live (above op.written f k) = op.effect m k := by
  cases op with
  | put key value =>
    have hne : value ≠ tombstone := fun heq => hvalues (by simp [Op.values, heq])
    rw [Op.written, live_above_entry h, live_of_ne hne, Op.effect]
  | delete key =>
    have htombstone : Reading.live (some tombstone) = none := rfl
    rw [Op.written, live_above_entry h, htombstone, Op.effect]
  | batchPut keys values =>
    refine live_above_items h (fun item hitem heq => hvalues ?_) k
    exact heq ▸ (List.of_mem_zip hitem).2
  | rotate | flush nameMs createdMs | compact nowNs createdMs => exact h k

/-- What a key answers is not changed by calls that do not write it. -/
theorem view_of_not_written {e : LSMStorageEngine L} (h : Sound e) {ops : List Op}
    (hclock : Along ClockOk e ops) {key : Bytes} (hkeys : ∀ op ∈ ops, key ∉ op.keys) :
    view (runOps e ops) key = view e key := by
  induction ops generalizing e with
  | nil => rfl
  | cons op ops ih =>
    refine (ih (sound_run h hclock.1.1).1 hclock.2
      fun op' hop' => hkeys op' (List.mem_cons_of_mem _ hop')).trans ?_
    -- a call that does not name the key has no entry for it
    have hnot : op.written key = none := by
      have hkey := hkeys op List.mem_cons_self
      cases op with
      | put key' value | delete key' =>
        exact if_neg fun heq => hkey (by rw [Op.keys, heq]; exact List.mem_singleton_self _)
      | batchPut keys values =>
        refine assoc_eq_none_iff.mpr fun hmem => hkey ?_
        rw [List.map_reverse, List.mem_reverse] at hmem
        obtain ⟨item, hitem, rfl⟩ := List.mem_map.mp hmem
        exact (List.of_mem_zip hitem).1
      | rotate | flush nameMs createdMs | compact nowNs createdMs => rfl
    rw [view_run h hclock.1]
    split
    · exact above_of_none hnot
    · rfl

/-- **No value is mistaken for a deletion, save one**: what was put last under a key is
what lookups and range reads return, whatever is rotated, flushed and compacted
afterwards, if and only if it is not the value that marks deletions. -/
theorem lastPut_readable_iff {e : LSMStorageEngine L} (h : Sound e) (key value : Bytes) (op : Op)
    (hop : op = .put key value ∨ ∃ keys values, op = .batchPut keys values ∧
      assoc (keys.zip values).reverse key = some value)
    (haccepted : (op.run e).2 = .ok ()) (later : List Op) (hclock : Along ClockOk e (op :: later))
    (hkeys : ∀ op ∈ later, key ∉ op.keys) :
    ((runOps e (op :: later)).get key = .ok value ∧
      ∀ startKey endKey, startKey ≤ key → key < endKey →
        ∃ items, (runOps e (op :: later)).readKeyRange startKey endKey = .ok items ∧ (key, value) ∈ items) ↔
      value ≠ tombstone := by
  have hsound := (sound_run h hclock.1.1).1
  have hafter : Sound (runOps e (op :: later)) := sound_runOps hsound (along_names hclock.2)
  have hwritten : op.written key = some value := by
    rcases hop with rfl | ⟨keys, values, rfl, hlast⟩
    · exact if_pos rfl
    · exact hlast
  have hview : view (runOps e (op :: later)) key = some value := by
    refine (view_of_not_written hsound hclock.2 hkeys).trans ?_
    rw [view_run h hclock.1, if_pos haccepted]
    exact above_of_some hwritten
  have hget : (runOps e (op :: later)).get key = .ok value ↔ value ≠ tombstone := by
    rw [get_of_sound hafter, hview, Reading.live_some]
    split
    · next hne => exact ⟨fun _ => hne, fun _ => rfl⟩
    · next heq => exact ⟨fun hnone => (nomatch hnone), fun hne => absurd hne heq⟩
  refine ⟨fun hall => hget.mp hall.1, fun hne => ⟨hget.mpr hne, ?_⟩⟩
  intro startKey endKey hstart hend
  obtain ⟨items, hread, -, hitems⟩ := readKeyRange_of_sound hafter startKey endKey
  exact ⟨items, hread, (hitems key value).mpr ⟨hstart, hend, hget.mpr hne⟩⟩

end Runs

section Fresh

variable [Zlib]

/-- **A call raises nothing exactly when it is accepted.** -/
theorem accepted_iff (e : LSMStorageEngine Wal) (op : Op) : (op.run e).2 = .ok () ↔ op.Accepted e := by
  cases op with
  | put key value =>
    exact (run_put_ok_iff e key value).trans (e.wal.append_ok_iff ⟨OperationType.put, key, value⟩)
  | delete key =>
    exact (run_delete_ok_iff e key).trans (e.wal.append_ok_iff ⟨OperationType.delete, key, []⟩)
  | batchPut keys values =>
    exact (run_batchPut_ok_iff e keys values).trans (and_congr_right fun hlen =>
      and_congr_right fun _ => e.wal.appendBatch_ok_iff OperationType.put hlen)
  | rotate | flush nameMs createdMs | compact nowNs createdMs => exact iff_of_true rfl trivial

/-- **A run is a run of the map**: the live values are those of the accepted writes. -/
theorem live_view_runOps {e : LSMStorageEngine Wal} (h : Sound e) {ops : List Op}
    (hclock : Along ClockOk e ops) (hvalues : ∀ op ∈ ops, tombstone ∉ op.values)
    {m : Bytes → Option Bytes} (hm : ∀ k, Reading.live (view e k) = m k) (k : Bytes) :
    Reading.live (view (runOps e ops) k) = expected e m ops k := by
  induction ops generalizing e m with
  | nil => exact hm k
  | cons op ops ih =>
    refine ih (sound_run h hclock.1.1).1 hclock.2
      (fun op' hop' => hvalues op' (List.mem_cons_of_mem _ hop')) ?_
    intro k'
    rw [view_run h hclock.1]
    by_cases haccepted : op.Accepted e
    · rw [if_pos ((accepted_iff e op).mpr haccepted), if_pos haccepted]
      exact live_written hm (hvalues op List.mem_cons_self) k'
    · rw [if_neg (mt (accepted_iff e op).mp haccepted), if_neg haccepted]
      exact hm k'

/-- An engine in an empty directory. -/
def fresh (storagePath : Path) (memtableMaxSize : Int) : LSMStorageEngine Wal :=
  started storagePath memtableMaxSize .absent .fresh []

/-- In an empty directory the constructor succeeds. -/
theorem init_fresh (storagePath : Path) (memtableMaxSize : Int) :
    init storagePath memtableMaxSize .absent .fresh = .ok (fresh storagePath memtableMaxSize) :=
  init_of_log storagePath memtableMaxSize .absent .fresh rfl (by simp)

/-- And the engine it makes is sound. -/
theorem sound_fresh (storagePath : Path) (memtableMaxSize : Int) : Sound (fresh storagePath memtableMaxSize) :=
  ⟨nofun, List.nodup_nil⟩

/-- **The engine refines a map**: after any run from an empty directory, a lookup returns
what the accepted writes of the run left under the key. -/
theorem get_refines_map (storagePath : Path) (memtableMaxSize : Int) (ops : List Op)
    (hinc : Increasing ops) (hvalues : ∀ op ∈ ops, tombstone ∉ op.values) (key : Bytes) :
    (runOps (fresh storagePath memtableMaxSize) ops).get key =
      match expected (fresh storagePath memtableMaxSize) (fun _ => none) ops key with
      | none => .error (.keyError key)
      | some value => .ok value := by
  have hsound := sound_fresh storagePath memtableMaxSize
  have hclock : Along ClockOk (fresh storagePath memtableMaxSize) ops :=
    along_of_increasing [] hinc hsound nofun
  have hlive := live_view_runOps hsound hclock hvalues (m := fun _ => none) (fun _ => rfl) key
  have hget := Reading.get_eq (sound_runOps hsound (along_names hclock)).readable
    (runOps (fresh storagePath memtableMaxSize) ops).memtable key
  rw [view] at hlive
  rw [hlive] at hget
  exact hget

/-- **Range reads agree with lookups** after any run from an empty directory whose flushes
and compactions find unused names. -/
theorem readKeyRange_agrees (storagePath : Path) (memtableMaxSize : Int) (ops : List Op)
    (hnames : Along NameOk (fresh storagePath memtableMaxSize) ops) (startKey endKey : Bytes) :
    ∃ items, (runOps (fresh storagePath memtableMaxSize) ops).readKeyRange startKey endKey = .ok items ∧
      Ascending items ∧
      ∀ key value, (key, value) ∈ items ↔ startKey ≤ key ∧ key < endKey ∧
        (runOps (fresh storagePath memtableMaxSize) ops).get key = .ok value :=
  readKeyRange_of_sound (sound_runOps (sound_fresh storagePath memtableMaxSize) hnames) startKey endKey

end Fresh

/-! ## Some runs -/

/-- A key written, deleted and written again, across two flushes and a compaction. -/
def rewritten : List Op :=
  [.put [97] [49], .batchPut [[98], [97], [98]] [[50], [51], [52]], .rotate, .flush 1 2, .delete [97],
    .rotate, .flush 3 4, .compact 5000000 5, .put [97] [53]]

theorem increasing_rewritten : Increasing rewritten := ⟨by decide, by decide, by decide⟩

/-- Both keys read the last write, and a key nobody wrote raises. -/
theorem get_refines_map_rewritten :
    (runOps (fresh "db" 1000) rewritten).get [98] = .ok [52] ∧
      (runOps (fresh "db" 1000) rewritten).get [97] = .ok [53] ∧
      (runOps (fresh "db" 1000) rewritten).get [99] = .error (.keyError [99]) :=
  have hmap := get_refines_map "db" 1000 rewritten increasing_rewritten (by decide)
  ⟨(hmap [98]).trans (by decide +kernel), (hmap [97]).trans (by decide +kernel),
    (hmap [99]).trans (by decide +kernel)⟩

theorem readKeyRange_agrees_rewritten :
    ∃ items, (runOps (fresh "db" 1000) rewritten).readKeyRange [97] [98] = .ok items ∧ Ascending items ∧
      ∀ key value, (key, value) ∈ items ↔ [97] ≤ key ∧ key < [98] ∧
        (runOps (fresh "db" 1000) rewritten).get key = .ok value :=
  readKeyRange_agrees "db" 1000 rewritten
    (along_names (along_of_increasing [] increasing_rewritten (sound_fresh "db" 1000) nofun)) [97] [98]

/-- Three flushes of which the last, after the clock has been set back, takes the first
one's name. -/
def reusedName : List Op :=
  [.put [1] [65], .put [3] [65], .rotate, .flush 100 105, .put [5] [88], .rotate, .flush 102 103,
    .put [5] [69], .put [9] [69], .rotate, .flush 100 101]

/-- A lookup passes over the first table, whose recorded range excludes the key, and
finds the second one's value; the range read finds the third one's in the first one's
file. -/
theorem readKeyRange_agrees_fails :
    ¬ ∀ (storagePath : Path) (memtableMaxSize : Int) (ops : List Op) (startKey endKey : Bytes),
      ∃ items, (runOps (fresh storagePath memtableMaxSize) ops).readKeyRange startKey endKey = .ok items ∧
        Ascending items ∧
        ∀ key value, (key, value) ∈ items ↔ startKey ≤ key ∧ key < endKey ∧
          (runOps (fresh storagePath memtableMaxSize) ops).get key = .ok value := by
  intro h
  obtain ⟨items, hread, -, hitems⟩ := h "db" 1000 reusedName [0] [10]
  have hscan : (runOps (fresh "db" 1000) reusedName).readKeyRange [0] [10] =
      .ok [([5], [69]), ([9], [69])] := by decide +kernel
  obtain rfl := Except.ok.inj (hread.symm.trans hscan)
  have hget := ((hitems [5] [69]).mp List.mem_cons_self).2.2
  revert hget
  decide +kernel

/-- The value that marks deletions cannot be read back. -/
theorem lastPut_readable_fails :
    ¬ ∀ (e : LSMStorageEngine Wal), Sound e → ∀ (key value : Bytes) (op : Op),
      (op = .put key value ∨ ∃ keys values, op = .batchPut keys values ∧
        assoc (keys.zip values).reverse key = some value) →
      (op.run e).2 = .ok () → ∀ later : List Op, Along ClockOk e (op :: later) →
      (∀ op ∈ later, key ∉ op.keys) →
        (runOps e (op :: later)).get key = .ok value ∧
          ∀ startKey endKey, startKey ≤ key → key < endKey →
            ∃ items, (runOps e (op :: later)).readKeyRange startKey endKey = .ok items ∧
              (key, value) ∈ items := by
  intro h
  have hget := (h (fresh "db" 1000) (sound_fresh "db" 1000) [97] tombstone (.put [97] tombstone) (.inl rfl)
    (by decide +kernel) [] ⟨⟨nofun, fun hne => absurd rfl hne⟩, trivial⟩ nofun).1
  revert hget
  decide +kernel

/-- What may happen after a key was written for the last time. -/
def flushedAndCompacted : List Op := [.put [98] [50], .rotate, .flush 1 2, .compact 3000000 4]

/-- The value is read back whether a put or the end of a batch wrote it. -/
theorem lastPut_readable_iff_flushedAndCompacted :
    ((runOps (fresh "db" 1000) (.put [97] [49] :: flushedAndCompacted)).get [97] = .ok [49] ∧
      ∀ startKey endKey, startKey ≤ [97] → [97] < endKey →
        ∃ items, (runOps (fresh "db" 1000) (.put [97] [49] :: flushedAndCompacted)).readKeyRange
            startKey endKey = .ok items ∧ ([97], [49]) ∈ items) ∧
      ((runOps (fresh "db" 1000)
          (.batchPut [[97], [99], [97]] [[48], [50], [51]] :: flushedAndCompacted)).get [97] = .ok [51] ∧
        ∀ startKey endKey, startKey ≤ [97] → [97] < endKey →
          ∃ items, (runOps (fresh "db" 1000)
              (.batchPut [[97], [99], [97]] [[48], [50], [51]] :: flushedAndCompacted)).readKeyRange
              startKey endKey = .ok items ∧ ([97], [51]) ∈ items) :=
  ⟨(lastPut_readable_iff (sound_fresh "db" 1000) [97] [49] (.put [97] [49]) (.inl rfl) (by decide +kernel)
      flushedAndCompacted
      (along_of_increasing [] ⟨by decide, by decide, by decide⟩ (sound_fresh "db" 1000) nofun)
      (by decide)).mpr (by decide),
    (lastPut_readable_iff (sound_fresh "db" 1000) [97] [51] (.batchPut [[97], [99], [97]] [[48], [50], [51]])
      (.inr ⟨_, _, rfl, by decide⟩) (by decide +kernel) flushedAndCompacted
      (along_of_increasing [] ⟨by decide, by decide, by decide⟩ (sound_fresh "db" 1000) nofun)
      (by decide)).mpr (by decide)⟩

end LSMStorageEngine

end Logvine
