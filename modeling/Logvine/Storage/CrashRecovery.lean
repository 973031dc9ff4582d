import Logvine.Storage.Buffers
import Logvine.Storage.EngineRun
import Logvine.Storage.WalTruncation

/-!
# Restarting after a crash

An engine is used by one caller until it stops, after a call or between two steps of a
flush; another engine is then started in the same directory.

- `Crashed`: the engine a sequence of calls, the last of them perhaps a flush that was
  cut off, leaves at the moment of the crash;
- `LogOk`: an accepted write, and a flush that cuts the log, finds the log's handle not
  open yet or at the end of the file;
- `Recovers`: what every step keeps then. The log holds the records in the buffers behind
  those of some dropped buffers, whose keys the saved tables answer alike, and the offsets
  of the buffers are record boundaries;
- `recovers_crashed`: if all calls are `LogOk`, the new engine answers as the old one.

`truncate_upto` keeps the record at the offset (`wal.py`, 144–176), and the offset of a
buffer is that of its last record (`engine.py`, 151 and 273), so at least this record is
replayed again. Hence the dropped buffers in `Recovers`, which the tables answer already.
-/

namespace Logvine

open Layer SSTableManager

section Wal

variable [Zlib]

namespace Wal

omit [Zlib] in
instance (w : Wal) : Decidable w.Synced :=
  inferInstanceAs (Decidable (∀ h ∈ w.file, w.disk.InSync h))

omit [Zlib] in
/-- Opening the handle does not bring it to the end of the file. -/
theorem Synced.of_opened {w : Wal} (h : w.opened.Synced) : w.Synced := by
  intro hd hf
  have hhandle := handle_of_file hf
  have := h hd (congrArg (fun x : NamedFile × Handle => some x.2) hhandle)
  rwa [show w.opened.disk = w.disk from congrArg Prod.fst hhandle] at this

omit [Zlib] in
theorem file_truncateUpto (w : Wal) (offset : Int) : (w.truncateUpto offset).file = w.file := by
  unfold truncateUpto
  split
  · rfl
  · split
    · rfl
    · split <;> rfl

/-- A cut leaves an open handle behind. -/
theorem not_synced_truncateUpto {w : Wal} {dropped kept : List LogRecord} (h : w.Holds (dropped ++ kept))
    (hs : w.Synced) (hne : dropped ≠ []) (hfile : w.file ≠ none) :
    ¬(w.truncateUpto (encodeLog dropped).length).Synced := by
  intro hsynced
  obtain ⟨hd, hf⟩ := Option.ne_none_iff_exists'.mp hfile
  have hbefore := hs hd hf
  have hafter := hsynced hd ((file_truncateUpto w _).trans hf)
  have hlen := congrArg List.length (objects_of_inSync hbefore h.content)
  have hlen' := congrArg List.length (objects_of_inSync hafter (holds_truncateUpto h).content)
  rw [encodeLog_append, List.length_append] at hlen
  have hpos : 0 < (encodeLog dropped).length :=
    List.length_pos_iff.mpr fun hnil => hne (encodeLog_eq_nil_iff.mp hnil)
  have hposition := hbefore.2.symm.trans hafter.2
  omega

end Wal

end Wal

namespace LSMStorageEngine

section Crash

variable [Zlib]

/-- The engine at a crash after some calls, or between two steps of the last of them if
it is a flush. -/
def Crashed (e : LSMStorageEngine Wal) (ops : List Op) (crashed : LSMStorageEngine Wal) : Prop :=
  crashed = runOps e ops ∨
    ∃ before nameMs createdMs pc, ops = before ++ [.flush nameMs createdMs] ∧
      Relation.ReflTransGen (FlushStep nameMs createdMs) (runOps e before, .idle) (crashed, pc)

/-- An accepted write, and a flush that cuts the log at a positive offset, finds the handle
of the log not open yet or at the end of the file. -/
def LogOk (e : LSMStorageEngine Wal) : Op → Prop
  | .put key value => LogRecord.Fits ⟨OperationType.put, key, value⟩ → e.wal.Synced
  | .delete key => LogRecord.Fits ⟨OperationType.delete, key, []⟩ → e.wal.Synced
  | .batchPut keys values =>
    keys.length = values.length → batchInputSize e.memtable (keys.zip values) ≤ e.memtableMaxSize →
      (∀ r ∈ Wal.batchRecords OperationType.put keys values, r.Fits) → e.wal.Synced
  | .flush _ _ =>
    e.memtable.getFrozenItems.entries ≠ [] → e.memtable.getMaxWalOffsetFrozen ≠ 0 → e.wal.Synced
  | _ => True

instance (e : LSMStorageEngine Wal) : (op : Op) → Decidable (LogOk e op)
  | .put _ _ => inferInstanceAs (Decidable (_ → _))
  | .delete _ => inferInstanceAs (Decidable (_ → _))
  | .batchPut _ _ => inferInstanceAs (Decidable (_ → _ → _ → _))
  | .flush _ _ => inferInstanceAs (Decidable (_ → _ → _))
  | .rotate | .compact _ _ => .isTrue trivial

/-! ## The invariant -/

/-- The offset is where a record of the log begins, or its end. -/
def Boundary (offset : Nat) (log : List LogRecord) : Prop :=
  ∃ front, front <+: log ∧ (encodeLog front).length = offset

/-- The offset of every frozen buffer is a boundary of the log up to the buffer's end. -/
def Bounded : List LogRecord → List (List LogRecord × Nat) → Prop
  | _, [] => True
  | dead, p :: rest => Boundary p.2 (dead ++ p.1) ∧ Bounded (dead ++ p.1) rest

/-- What the saved manifest lists: as much as the manifest in memory, except while a flush
has added a table and not saved it. -/
def SavedInv (m : MemTable) (t : Tables) : FlushPc → Prop
  | .added _ => t.reload.Readable ∧ ∀ k, m.layer k = none → t.reload.layer k = t.layer k
  | _ => t.reload.manifest.levels = t.manifest.levels

/-- All offsets of a queue, in the order the log will be cut at them. -/
def offsets (q : BufferQueue LogRecord) : List Nat := q.floor :: (q.frozen.map Prod.snd ++ [q.offset])

/-- The log holds what is in the buffers, behind records of dropped buffers whose keys the
saved tables answer alike. As long as the log has not been cut under an open handle, all
offsets are record boundaries; before the handle is opened only one of them cuts anything. -/
structure Recovers (e : LSMStorageEngine Wal) (pc : FlushPc) (dead : List LogRecord) (q : BufferQueue LogRecord) :
    Prop where
  fills : Fills id e.memtable q
  holds : e.wal.Holds (dead ++ q.contents)
  head : FlushHead q pc
  floor : q.floor = pc.floor
  readable : e.tables.Readable
  flush : FlushInv e.memtable e.tables pc
  saved : SavedInv e.memtable e.tables pc
  answers : ∀ k v, logLayer q.contents k = none → logLayer dead k = some v → e.tables.reload.layer k = some v
  bounded : e.wal.Synced → Boundary q.floor dead ∧ Bounded dead q.frozen ∧ Boundary q.offset (dead ++ q.contents)
  once : e.wal.file = none → (offsets q).Pairwise fun a b => a ≠ 0 → b = 0

theorem boundary_zero (log : List LogRecord) : Boundary 0 log := ⟨[], List.nil_prefix, rfl⟩

theorem Boundary.append {offset : Nat} {log : List LogRecord} (h : Boundary offset log) (rs : List LogRecord) :
    Boundary offset (log ++ rs) := by
  obtain ⟨front, hfront, hlen⟩ := h
  exact ⟨front, hfront.trans (List.prefix_append _ _), hlen⟩

theorem boundary_length {log rs : List LogRecord} (hfront : rs <+: log) : Boundary (encodeLog rs).length log :=
  ⟨rs, hfront, rfl⟩

theorem Boundary.max {offset offset' : Nat} {log : List LogRecord} (h : Boundary offset log)
    (h' : Boundary offset' log) : Boundary (Nat.max offset offset') log := by
  rcases Nat.le_total offset offset' with hle | hle
  · rwa [show Nat.max offset offset' = offset' from Nat.max_eq_right hle]
  · rwa [show Nat.max offset offset' = offset from Nat.max_eq_left hle]

theorem bounded_append {dead : List LogRecord} {frozen : List (List LogRecord × Nat)} {p : List LogRecord × Nat} :
    Bounded dead (frozen ++ [p]) ↔ Bounded dead frozen ∧ Boundary p.2 (dead ++ frozen.flatMap Prod.fst ++ p.1) := by
  induction frozen generalizing dead with
  | nil => simp only [List.nil_append, Bounded, List.flatMap_nil, List.append_nil, and_true, true_and]
  | cons p' rest ih =>
    rw [List.cons_append, Bounded, Bounded, ih, and_assoc, List.flatMap_cons, List.append_assoc dead]

theorem bounded_of_zero {dead : List LogRecord} {frozen : List (List LogRecord × Nat)}
    (h : ∀ p ∈ frozen, p.2 = 0) : Bounded dead frozen := by
  induction frozen generalizing dead with
  | nil => trivial
  | cons p rest ih =>
    refine ⟨?_, ih fun p' hp' => h p' (List.mem_cons_of_mem _ hp')⟩
    rw [h p List.mem_cons_self]
    exact boundary_zero _

omit [Zlib] in
theorem saying_id (rs : List LogRecord) : saying id rs = logLayer rs := by rw [saying, List.map_id]

omit [Zlib] in
/-- Manifests with the same levels answer alike. -/
theorem layer_of_levels (t t' : Tables) (hfiles : t'.files = t.files) (h : t'.manifest.levels = t.manifest.levels) :
    t'.layer = t.layer ∧ (t.Readable → t'.Readable) := by
  obtain ⟨files, levels, version, saved⟩ := t
  obtain ⟨files', levels', version', saved'⟩ := t'
  obtain rfl : files' = files := hfiles
  obtain rfl : levels' = levels := h
  exact ⟨rfl, id⟩

omit [Zlib] in
/-- What a new engine finds in the tables answers, below the memtable, as the tables. -/
theorem SavedInv.reload {m : MemTable} {t : Tables} {pc : FlushPc} (h : SavedInv m t pc) (hr : t.Readable) :
    t.reload.Readable ∧ ∀ k, m.layer k = none → t.reload.layer k = t.layer k := by
  have hsame : t.reload.manifest.levels = t.manifest.levels →
      t.reload.Readable ∧ ∀ k, m.layer k = none → t.reload.layer k = t.layer k := by
    intro hlevels
    obtain ⟨hlayer, hreadable⟩ := layer_of_levels t t.reload rfl hlevels
    exact ⟨hreadable hr, fun k _ => by rw [hlayer]⟩
  cases pc with
  | added walOffset => exact h
  | idle | collected items | writing items walOffset | written sstable walOffset | described metadata walOffset
  | saved walOffset | recorded walOffset | cleared walOffset | returned | raised err => exact hsame h

/-- **A new engine answers as the old one.** -/
theorem Recovers.restart {e : LSMStorageEngine Wal} {pc : FlushPc} {dead : List LogRecord}
    {q : BufferQueue LogRecord} (h : Recovers e pc dead q) (memtableMaxSize : Int) :
    ∃ e', init e.storagePath memtableMaxSize e.wal.disk e.tables = .ok e' ∧ ∀ key, e'.get key = e.get key := by
  have hdisk : e.wal.disk.content.getD [] = encodeLog (dead ++ q.contents) := by rw [h.holds.content]; rfl
  refine ⟨_, init_of_log e.storagePath memtableMaxSize e.wal.disk e.tables hdisk h.holds.fits, ?_⟩
  intro key
  obtain ⟨hreadable, hsaved⟩ := h.saved.reload h.readable
  have hmemory := h.fills.layer
  rw [saying_id] at hmemory
  rw [hmemory] at hsaved
  have hview : Reading.view (replayed memtableMaxSize (dead ++ q.contents)) e.tables.reload key =
      Reading.view e.memtable e.tables key := by
    rw [Reading.view, Reading.view, layer_replayed, hmemory, logLayer_append, above_assoc]
    -- the buffers decide first, in both engines
    -- below them the new engine asks the dead records, the old one only its tables
    cases hkey : logLayer q.contents key with
    | some value => rw [above_of_some hkey, above_of_some hkey]
    | none =>
      rw [above_of_none hkey, above_of_none hkey, ← hsaved key hkey]
      cases hdead : logLayer dead key with
      | some value => rw [above_of_some hdead, h.answers key value hkey hdead]
      | none => rw [above_of_none hdead]
  show Reading.get (replayed memtableMaxSize (dead ++ q.contents)) e.tables.reload key =
    Reading.get e.memtable e.tables key
  rw [Reading.get_eq hreadable, Reading.get_eq h.readable, hview]

/-! ## Writes -/

/-- A write that is refused may open the handle. -/
theorem Recovers.opened {e : LSMStorageEngine Wal} {pc : FlushPc} {dead : List LogRecord}
    {q : BufferQueue LogRecord} (h : Recovers e pc dead q) : Recovers { e with wal := e.wal.opened } pc dead q :=
  ⟨h.fills, h.holds.opened, h.head, h.floor, h.readable, h.flush, h.saved, h.answers,
    fun hs => h.bounded hs.of_opened, fun hfile => absurd hfile (Option.some_ne_none _)⟩

omit [Zlib] in
/-- Fewer keys are left to the tables when the memtable grows. -/
theorem SavedInv.later {m m' : MemTable} {t : Tables} {pc : FlushPc} (h : SavedInv m t pc)
    (hmore : ∀ k, m'.layer k = none → m.layer k = none) : SavedInv m' t pc := by
  cases pc with
  | added walOffset => exact ⟨h.1, fun k hk => h.2 k (hmore k hk)⟩
  | idle | collected items | writing items walOffset | written sstable walOffset | described metadata walOffset
  | saved walOffset | recorded walOffset | cleared walOffset | returned | raised err => exact h

/-- An accepted write appends its records to the log and pushes them. -/
theorem Recovers.write {e : LSMStorageEngine Wal} {pc : FlushPc} {dead : List LogRecord}
    {q q' : BufferQueue LogRecord} (h : Recovers e pc dead q) (hs : e.wal.Synced) {rs : List LogRecord}
    {memtable : MemTable} {wal : Wal} (hwal : wal.Holds (dead ++ q.contents ++ rs)) (hfile : wal.file ≠ none)
    (hfills : Fills id memtable q') (hcontents : q'.contents = q.contents ++ rs) (hfloor : q'.floor = q.floor)
    (hext : Extends e.memtable memtable) (hfront : q.frozen <+: q'.frozen)
    (hbounded : Bounded dead q'.frozen ∧ Boundary q'.offset (dead ++ q'.contents)) :
    Recovers { e with memtable := memtable, wal := wal } pc dead q' := by
  have hmore : ∀ k, memtable.layer k = none → e.memtable.layer k = none := by
    intro k hk
    rw [hfills.layer, hcontents, saying_append] at hk
    rw [h.fills.layer]
    exact (Option.or_eq_none_iff.mp hk).2
  refine ⟨hfills, ?_, h.head.later hfront, hfloor.trans h.floor, h.readable, h.flush.later hext, h.saved.later hmore,
    ?_, fun _ => ⟨?_, hbounded⟩, fun hnone => absurd hnone hfile⟩
  · rw [hcontents, ← List.append_assoc]
    exact hwal
  · intro k v hk hdead
    rw [hcontents, logLayer_append] at hk
    exact h.answers k v (Option.or_eq_none_iff.mp hk).2 hdead
  · rw [hfloor]
    exact (h.bounded hs).1

/-- One record more is a boundary where it begins. -/
theorem Recovers.boundary_tell {e : LSMStorageEngine Wal} {pc : FlushPc} {dead : List LogRecord}
    {q : BufferQueue LogRecord} (h : Recovers e pc dead q) (hs : e.wal.Synced) (rs : List LogRecord) :
    Boundary (max q.offset e.wal.tell) (dead ++ (q.contents ++ rs)) := by
  rw [← List.append_assoc, Wal.tell_eq h.holds hs]
  exact ((h.bounded hs).2.2.append rs).max (boundary_length (List.prefix_append _ _))

theorem recovers_put {e : LSMStorageEngine Wal} {pc : FlushPc} {dead : List LogRecord}
    {q : BufferQueue LogRecord} (h : Recovers e pc dead q) {key value : Bytes} (hok : LogOk e (.put key value)) :
    ∃ q', Recovers ((Op.put key value).run e).1 pc dead q' := by
  let r : LogRecord := ⟨OperationType.put, key, value⟩
  have happend : Log.append e.wal OperationType.put key value = _ := Wal.append_eq e.wal r
  rw [Op.run, put, happend]
  by_cases hfits : r.Fits
  · have hs := hok hfits
    have hholds : (e.wal.written (encodeLog [r])).Holds (dead ++ q.contents ++ [r]) :=
      Wal.holds_written h.holds hs fun r' hr' => List.mem_singleton.mp hr' ▸ hfits
    have hput : recordLayer (id r) = MemTable.entry key value := if_pos rfl
    have hfills := h.fills.putSection hput e.wal.tell
    have hboundary := h.boundary_tell hs [r]
    rw [if_pos hfits]
    -- a full buffer is frozen with the record in it, and the offset starts again at 0
    by_cases hfull : ((e.memtable.putUnlocked key value).setMaxWalOffset e.wal.tell).isFull
    · rw [if_pos hfull] at hfills
      refine ⟨_, h.write hs hholds (Option.some_ne_none _) hfills ?_ rfl (extends_putSection ..)
        (List.prefix_append _ _) ⟨bounded_append.mpr ⟨(h.bounded hs).2.1, ?_⟩, boundary_zero _⟩⟩
      · rw [BufferQueue.contents_freeze, BufferQueue.contents_reach, BufferQueue.contents_push]
      · rw [BufferQueue.contents, List.append_assoc, ← List.append_assoc dead] at hboundary
        exact hboundary
    · rw [if_neg hfull] at hfills
      refine ⟨_, h.write hs hholds (Option.some_ne_none _) hfills ?_ rfl (extends_putSection ..) List.prefix_rfl
        ⟨(h.bounded hs).2.1, ?_⟩⟩
      · rw [BufferQueue.contents_reach, BufferQueue.contents_push]
      · rw [BufferQueue.contents_reach, BufferQueue.contents_push]
        exact hboundary
  · rw [if_neg hfits]
    exact ⟨q, h.opened⟩

theorem recovers_delete {e : LSMStorageEngine Wal} {pc : FlushPc} {dead : List LogRecord}
    {q : BufferQueue LogRecord} (h : Recovers e pc dead q) {key : Bytes} (hok : LogOk e (.delete key)) :
    ∃ q', Recovers ((Op.delete key).run e).1 pc dead q' := by
  let r : LogRecord := ⟨OperationType.delete, key, []⟩
  have happend : Log.append e.wal OperationType.delete key [] = _ := Wal.append_eq e.wal r
  rw [Op.run, delete, happend]
  by_cases hfits : r.Fits
  · have hs := hok hfits
    have hholds : (e.wal.written (encodeLog [r])).Holds (dead ++ q.contents ++ [r]) :=
      Wal.holds_written h.holds hs fun r' hr' => List.mem_singleton.mp hr' ▸ hfits
    have hdelete : recordLayer (id r) = MemTable.entry key tombstone := rfl
    have hfills : Fills id (e.memtable.delete key) (q.push [r]) := h.fills.putUnlocked hdelete
    rw [if_pos hfits]
    refine ⟨_, h.write hs hholds (Option.some_ne_none _) (hfills.setMaxWalOffset e.wal.tell) ?_ rfl List.prefix_rfl
      List.prefix_rfl ⟨(h.bounded hs).2.1, ?_⟩⟩
    · rw [BufferQueue.contents_reach, BufferQueue.contents_push]
    · rw [BufferQueue.contents_reach, BufferQueue.contents_push]
      exact h.boundary_tell hs [r]
  · rw [if_neg hfits]
    exact ⟨q, h.opened⟩

/-- A batch may freeze the active buffer before it is appended. -/
theorem recovers_batchSection {e : LSMStorageEngine Wal} {pc : FlushPc} {dead : List LogRecord}
    {q : BufferQueue LogRecord} (h : Recovers e pc dead q) (hs : e.wal.Synced) {items : List (Bytes × Bytes)}
    {rs : List LogRecord}
    (hrs : rs = items.map fun item => ⟨OperationType.put, item.1, item.2⟩) {wal : Wal}
    (hwal : wal.Holds (dead ++ q.contents ++ rs)) (hfile : wal.file ≠ none) (inputSize : Int) {lastOffset : Nat}
    (hlast : Boundary lastOffset (dead ++ (q.contents ++ rs))) :
    ∃ q', Recovers { e with memtable := batchSection e.memtable inputSize items lastOffset, wal := wal } pc
      dead q' := by
  have hmap : rs.map id = items.map fun item => ⟨OperationType.put, item.1, item.2⟩ := by rwa [List.map_id]
  have hfills := h.fills.batchSection hmap inputSize lastOffset
  obtain ⟨-, hfrozen, hoffset⟩ := h.bounded hs
  by_cases hexceed : e.memtable.batchWouldExceed inputSize
  · rw [if_pos hexceed] at hfills
    refine ⟨_, h.write hs hwal hfile hfills ?_ rfl (extends_batchSection ..) (List.prefix_append _ _)
      ⟨bounded_append.mpr ⟨hfrozen, ?_⟩, ?_⟩⟩
    · rw [BufferQueue.contents_reach, BufferQueue.contents_push, BufferQueue.contents_freeze]
    · rw [BufferQueue.contents, ← List.append_assoc] at hoffset
      exact hoffset
    · rw [BufferQueue.contents_reach, BufferQueue.contents_push, BufferQueue.contents_freeze]
      exact hlast
  · rw [if_neg hexceed] at hfills
    refine ⟨_, h.write hs hwal hfile hfills ?_ rfl (extends_batchSection ..) List.prefix_rfl ⟨hfrozen, ?_⟩⟩
    · rw [BufferQueue.contents_reach, BufferQueue.contents_push]
    · rw [BufferQueue.contents_reach, BufferQueue.contents_push]
      exact hlast

/-- A batch that is logged, and then put into the memtable, or refused by the log. -/
theorem recovers_appendBatch {e : LSMStorageEngine Wal} {pc : FlushPc} {dead : List LogRecord}
    {q : BufferQueue LogRecord} (h : Recovers e pc dead q) {keys values : List Bytes}
    (hlen : keys.length = values.length)
    (hok : (∀ r ∈ Wal.batchRecords OperationType.put keys values, r.Fits) → e.wal.Synced) (inputSize : Int)
    {wal : Wal} {result : Except Error Nat}
    (happend : e.wal.appendBatch OperationType.put keys values = (wal, result)) :
    (∀ err, result = .error err → Recovers { e with wal := wal } pc dead q) ∧
      ∀ lastOffset, result = .ok lastOffset → ∃ q', Recovers { e with
        memtable := batchSection e.memtable inputSize (keys.zip values) lastOffset, wal := wal } pc dead q' := by
  rw [Wal.appendBatch_eq _ _ hlen] at happend
  dsimp only at happend
  -- an empty batch writes nothing but still sets the offset to the end of the log
  by_cases hkeys : keys = []
  · have hs : e.wal.Synced := by
      refine hok fun r hr => ?_
      rw [hkeys] at hr
      cases hr
    have hrs : [] = (keys.zip values).map fun item => (⟨OperationType.put, item.1, item.2⟩ : LogRecord) := by
      rw [hkeys]
      rfl
    rw [if_pos hkeys] at happend
    obtain ⟨rfl, rfl⟩ := Prod.mk.inj happend
    refine ⟨fun _ herr => (by cases herr), fun lastOffset hresult => ?_⟩
    cases hresult
    refine recovers_batchSection h hs hrs ?_ (Option.some_ne_none _) _ ?_
    · rw [List.append_nil]
      exact h.holds.opened
    · rw [List.append_nil, Wal.tell_eq h.holds hs]
      exact boundary_length List.prefix_rfl
  · rw [if_neg hkeys] at happend
    by_cases hfits : ∀ r ∈ Wal.batchRecords OperationType.put keys values, r.Fits
    · have hs := hok hfits
      rw [if_pos hfits] at happend
      obtain ⟨rfl, rfl⟩ := Prod.mk.inj happend
      refine ⟨fun _ herr => (by cases herr), fun lastOffset hresult => ?_⟩
      cases hresult
      refine recovers_batchSection h hs rfl (Wal.holds_written h.holds hs hfits) (Option.some_ne_none _) _ ?_
      rw [Wal.tell_eq h.holds hs, ← List.length_append, ← encodeLog_append, ← List.append_assoc]
      exact boundary_length (List.prefix_append_right_inj _ |>.mpr (List.dropLast_prefix _))
    · rw [if_neg hfits] at happend
      obtain ⟨rfl, rfl⟩ := Prod.mk.inj happend
      refine ⟨fun _ _ => h.opened, fun lastOffset hresult => ?_⟩
      cases hresult

theorem recovers_batchPut {e : LSMStorageEngine Wal} {pc : FlushPc} {dead : List LogRecord}
    {q : BufferQueue LogRecord} (h : Recovers e pc dead q) {keys values : List Bytes}
    (hok : LogOk e (.batchPut keys values)) :
    ∃ q', Recovers ((Op.batchPut keys values).run e).1 pc dead q' := by
  rw [Op.run, batchPut]
  by_cases hlen : keys.length = values.length
  · rw [if_neg (not_not.mpr hlen)]
    dsimp only
    by_cases hsize : e.memtableMaxSize < batchInputSize e.memtable (keys.zip values)
    · rw [if_pos hsize]
      exact ⟨q, h⟩
    · rw [if_neg hsize]
      have happend : Log.appendBatch e.wal OperationType.put keys values =
        e.wal.appendBatch OperationType.put keys values := rfl
      rw [happend]
      rcases hresult : e.wal.appendBatch OperationType.put keys values with ⟨wal, err | lastOffset⟩
      · exact ⟨q, (recovers_appendBatch h hlen (hok hlen (not_lt.mp hsize)) 0 hresult).1 err rfl⟩
      · exact (recovers_appendBatch h hlen (hok hlen (not_lt.mp hsize)) _ hresult).2 lastOffset rfl
  · rw [if_pos hlen]
    exact ⟨q, h⟩

theorem recovers_rotate {e : LSMStorageEngine Wal} {pc : FlushPc} {dead : List LogRecord}
    {q : BufferQueue LogRecord} (h : Recovers e pc dead q) : Recovers (Op.rotate.run e).1 pc dead q.freeze := by
  have hmore : ∀ k, e.memtable.rotateUnlocked.layer k = none → e.memtable.layer k = none := by
    rw [h.fills.rotateUnlocked.layer, BufferQueue.contents_freeze, h.fills.layer]
    exact fun _ => id
  refine ⟨h.fills.rotateUnlocked, ?_, h.head.later (List.prefix_append _ _), h.floor, h.readable,
    h.flush.later (extends_rotateUnlocked _), h.saved.later hmore, ?_, ?_, ?_⟩
  · rw [BufferQueue.contents_freeze]
    exact h.holds
  · rw [BufferQueue.contents_freeze]
    exact h.answers
  · intro hs
    obtain ⟨hfloor, hfrozen, hoffset⟩ := h.bounded hs
    refine ⟨hfloor, bounded_append.mpr ⟨hfrozen, ?_⟩, boundary_zero _⟩
    rw [BufferQueue.contents, ← List.append_assoc] at hoffset
    exact hoffset
  · intro hfile
    have honce := h.once hfile
    have hoffsets : offsets q.freeze = offsets q ++ [0] := by
      show q.floor :: ((q.frozen ++ [(q.active, q.offset)]).map Prod.snd ++ [0]) = _
      rw [List.map_append]
      rfl
    -- a rotation adds the offset 0, which cuts nothing
    rw [hoffsets]
    exact List.pairwise_append.mpr ⟨honce, List.pairwise_singleton _ _, fun a _ b hb _ => List.mem_singleton.mp hb⟩

/-! ## Flushes -/

/-- What a flush with these readings of the clock needs to find from now on. -/
def FlushReady (nameMs createdMs : Nat) (e : LSMStorageEngine Wal) : FlushPc → Prop
  | .idle => ClockOk e (.flush nameMs createdMs) ∧ LogOk e (.flush nameMs createdMs)
  | .collected _ => (¬e.tables.Listed (sstablePath e.storagePath nameMs) ∧ CompactionManager.Newer e.tables createdMs) ∧
      (e.memtable.getMaxWalOffsetFrozen ≠ 0 → e.wal.Synced)
  | .writing _ walOffset =>
    (¬e.tables.Listed (sstablePath e.storagePath nameMs) ∧ CompactionManager.Newer e.tables createdMs) ∧
      (walOffset ≠ 0 → e.wal.Synced)
  | .written _ walOffset => CompactionManager.Newer e.tables createdMs ∧ (walOffset ≠ 0 → e.wal.Synced)
  | .described _ walOffset | .added walOffset | .saved walOffset | .recorded walOffset | .cleared walOffset =>
    walOffset ≠ 0 → e.wal.Synced
  | .returned | .raised _ => True

omit [Zlib] in
theorem FlushReady.clock {nameMs createdMs : Nat} {e : LSMStorageEngine Wal} {pc : FlushPc}
    (h : FlushReady nameMs createdMs e pc) :
    FlushClock e.storagePath e.tables (clockAt nameMs createdMs pc) pc := by
  cases pc with
  | writing items walOffset => exact h.1.1
  | written sstable walOffset =>
    intro m hm
    exact Prod.Lex.toLex_le_toLex.mpr (.inl (h.1 m (mem_readOrder.mpr ⟨0, hm⟩)))
  | idle | collected items | described metadata walOffset | added walOffset | saved walOffset | recorded walOffset
  | cleared walOffset | returned | raised err => trivial

theorem FlushReady.next {nameMs createdMs : Nat} {e : LSMStorageEngine Wal} {pc : FlushPc}
    (h : FlushReady nameMs createdMs e pc) :
    FlushReady nameMs createdMs (flushNext (clockAt nameMs createdMs pc) e pc).1
      (flushNext (clockAt nameMs createdMs pc) e pc).2 := by
  cases pc with
  | idle =>
    rw [flushNext]
    split
    · trivial
    · next item items hitems =>
      obtain ⟨⟨hname, hnewer⟩, hlog⟩ := h
      obtain ⟨frozen, rest, hqueue, heq⟩ := oldest_of_items hitems
      have hne : frozen.sortedItems ≠ [] := by rw [← heq]; exact List.cons_ne_nil _ _
      have htarget := target_flush e nameMs createdMs hqueue hne
      refine ⟨⟨hname _ htarget, hnewer (by rw [htarget]; exact Option.some_ne_none _) createdMs rfl⟩, hlog ?_⟩
      intro hnil
      rw [MemTable.getFrozenItems, hqueue] at hnil
      exact hne (frozen.sortedItems_eq_nil_iff.mpr hnil)
  | collected items => exact h
  | writing items walOffset =>
    obtain ⟨⟨-, hnewer⟩, hlog⟩ := h
    have hmanifest := Tables.manifest_write e.tables (.init (sstablePath e.storagePath nameMs) 0) items
    rw [show clockAt nameMs createdMs (.writing items walOffset) = nameMs from rfl, flushNext]
    cases hwrite : e.tables.write (.init (sstablePath e.storagePath nameMs) 0) items with
    | mk t result =>
      rw [hwrite] at hmanifest
      cases result with
      | error err => trivial
      | ok sstable =>
        refine ⟨fun m hm => hnewer m ?_, hlog⟩
        rwa [← hmanifest]
  | written sstable walOffset =>
    rw [flushNext]
    rcases e.tables.buildMetadata sstable 0 (clockAt nameMs createdMs (.written sstable walOffset)) with
      err | metadata
    · trivial
    · exact h.2
  | described metadata walOffset | added walOffset | saved walOffset | recorded walOffset => exact h
  | cleared walOffset | returned | raised err => trivial

/-- The saved manifest during a flush. -/
theorem savedInv_next {e : LSMStorageEngine Wal} {pc : FlushPc}
    (h : SavedInv e.memtable e.tables pc) (hr : e.tables.Readable) (hflush : FlushInv e.memtable e.tables pc) (nowMs : Nat) :
    SavedInv (flushNext nowMs e pc).1.memtable (flushNext nowMs e pc).1.tables (flushNext nowMs e pc).2 := by
  cases pc with
  | idle =>
    rw [flushNext]
    split <;> exact h
  | writing items walOffset =>
    obtain ⟨content, heq⟩ := e.tables.write_eq_setFile (.init (sstablePath e.storagePath nowMs) 0) items
    rw [flushNext]
    cases hwrite : e.tables.write (.init (sstablePath e.storagePath nowMs) 0) items with
    | mk t result =>
      rw [hwrite] at heq
      obtain rfl : t = e.tables.setFile (sstablePath e.storagePath nowMs) content := heq
      cases result with
      | error err => exact h
      | ok sstable => exact h
  | written sstable walOffset =>
    rw [flushNext]
    rcases e.tables.buildMetadata sstable 0 nowMs with err | metadata <;> exact h
  | described metadata walOffset =>
    obtain ⟨items, -, ⟨frozen, rest, hqueue, rfl⟩, hlists, -, hnew⟩ := hflush
    obtain ⟨hreadable, hlayer⟩ := h.reload hr
    refine ⟨hreadable, fun k hk => (hlayer k hk).trans ?_⟩
    have hadded : (e.tables.addSstable 0 metadata).layer = above (assoc frozen.sortedItems) e.tables.layer :=
      Tables.layer_addSstable hlists hnew
    -- what the memtable lacks the frozen buffer lacks, so that the new table changes nothing there
    have hnone : frozen.get? k = none := by
      have hk : e.memtable.layer k = none := hk
      have hfrozen := (Option.or_eq_none_iff.mp hk).2
      rw [MemTable.frozenLayers, hqueue] at hfrozen
      exact resolve_eq_none_iff.mp hfrozen _ (List.mem_reverse.mpr List.mem_cons_self)
    show e.tables.layer k = (e.tables.addSstable 0 metadata).layer k
    rw [hadded, above_of_none ((frozen.assoc_sortedItems k).trans hnone)]
  | added walOffset | saved walOffset => exact rfl
  | collected items | recorded walOffset | cleared walOffset | returned | raised err => exact h

/-- The step that drops the flushed buffer: its records are dead now. -/
theorem Recovers.drop {e : LSMStorageEngine Wal} {dead es : List LogRecord} {q : BufferQueue LogRecord}
    {walOffset : Nat} {rest : List (List LogRecord × Nat)} (h : Recovers e (.recorded walOffset) dead q)
    (hq : q.frozen = (es, walOffset) :: rest) :
    Recovers { e with memtable := e.memtable.clearFrozen } (.cleared walOffset) (dead ++ es) q.drop := by
  have hdrop : q.drop = { q with floor := walOffset, frozen := rest } := BufferQueue.drop_of_frozen hq
  have hcontents : q.contents = es ++ q.drop.contents := BufferQueue.contents_drop hq
  have hlevels : e.tables.reload.manifest.levels = e.tables.manifest.levels := h.saved
  have hlayer := (layer_of_levels e.tables e.tables.reload rfl hlevels).1
  refine ⟨h.fills.clearFrozen, ?_, trivial, by rw [hdrop]; rfl, h.readable, trivial, hlevels, ?_,
    ?_, ?_⟩
  · rw [List.append_assoc, ← hcontents]
    exact h.holds
  · intro k v hk hdead
    -- the saved tables hold the flushed buffer
    obtain ⟨items, -, ⟨frozen, later, hqueue, rfl⟩, hbelow⟩ := h.flush
    obtain ⟨es', rest', hq', hfrozen⟩ := h.fills.frozen_of_queue hqueue
    obtain ⟨⟨rfl, -⟩, -⟩ : (es' = es ∧ walOffset = walOffset) ∧ rest' = rest := by
      have := List.cons.inj (hq'.symm.trans hq)
      exact ⟨⟨congrArg Prod.fst this.1, rfl⟩, this.2⟩
    rw [saying_id] at hfrozen
    show e.tables.reload.layer k = some v
    rw [logLayer_append] at hdead
    cases hes : logLayer es' k with
    | some w =>
      rw [above_of_some hes] at hdead
      rw [hlayer]
      refine (hbelow k w ?_).trans hdead
      rw [frozen.assoc_sortedItems, hfrozen, hes]
    | none =>
      rw [above_of_none hes] at hdead
      refine h.answers k v ?_ hdead
      rw [hcontents, logLayer_append, above_of_none hk, hes]
  -- its records join the dead ones, in front of which its offset is a boundary
  · intro hs
    obtain ⟨-, hbounded, hoffset⟩ := h.bounded hs
    rw [hq] at hbounded
    rw [hcontents, ← List.append_assoc] at hoffset
    rw [hdrop] at hoffset ⊢
    exact ⟨hbounded.1, hbounded.2, hoffset⟩
  · intro hfile
    have honce := h.once hfile
    rw [offsets, hq] at honce
    rw [offsets, hdrop]
    exact (List.pairwise_cons.mp honce).2

/-- The cut: at a record boundary among the dead records. -/
theorem Recovers.cut {e : LSMStorageEngine Wal} {dead : List LogRecord} {q : BufferQueue LogRecord}
    {walOffset : Nat} (h : Recovers e (.cleared walOffset) dead q) (hsynced : walOffset ≠ 0 → e.wal.Synced) :
    ∃ dead', Recovers { e with wal := e.wal.truncateUpto walOffset } .returned dead' q.cut := by
  have hfloor : q.floor = walOffset := h.floor
  have honce : (e.wal.truncateUpto walOffset).file = none → (offsets q.cut).Pairwise fun a b => a ≠ 0 → b = 0 := by
    intro hfile
    rw [Wal.file_truncateUpto] at hfile
    exact List.pairwise_cons.mpr ⟨fun b _ hne => absurd rfl hne, (List.pairwise_cons.mp (h.once hfile)).2⟩
  by_cases hzero : walOffset = 0
  · have hsame : e.wal.truncateUpto walOffset = e.wal := by
      rw [hzero]
      exact Wal.truncateUpto_zero e.wal
    rw [hsame] at honce ⊢
    exact ⟨dead, h.fills.cut, h.holds, trivial, rfl, h.readable, trivial, h.saved, h.answers,
      fun hs => ⟨boundary_zero _, (h.bounded hs).2⟩, honce⟩
  · have hs := hsynced hzero
    obtain ⟨⟨front, ⟨dead', rfl⟩, hlen⟩, -⟩ := h.bounded hs
    rw [hfloor] at hlen
    have hne : front ≠ [] := by
      rintro rfl
      exact hzero hlen.symm
    have hholds : e.wal.Holds (front ++ (dead' ++ q.contents)) := by
      rw [← List.append_assoc]
      exact h.holds
    have hcut := Wal.holds_truncateUpto hholds
    rw [hlen] at hcut
    refine ⟨dead', h.fills.cut, hcut, trivial, rfl, h.readable, trivial, h.saved, ?_, ?_, honce⟩
    · intro k v hk hdead
      refine h.answers k v hk ?_
      rw [logLayer_append, above_of_some hdead]
    · intro hs'
      -- the log can still be in order only if the handle is not open, and then no other offset cuts anything
      have hfile : e.wal.file = none := by
        by_contra hopen
        rw [← hlen] at hs'
        exact Wal.not_synced_truncateUpto hholds hs hne hopen hs'
      have hothers := (List.pairwise_cons.mp (h.once hfile)).1
      have hzeros : ∀ n ∈ q.frozen.map Prod.snd ++ [q.offset], n = 0 :=
        fun n hn => hothers n hn (hfloor ▸ hzero)
      refine ⟨boundary_zero _, bounded_of_zero ?_, ?_⟩
      · intro p hp
        exact hzeros p.2 (List.mem_append_left _ (List.mem_map_of_mem hp))
      · rw [show q.cut.offset = 0 from hzeros _ (List.mem_append_right _ (List.mem_singleton_self _))]
        exact boundary_zero _

/-- **Every step of a flush** keeps the directory recoverable, if it finds an unused name and a
later time, and the log in order where it cuts it. -/
theorem recovers_flushStep {e : LSMStorageEngine Wal} {pc : FlushPc} {nowMs : Nat}
    (h : ∃ dead q, Recovers e pc dead q) (hclock : FlushClock e.storagePath e.tables nowMs pc)
    (hcut : ∀ walOffset, pc = .cleared walOffset → walOffset ≠ 0 → e.wal.Synced) :
    ∃ dead q, Recovers (flushNext nowMs e pc).1 (flushNext nowMs e pc).2 dead q := by
  obtain ⟨dead, q, h⟩ := h
  obtain ⟨hflush, hreadable, hstep⟩ := flushInv_next h.flush h.readable hclock
  have hsaved := savedInv_next h.saved h.readable h.flush nowMs
  rcases flushNext_queue h.fills h.head h.floor nowMs with
    ⟨hmemtable, hwal, hhead, hfloor⟩ | ⟨es, walOffset, rest, hq, rfl, heq⟩ | ⟨walOffset, rfl, heq⟩
  · refine ⟨dead, q, by rw [hmemtable]; exact h.fills, by rw [hwal]; exact h.holds, hhead, hfloor, hreadable, hflush,
      hsaved, ?_, by rw [hwal]; exact h.bounded, by rw [hwal]; exact h.once⟩
    intro k v hk hdead
    -- below the memtable nothing changes for a reader, before and after a restart
    have hnone : e.memtable.layer k = none := by rw [h.fills.layer, saying_id, hk]
    have hbefore := (h.saved.reload h.readable).2 k hnone
    have hafter := (hsaved.reload hreadable).2 k (by rw [hmemtable, hnone])
    have hview := congrFun (LayeredStore.view_quiet hstep) k
    rw [view_store, view_store, Reading.view, Reading.view, hmemtable, above_of_none hnone, above_of_none hnone] at hview
    rw [hafter, hview, ← hbefore]
    exact h.answers k v hk hdead
  · rw [heq]
    exact ⟨_, _, h.drop hq⟩
  · rw [heq]
    obtain ⟨dead', h'⟩ := h.cut (hcut walOffset rfl)
    exact ⟨dead', _, h'⟩

theorem recovers_flushNext {nameMs createdMs : Nat} {e : LSMStorageEngine Wal} {pc : FlushPc}
    (h : ∃ dead q, Recovers e pc dead q) (hready : FlushReady nameMs createdMs e pc) :
    ∃ dead q, Recovers (flushNext (clockAt nameMs createdMs pc) e pc).1 (flushNext (clockAt nameMs createdMs pc) e pc).2
      dead q := by
  refine recovers_flushStep h hready.clock ?_
  rintro walOffset rfl
  exact hready

theorem recovers_steps {nameMs createdMs : Nat} {e : LSMStorageEngine Wal} {s : LSMStorageEngine Wal × FlushPc}
    (h : ∃ dead q, Recovers e .idle dead q) (hready : FlushReady nameMs createdMs e .idle)
    (hsteps : Relation.ReflTransGen (FlushStep nameMs createdMs) (e, .idle) s) :
    (∃ dead q, Recovers s.1 s.2 dead q) ∧ FlushReady nameMs createdMs s.1 s.2 := by
  -- the condition on the flush is handed on from step to step
  induction hsteps with
  | refl => exact ⟨h, hready⟩
  | tail _ hstep ih =>
    rw [FlushStep] at hstep
    rw [← hstep]
    exact ⟨recovers_flushNext ih.1 ih.2, ih.2.next⟩

/-- A flush that has ended is none. -/
theorem Recovers.ended {e : LSMStorageEngine Wal} {pc : FlushPc} {dead : List LogRecord} {q : BufferQueue LogRecord}
    (h : Recovers e pc dead q) (hpc : pc = .returned ∨ ∃ err, pc = .raised err) : Recovers e .idle dead q := by
  have hsaved : SavedInv e.memtable e.tables .idle := by
    have := h.saved
    rcases hpc with rfl | ⟨err, rfl⟩ <;> exact this
  have hfloor : q.floor = FlushPc.idle.floor := by
    have := h.floor
    rcases hpc with rfl | ⟨err, rfl⟩ <;> exact this
  exact ⟨h.fills, h.holds, trivial, hfloor, h.readable, trivial, hsaved, h.answers, h.bounded, h.once⟩

/-! ## Runs -/

/-- **Every call** keeps the directory recoverable. -/
theorem recovers_run {e : LSMStorageEngine Wal} (h : ∃ dead q, Recovers e .idle dead q) {op : Op}
    (hop : op.nowNs = none) (hclock : ClockOk e op) (hlog : LogOk e op) :
    ∃ dead q, Recovers (op.run e).1 .idle dead q := by
  cases op with
  | put key value =>
    obtain ⟨dead, q, h⟩ := h
    exact ⟨dead, recovers_put h hlog⟩
  | delete key =>
    obtain ⟨dead, q, h⟩ := h
    exact ⟨dead, recovers_delete h hlog⟩
  | batchPut keys values =>
    obtain ⟨dead, q, h⟩ := h
    exact ⟨dead, recovers_batchPut h hlog⟩
  | rotate =>
    obtain ⟨dead, q, h⟩ := h
    exact ⟨dead, q.freeze, recovers_rotate h⟩
  | flush nameMs createdMs =>
    obtain ⟨pc, hpc, hsteps⟩ := flush_reached e nameMs createdMs
    obtain ⟨⟨dead, q, h⟩, -⟩ := recovers_steps h ⟨hclock, hlog⟩ hsteps
    exact ⟨dead, q, h.ended hpc⟩
  | compact nowNs createdMs => cases hop

theorem recovers_runOps {e : LSMStorageEngine Wal} (h : ∃ dead q, Recovers e .idle dead q) {ops : List Op}
    (hops : ∀ op ∈ ops, op.nowNs = none) (hclock : Along ClockOk e ops) (hlog : Along LogOk e ops) :
    ∃ dead q, Recovers (runOps e ops) .idle dead q := by
  induction ops generalizing e with
  | nil => exact h
  | cons op ops ih =>
    exact ih (recovers_run h (hops op List.mem_cons_self) hclock.1 hlog.1)
      (fun op' hop' => hops op' (List.mem_cons_of_mem _ hop')) hclock.2 hlog.2

theorem along_concat {P : LSMStorageEngine Wal → Op → Prop} {e : LSMStorageEngine Wal} {ops : List Op} {op : Op} :
    Along P e (ops ++ [op]) ↔ Along P e ops ∧ P (runOps e ops) op := by
  induction ops generalizing e with
  | nil => exact and_comm
  | cons op' ops ih =>
    rw [List.cons_append, Along, Along, ih, and_assoc]
    rfl

/-- An engine that has just been started. -/
theorem recovers_started (storagePath : Path) (memtableMaxSize : Int) {disk : NamedFile} {t : Tables}
    {rs : List LogRecord} (hdisk : disk.content.getD [] = encodeLog rs) (hfits : ∀ r ∈ rs, r.Fits)
    (hreadable : t.reload.Readable) :
    Recovers (started storagePath memtableMaxSize disk t rs) .idle []
      ⟨0, [], rs, (encodeLog rs.dropLast).length⟩ := by
  obtain ⟨hqueue, hdata, hoffset⟩ := replayed_spec memtableMaxSize rs
  refine ⟨⟨hdata.trans (saying_id rs).symm, ?_, hoffset⟩, Wal.holds_init hdisk hfits, trivial, rfl, hreadable, trivial,
    ?_, ?_, fun _ => ⟨boundary_zero _, trivial, boundary_length (List.dropLast_prefix rs)⟩, ?_⟩
  · show (replayed memtableMaxSize rs).frozenQueue.map _ = _
    rw [hqueue]
    rfl
  · show t.reload.reload.manifest.levels = t.reload.manifest.levels
    rw [Tables.reload, Tables.reload]
    cases t.manifest.saved <;> rfl
  · intro k v _ hdead
    cases hdead
  · intro _
    exact List.pairwise_cons.mpr ⟨fun b _ hne => absurd rfl hne, List.pairwise_singleton _ _⟩

/-- **Crash recovery loses nothing**, if no accepted write and no cut of the log finds its
handle behind. An engine is started in any directory with a whole log and readable tables,
and stops after any calls or within a flush. The engine started there next answers every
key as the old one did. -/
theorem recovers_crashed (storagePath : Path) (memtableMaxSize : Int) (disk : NamedFile) (t : Tables)
    (rs : List LogRecord) (hdisk : disk.content.getD [] = encodeLog rs) (hfits : ∀ r ∈ rs, r.Fits)
    (hreadable : t.reload.Readable) (ops : List Op) (hops : ∀ op ∈ ops, op.nowNs = none)
    (hclock : Along ClockOk (started storagePath memtableMaxSize disk t rs) ops)
    (hlog : Along LogOk (started storagePath memtableMaxSize disk t rs) ops) (crashed : LSMStorageEngine Wal)
    (hcrash : Crashed (started storagePath memtableMaxSize disk t rs) ops crashed) :
    ∃ e, init crashed.storagePath crashed.memtableMaxSize crashed.wal.disk crashed.tables = .ok e ∧
      ∀ key, e.get key = crashed.get key := by
  have hstart : ∃ dead q, Recovers (started storagePath memtableMaxSize disk t rs) .idle dead q :=
    ⟨_, _, recovers_started storagePath memtableMaxSize hdisk hfits hreadable⟩
  rcases hcrash with rfl | ⟨before, nameMs, createdMs, pc, rfl, hsteps⟩
  · obtain ⟨dead, q, h⟩ := recovers_runOps hstart hops hclock hlog
    exact h.restart _
  · obtain ⟨hclock, hclockFlush⟩ := along_concat.mp hclock
    obtain ⟨hlog, hlogFlush⟩ := along_concat.mp hlog
    have hbefore := recovers_runOps hstart (fun op hop => hops op (List.mem_append_left _ hop)) hclock hlog
    obtain ⟨⟨dead, q, h⟩, -⟩ := recovers_steps hbefore ⟨hclockFlush, hlogFlush⟩ hsteps
    exact h.restart _

end Crash

/-! ## Two crashes -/

/-- The first steps of a flush. -/
def flushSteps {L : Type} [Log L] (nameMs createdMs steps : Nat) (e : LSMStorageEngine L) :
    LSMStorageEngine L × FlushPc :=
  (fun s => flushNext (clockAt nameMs createdMs s.2) s.1 s.2)^[steps] (e, .idle)

theorem reached_flushSteps {L : Type} [Log L] (nameMs createdMs steps : Nat) (e : LSMStorageEngine L) :
    Relation.ReflTransGen (FlushStep nameMs createdMs) (e, .idle) (flushSteps nameMs createdMs steps e) := by
  induction steps with
  | zero => exact .refl
  | succ steps ih =>
    refine ih.tail ?_
    rw [FlushStep, flushSteps, flushSteps, Function.iterate_succ_apply']

theorem crashed_flushSteps [Zlib] (e : LSMStorageEngine Wal) (before : List Op) (nameMs createdMs steps : Nat) :
    Crashed e (before ++ [.flush nameMs createdMs]) (flushSteps nameMs createdMs steps (runOps e before)).1 :=
  .inr ⟨before, nameMs, createdMs, _, rfl, reached_flushSteps nameMs createdMs steps _⟩

/-- A flush of a buffer whose last record is the first of the log, and a second buffer. -/
def secondBuffer : List Op :=
  [.put [97] [49], .rotate, .flush 1 2, .put [98] [50], .batchPut [[97], [99]] [[51], [52]], .rotate]

/-- A flush of that buffer has dropped it and not cut the log. -/
def beforeCut : LSMStorageEngine Wal :=
  (flushSteps 3 4 8 (runOps (started "db" 1000 .absent .fresh []) secondBuffer)).1

theorem logOk_secondBuffer :
    Along LogOk (started "db" 1000 .absent .fresh []) (secondBuffer ++ [.flush 3 4]) :=
  ⟨by decide +kernel, trivial, by decide +kernel, by decide +kernel, by decide +kernel, trivial, by decide +kernel,
    trivial⟩

theorem clockOk_secondBuffer :
    Along ClockOk (started "db" 1000 .absent .fresh []) (secondBuffer ++ [.flush 3 4]) :=
  along_of_increasing [] ⟨by decide, by decide, by decide⟩ (sound_fresh "db" 1000) nofun

theorem crashed_beforeCut :
    Crashed (started "db" 1000 .absent .fresh []) (secondBuffer ++ [.flush 3 4]) beforeCut :=
  crashed_flushSteps (started "db" 1000 .absent .fresh []) secondBuffer 3 4 8

theorem recovers_crashed_beforeCut :
    ∃ e, init beforeCut.storagePath beforeCut.memtableMaxSize beforeCut.wal.disk beforeCut.tables = .ok e ∧
      ∀ key, e.get key = beforeCut.get key := by
  have hops : ∀ op ∈ secondBuffer ++ [.flush 3 4], op.nowNs = none := by decide
  have hstarted := recovers_crashed "db" 1000 .absent .fresh [] rfl (List.forall_mem_nil _)
    (sound_fresh "db" 1000).readable (secondBuffer ++ [.flush 3 4]) hops clockOk_secondBuffer logOk_secondBuffer
  have hrestarted := hstarted beforeCut crashed_beforeCut
  exact hrestarted

/-- A write after a flush that has cut the log. -/
def afterCut : List Op := [.put [97] [49], .put [98] [50], .rotate, .flush 1 2, .put [99] [51]]

/-- The write goes to a file no name leads to. -/
theorem recovers_crashed_fails :
    ¬ ∀ (storagePath : Path) (memtableMaxSize : Int) (ops : List Op), (∀ op ∈ ops, op.nowNs = none) →
      Increasing ops → ∀ crashed : LSMStorageEngine Wal, Crashed (fresh storagePath memtableMaxSize) ops crashed →
      ∃ e, init crashed.storagePath crashed.memtableMaxSize crashed.wal.disk crashed.tables = .ok e ∧
        ∀ key, e.get key = crashed.get key := by
  intro h
  obtain ⟨e, hinit, hget⟩ := h "db" 1000 afterCut (by decide) ⟨by decide, by decide, by decide⟩ _ (.inl rfl)
  have hlost : (init (runOps (fresh "db" 1000) afterCut).storagePath (runOps (fresh "db" 1000) afterCut).memtableMaxSize
      (runOps (fresh "db" 1000) afterCut).wal.disk (runOps (fresh "db" 1000) afterCut).tables).toOption.map
        (fun e => e.get [99]) = some (.error (.keyError [99])) := by
    decide +kernel
  rw [hinit] at hlost
  have hmissing : e.get [99] = .error (.keyError [99]) := Option.some.inj hlost
  rw [hget] at hmissing
  revert hmissing
  decide +kernel

end LSMStorageEngine

end Logvine
