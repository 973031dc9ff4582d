import Logvine.Storage.CompactionRun
import Logvine.Storage.Recovery

/-!
# Replaying what was flushed already

A flush cuts the log behind the buffer it wrote, and keeps at least the last record
of that buffer; a crash before the cut keeps all of them. A restart replays them over
tables that hold them.

- `Flushed`: the tables that flushes and compactions make of a sequence of writes;
- `Flushed.spec`: they answer with the last write of each key, from the saved manifest;
- `logLayer_overlap`: a replay that starts inside what was flushed changes nothing there;
- `replay_harmless`: so the engine that starts answers with the last write of all.

Nothing in the log says how far it has been flushed, and `replay_wal` replays all of it
(`engine.py`, 125–131). This is right only since the replayed records lie above the tables
and are the last ones of their keys, or are followed by these.
-/

namespace Logvine

open Layer SSTableManager CompactionManager

/-- A write of a history. -/
inductive Write where
  | put (key value : Bytes)
  | delete (key : Bytes)
deriving DecidableEq, Repr

namespace Write

/-- The key it writes. -/
def key : Write → Bytes
  | .put key _ => key
  | .delete key => key

/-- The value it leaves under its key. -/
def stored : Write → Bytes
  | .put _ value => value
  | .delete _ => tombstone

/-- The record `put` and `delete` append for it. -/
def record : Write → LogRecord
  | .put key value => ⟨OperationType.put, key, value⟩
  | .delete key => ⟨OperationType.delete, key, []⟩

end Write

/-- The buffer that consecutive writes fill. -/
def bufferOf (ws : List Write) : Buffer := ws.foldl (fun d w => d.set w.key w.stored) .empty

/-- The result of the last write of a key: its value, or a `KeyError` for a key that
was deleted or never written. -/
def lastWrite (h : List Write) (key : Bytes) : Except Error Bytes :=
  match h.reverse.find? fun w => w.key = key with
  | some (.put _ value) => .ok value
  | _ => .error (.keyError key)

/-- Tables that hold exactly the buffers these writes filled: flushed one after the other,
merged by compactions with flushes in between, in a directory that may hold other files
and may have been opened again. -/
inductive Flushed : List Write → Tables → Prop where
  | nothing : Flushed [] .fresh
  | flush {ws : List Write} {t t' : Tables} {metadata : SSTableMeta} (buffer : List Write) (path : Path)
      (nowMs : Nat) (h : Flushed ws t) (hne : buffer ≠ []) (hfree : ¬t.Listed path) (hclock : Newer t nowMs)
      (hrun : t.recordFlushed path (bufferOf buffer).sortedItems nowMs = some (t', metadata)) :
      Flushed (ws ++ buffer) t'
  | compact {ws ws' : List Write} {t : Tables} {s : Situation} (storagePath : Path) (timeNs nowMs : Nat)
      (h : Flushed ws t) (hfree : ¬t.Listed (compactedPath storagePath timeNs))
      (hrun : Relation.ReflTransGen (RunStep storagePath timeNs nowMs) (start t) s) (hdone : s.pc = .returned)
      (hwithout : Flushed ws' s.without) : Flushed ws' s.tables
  | leftover {ws : List Write} {t : Tables} (path : Path) (content : Option Bytes) (h : Flushed ws t)
      (hfree : ¬t.Listed path) : Flushed ws (t.setFile path content)
  | reopened {ws : List Write} {t : Tables} (h : Flushed ws t) : Flushed ws t.reload

/-! ## Writes, records and buffers -/

/-- The record of a write answers for its key with what the write stores. -/
theorem recordLayer_record (w : Write) (key : Bytes) :
    LSMStorageEngine.recordLayer w.record key = if w.key = key then some w.stored else none := by
  cases w <;> rfl

/-- A buffer holds what the records of its writes say. -/
theorem get?_bufferOf (ws : List Write) :
    (bufferOf ws).get? = LSMStorageEngine.logLayer (ws.map Write.record) := by
  -- the last write goes over the others
  induction ws using List.reverseRecOn with
  | nil => rfl
  | append_singleton ws w ih =>
    have hset : bufferOf (ws ++ [w]) = (bufferOf ws).set w.key w.stored := by
      rw [bufferOf, List.foldl_append]
      rfl
    have hrecord : LSMStorageEngine.recordLayer w.record = MemTable.entry w.key w.stored :=
      funext (recordLayer_record w)
    rw [hset, MemTable.get?_set_eq, ih, List.map_append, LSMStorageEngine.logLayer_append, List.map_singleton,
      LSMStorageEngine.logLayer_singleton, hrecord]

theorem sortedItems_bufferOf_ne_nil {ws : List Write} (hne : ws ≠ []) : (bufferOf ws).sortedItems ≠ [] := by
  intro hnil
  obtain ⟨ws', w, rfl⟩ := (List.eq_nil_or_concat ws).resolve_left hne
  have hnone := (Dict.entries_eq_nil_iff _).mp ((Dict.sortedItems_eq_nil_iff _).mp hnil) w.key
  rw [List.concat_eq_append, bufferOf, List.foldl_append] at hnone
  change ((bufferOf ws').set w.key w.stored).get? w.key = none at hnone
  rw [Dict.get?_set, if_pos rfl] at hnone
  cases hnone

/-- What a log of writes says about a key is the last write of it. -/
theorem logLayer_record (h : List Write) (key : Bytes) :
    LSMStorageEngine.logLayer (h.map Write.record) key =
      (h.reverse.find? fun w => w.key = key).map Write.stored := by
  rw [LSMStorageEngine.logLayer, ← List.map_reverse, List.map_map, resolve, List.findSome?_map]
  induction h.reverse with
  | nil => rfl
  | cons w ws ih =>
    have hw : (LSMStorageEngine.recordLayer w.record) key = if w.key = key then some w.stored else none :=
      recordLayer_record w key
    rw [List.findSome?_cons, List.find?_cons]
    simp only [Function.comp_apply, hw]
    by_cases hkey : w.key = key
    · simp only [hkey, if_true, decide_true, Option.map_some]
    · simp only [hkey, if_false, decide_false]
      exact ih

/-- With no value that reads as a deletion, the live value is that of the last write. -/
theorem lastWrite_eq {h : List Write} (hvalues : ∀ key value, .put key value ∈ h → value ≠ tombstone)
    (key : Bytes) :
    lastWrite h key = match Reading.live (LSMStorageEngine.logLayer (h.map Write.record) key) with
      | none => .error (.keyError key)
      | some value => .ok value := by
  rw [lastWrite, logLayer_record]
  cases hfind : h.reverse.find? fun w => w.key = key with
  | none => rfl
  | some w =>
    have hmem : w ∈ h := List.mem_reverse.mp (List.mem_of_find?_eq_some hfind)
    cases w with
    | put key' value =>
      have hvalue : value ≠ tombstone := hvalues key' value hmem
      rw [Option.map_some, Write.stored, Reading.live_some, if_pos hvalue]
    | delete key' =>
      have hdeleted : ¬tombstone ≠ tombstone := not_not.mpr rfl
      rw [Option.map_some, Write.stored, Reading.live_some, if_neg hdeleted]

/-! ## The saved manifest -/

/-- The manifest file says what the manifest in memory says. -/
def InSync (t : Tables) : Prop := Manifest.load t.manifest.saved = t.manifest

/-- A run of `compact` that has changed the manifest in memory and not saved it. -/
def Unsaved : CompactPc → Prop
  | .added _ | .removed _ _ => True
  | _ => False

/-- A flush leaves the manifest file up to date. -/
theorem inSync_recordFlushed {t t' : Tables} {path : Path} {items : List (Bytes × Bytes)} {nowMs : Nat}
    {metadata : SSTableMeta} (hasc : Ascending items) (hne : items ≠ [])
    (h : t.recordFlushed path items nowMs = some (t', metadata)) : InSync t' := by
  rcases Tables.recordFlushed_eq hasc hne path nowMs with hnone | ⟨m, -, -, hsome⟩
  · rw [hnone] at h
    cases h
  · obtain ⟨rfl, -⟩ := Prod.mk.inj (Option.some.inj (h.symm.trans (hsome t).1))
    rfl

/-- The next step of a run leaves the manifest file as it was, or behind by the change it
made, or saves. -/
theorem inSync_next (storagePath : Path) (timeNs nowMs : Nat) {t : Tables} {pc : CompactPc}
    (h : InSync t ∨ Unsaved pc) :
    InSync (next storagePath timeNs nowMs t pc).1 ∨ Unsaved (next storagePath timeNs nowMs t pc).2 := by
  cases pc with
  | described level0 metadata => exact .inr trivial
  | added level0 => exact .inl rfl
  | removed level0 rest => exact .inl rfl
  | removing level0 rest =>
    cases rest with
    | nil => exact .inl (h.resolve_right not_false)
    | cons info rest => exact .inr trivial
  | unlinking rest =>
    cases rest with
    | nil => exact .inl (h.resolve_right not_false)
    | cons info rest => exact .inl (h.resolve_right not_false)
  | idle =>
    rw [next]
    split <;> exact .inl (h.resolve_right not_false)
  | merging level0 =>
    have hsync : InSync t := h.resolve_right not_false
    rw [next]
    split
    · exact .inl hsync
    · split <;> next heq => exact .inl (by
        have hmanifest := congrArg (fun r => r.1.manifest) heq
        rw [InSync, ← hmanifest]
        exact hsync)
  | written level0 newSstable =>
    rw [next]
    split <;> exact .inl (h.resolve_right not_false)
  | returned => exact h
  | raised err => exact h

/-- So does a compaction, but for the moments between a change in memory and its save. -/
theorem inSync_run {storagePath : Path} {timeNs nowMs : Nat} {t : Tables} {s : Situation} (h : InSync t)
    (hrun : Relation.ReflTransGen (RunStep storagePath timeNs nowMs) (start t) s) :
    InSync s.tables ∨ Unsaved s.pc := by
  induction hrun with
  | refl => exact .inl h
  | tail _ hstep ih =>
    cases hstep with
    | compact _ => exact inSync_next storagePath timeNs nowMs ih
    | flush path items flushMs t' without' metadata metadata' hbetween hname hclock hitems hflush hwithout =>
      -- a flush saves what the run has changed, too
      exact .inl (inSync_recordFlushed hitems.1 hitems.2 hflush)

/-! ## What flushed tables answer -/

/-- What holds of tables that were made of flushed buffers. -/
structure FlushedSpec (ws : List Write) (t : Tables) : Prop where
  readable : t.Readable
  distinct : ((readOrder t.manifest).map SSTableMeta.path).Nodup
  sync : InSync t
  layer : t.layer = LSMStorageEngine.logLayer (ws.map Write.record)

/-- A flush of one more buffer: the tables hold the writes up to its end. -/
theorem FlushedSpec.flush {ws buffer : List Write} {t t' : Tables} {path : Path} {nowMs : Nat}
    {metadata : SSTableMeta} (h : FlushedSpec ws t) (hne : buffer ≠ []) (hfree : ¬t.Listed path)
    (hclock : Newer t nowMs)
    (hrun : t.recordFlushed path (bufferOf buffer).sortedItems nowMs = some (t', metadata)) :
    FlushedSpec (ws ++ buffer) t' := by
  have hasc := (bufferOf buffer).sortedItems_ascending
  have hitems := sortedItems_bufferOf_ne_nil hne
  have hsync := inSync_recordFlushed hasc hitems hrun
  rcases Tables.recordFlushed_eq hasc hitems path nowMs with hnone | ⟨m, rfl, hcreated, hsome⟩
  · rw [hnone] at hrun
    cases hrun
  · obtain ⟨hrecorded, hlists⟩ := hsome t
    obtain ⟨rfl, -⟩ := Prod.mk.inj (Option.some.inj (hrun.symm.trans hrecorded))
    have hnew := Tables.oneNew_addSstable h.readable h.distinct hfree hcreated ⟨_, hlists⟩
    refine ⟨hnew.readable, hnew.distinct, hsync, ?_⟩
    have hstamp : ∀ m' ∈ t.manifest.getLevelSstables 0, m'.stamp ≤ m.stamp := by
      intro m' hm'
      refine stamp_le_of_lt ?_
      rw [hcreated]
      exact hclock m' (mem_readOrder.mpr ⟨0, hm'⟩)
    have hbuffer : assoc (bufferOf buffer).sortedItems = (bufferOf buffer).get? :=
      funext (bufferOf buffer).assoc_sortedItems
    rw [Tables.layer_addSstable hlists hstamp, Tables.layer_setFile hfree, h.layer, hbuffer, get?_bufferOf,
      List.map_append, LSMStorageEngine.logLayer_append]

/-- A compaction changes none of their answers. -/
theorem FlushedSpec.compact {ws ws' : List Write} {t : Tables} {s : Situation} {storagePath : Path}
    {timeNs nowMs : Nat} (h : FlushedSpec ws t) (hfree : ¬t.Listed (compactedPath storagePath timeNs))
    (hrun : Relation.ReflTransGen (RunStep storagePath timeNs nowMs) (start t) s) (hdone : s.pc = .returned)
    (hwithout : FlushedSpec ws' s.without) : FlushedSpec ws' s.tables := by
  have hinv := runInv_run (runInv_start h.readable hfree h.distinct) hrun
  obtain ⟨hreadable, hlayer⟩ := returned_spec hinv hdone
  have hsync : InSync s.tables := by
    have hsaved := inSync_run h.sync hrun
    rw [hdone] at hsaved
    exact hsaved.resolve_right not_false
  exact ⟨hreadable, (returned_oneNew hinv hdone).distinct, hsync, hlayer.trans hwithout.layer⟩

/-- **Flushed tables answer with the last write of each key**, and a restart finds them. -/
theorem Flushed.spec {ws : List Write} {t : Tables} (h : Flushed ws t) : FlushedSpec ws t := by
  induction h with
  | nothing => exact ⟨Tables.readable_fresh, List.nodup_nil, rfl, rfl⟩
  | flush buffer path nowMs _ hne hfree hclock hrun ih => exact ih.flush hne hfree hclock hrun
  | compact storagePath timeNs nowMs _ hfree hrun hdone _ ih ihwithout =>
    exact ih.compact hfree hrun hdone ihwithout
  | leftover path content _ hfree ih =>
    exact ⟨Tables.readable_setFile ih.readable hfree content, ih.distinct, ih.sync,
      (Tables.layer_setFile hfree content).trans ih.layer⟩
  | @reopened ws t _ ih =>
    have hsame : t.reload = t := by
      rw [Tables.reload, ih.sync]
    rw [hsame]
    exact ih

/-! ## The replay over them -/

/-- A log that starts at `i` and tables that hold the first `j` writes have the writes in
between in common. -/
theorem exists_overlap {α : Type} (l : List α) {i j : Nat} (hij : i ≤ j) :
    ∃ before overlap after, l = before ++ overlap ++ after ∧ l.take j = before ++ overlap ∧
      l.drop i = overlap ++ after := by
  refine ⟨l.take i, (l.take j).drop i, l.drop j, ?_, ?_, ?_⟩
  · have htake : l.take i = (l.take j).take i := by
      rw [List.take_take, Nat.min_eq_left hij]
    rw [htake, List.take_append_drop, List.take_append_drop]
  · have := List.take_append_drop i (l.take j)
    rwa [List.take_take, Nat.min_eq_left hij, eq_comm] at this
  · rcases Nat.le_total j l.length with hle | hle
    · have hlen : i ≤ (l.take j).length := by
        rw [List.length_take]
        omega
      rw [← List.drop_append_of_le_length hlen, List.take_append_drop]
    · rw [List.drop_eq_nil_of_le hle, List.append_nil, List.take_of_length_le hle]

/-- Replaying the part in common changes nothing: on top of it there is the whole history. -/
theorem logLayer_overlap (before overlap after : List LogRecord) :
    above (LSMStorageEngine.logLayer (overlap ++ after)) (LSMStorageEngine.logLayer (before ++ overlap)) =
      LSMStorageEngine.logLayer (before ++ overlap ++ after) := by
  rw [LSMStorageEngine.logLayer_append overlap, LSMStorageEngine.logLayer_append before, above_assoc,
    above_above_self, ← LSMStorageEngine.logLayer_append before, ← LSMStorageEngine.logLayer_append]

namespace LSMStorageEngine

/-- **Replaying flushed records is harmless**: over tables that hold the first `j` writes
of a history, an engine that finds the log from the `i`-th of them on starts, and answers
every key with the last write of it. -/
theorem replay_harmless [Zlib] (h : List Write) (i j : Nat) (hij : i ≤ j)
    (hvalues : ∀ key value, .put key value ∈ h → value ≠ tombstone) {t : Tables} (htables : Flushed (h.take j) t)
    (hfits : ∀ w ∈ h.drop i, w.record.Fits) (disk : NamedFile)
    (hdisk : disk.content.getD [] = encodeLog ((h.drop i).map Write.record)) (storagePath : Path)
    (memtableMaxSize : Int) :
    ∃ e, init storagePath memtableMaxSize disk t = .ok e ∧ ∀ key, e.get key = lastWrite h key := by
  have hspec := htables.spec
  have hreload : t.reload = t := by
    rw [Tables.reload, hspec.sync]
  have hrecords : ∀ r ∈ (h.drop i).map Write.record, r.Fits := List.forall_mem_map.mpr hfits
  refine ⟨_, init_of_log storagePath memtableMaxSize disk t hdisk hrecords, ?_⟩
  intro key
  have hview : Reading.view (replayed memtableMaxSize ((h.drop i).map Write.record)) t =
      logLayer (h.map Write.record) := by
    obtain ⟨before, overlap, after, hall, htake, hdrop⟩ := exists_overlap h hij
    rw [Reading.view, layer_replayed, hspec.layer, htake, hdrop, hall]
    simp only [List.map_append]
    exact logLayer_overlap ..
  show Reading.get (replayed memtableMaxSize ((h.drop i).map Write.record)) t.reload key = lastWrite h key
  rw [hreload, Reading.get_eq hspec.readable, hview]
  exact (lastWrite_eq hvalues key).symm

/-- Three writes, the first two of them flushed in one table, all of them still in the log. -/
def threeWrites : List Write := [.put [97] [1], .delete [97], .put [98] [2]]

theorem flushed_threeWrites :
    Flushed (threeWrites.take 2)
      (Tables.fresh.flushed (sstablePath "db" 1) (bufferOf (threeWrites.take 2)).sortedItems 1) := by
  have hsome : (Tables.fresh.recordFlushed (sstablePath "db" 1)
      (bufferOf (threeWrites.take 2)).sortedItems 1).isSome := by decide +kernel
  obtain ⟨⟨t', metadata⟩, hrun⟩ := Option.isSome_iff_exists.mp hsome
  rw [Tables.flushed, hrun]
  exact .flush (threeWrites.take 2) (sstablePath "db" 1) 1 .nothing (by decide) (by decide +kernel)
    (by decide +kernel) hrun

theorem values_threeWrites : ∀ key value, .put key value ∈ threeWrites → value ≠ tombstone := by
  intro key value hmem
  simp only [threeWrites, List.mem_cons, Write.put.injEq, reduceCtorEq, List.not_mem_nil] at hmem
  rcases hmem with ⟨-, rfl⟩ | hmem | ⟨-, rfl⟩ | hmem
  · decide
  · cases hmem
  · decide
  · cases hmem

theorem replay_harmless_threeWrites :
    ∃ e, init "db" 100 (NamedFile.absent.replace (encodeLog (threeWrites.map Write.record)))
        (Tables.fresh.flushed (sstablePath "db" 1) (bufferOf (threeWrites.take 2)).sortedItems 1) = .ok e ∧
      ∀ key, e.get key = lastWrite threeWrites key :=
  replay_harmless threeWrites 0 2 (by decide) values_threeWrites flushed_threeWrites
    (by decide +kernel) _ (by decide +kernel) "db" 100

end LSMStorageEngine

end Logvine
