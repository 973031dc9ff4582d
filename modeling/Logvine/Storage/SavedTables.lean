import Logvine.Storage.DamagedTables
import Logvine.Storage.Threads

/-!
# What the saved manifest names

Threads on one engine with a compaction beside the flush under way, exceptions at any
step, and crashes after any step. Memory may be ahead of the manifest file after an
exception; still no entry of the file is without its table.

- `Workers.act`: an action of some thread, a step of the compaction, an exception, a part
  of a file, a restart;
- `TablesInv`: the tables that memory and file list are complete, and those under way or
  about to be unlinked are listed nowhere;
- `inv_act`: every action keeps it;
- `saved_never_dangles`: so every path in the manifest file is that of a complete table.

The table file is written in full before `add_sstable` (`engine.py`, 306–309;
`compaction.py`, 131–136), and the merged files are unlinked after the last `remove_sstable`
(138–142). An exception between the two halves of `add_sstable` leaves an entry in memory
that the next saving writes out (`manifest.py`, 72–75); so memory is part of the invariant
as well.
-/

namespace Logvine

open Runs SSTableManager

/-! ## Listed paths -/

namespace Manifest

/-- Some entry has this path. -/
def ListsPath (m : Manifest) (path : Path) : Prop :=
  ∃ level, ∃ entry ∈ m.getLevelSstables level, entry.path = path

/-- No two entries have the same path. -/
structure DistinctPaths (m : Manifest) : Prop where
  within : ∀ level, ((m.getLevelSstables level).map SSTableMeta.path).Nodup
  across : ∀ level level' entry entry', entry ∈ m.getLevelSstables level →
    entry' ∈ m.getLevelSstables level' → entry.path = entry'.path → level = level'

variable {m : Manifest}

theorem listsPath_addEntry {level : Nat} {metadata : SSTableMeta} {path : Path} :
    (m.addEntry level metadata).ListsPath path ↔ path = metadata.path ∨ m.ListsPath path := by
  constructor
  · rintro ⟨level', entry, hentry, rfl⟩
    rw [getLevelSstables_addEntry] at hentry
    split at hentry
    · rcases List.mem_append.mp hentry with hold | hnew
      · exact .inr ⟨level, entry, hold, rfl⟩
      · exact .inl (congrArg SSTableMeta.path (List.mem_singleton.mp hnew))
    · exact .inr ⟨level', entry, hentry, rfl⟩
  · rintro (rfl | ⟨level', entry, hentry, rfl⟩)
    · refine ⟨level, metadata, ?_, rfl⟩
      rw [getLevelSstables_addEntry, if_pos rfl]
      exact List.mem_append_right _ (List.mem_singleton_self _)
    · refine ⟨level', entry, ?_, rfl⟩
      rw [getLevelSstables_addEntry]
      split
      · next heq => exact List.mem_append_left _ (heq ▸ hentry)
      · exact hentry

theorem mem_addEntry {level level' : Nat} {metadata entry : SSTableMeta}
    (h : entry ∈ m.getLevelSstables level') : entry ∈ (m.addEntry level metadata).getLevelSstables level' := by
  rw [getLevelSstables_addEntry]
  split
  · next heq => exact List.mem_append_left _ (heq ▸ h)
  · exact h

theorem DistinctPaths.addEntry (h : m.DistinctPaths) {metadata : SSTableMeta}
    (hnew : ¬m.ListsPath metadata.path) (level : Nat) : (m.addEntry level metadata).DistinctPaths := by
  have hsplit : ∀ level' entry, entry ∈ (m.addEntry level metadata).getLevelSstables level' →
      entry ∈ m.getLevelSstables level' ∨ entry = metadata ∧ level' = level := by
    intro level' entry hentry
    rw [getLevelSstables_addEntry] at hentry
    split at hentry
    · next heq =>
      rcases List.mem_append.mp hentry with hold | hadded
      · exact .inl (heq ▸ hold)
      · exact .inr ⟨List.mem_singleton.mp hadded, heq.symm⟩
    · exact .inl hentry
  constructor
  · intro level'
    rw [getLevelSstables_addEntry]
    split
    · rw [List.map_append, List.nodup_append]
      refine ⟨h.within level, List.nodup_singleton _, ?_⟩
      intro path hpath path' hpath' heq
      obtain ⟨entry, hentry, rfl⟩ := List.mem_map.mp hpath
      rw [List.map_singleton, List.mem_singleton] at hpath'
      exact hnew ⟨level, entry, hentry, heq.trans hpath'⟩
    · exact h.within level'
  · intro level₁ level₂ entry entry' hentry hentry' heq
    rcases hsplit level₁ entry hentry with hold | ⟨rfl, rfl⟩
    · rcases hsplit level₂ entry' hentry' with hold' | ⟨rfl, rfl⟩
      · exact h.across level₁ level₂ entry entry' hold hold' heq
      · exact absurd ⟨level₁, entry, hold, heq⟩ hnew
    · rcases hsplit level₂ entry' hentry' with hold' | ⟨-, rfl⟩
      · exact absurd ⟨level₂, entry', hold', heq.symm⟩ hnew
      · rfl

theorem mem_of_mem_removeEntry {level level' : Nat} {path : Path} {entry : SSTableMeta}
    (h : entry ∈ (m.removeEntry level path).getLevelSstables level') :
    entry ∈ m.getLevelSstables level' ∧ (level' = level → entry.path ≠ path) := by
  rw [getLevelSstables_removeEntry] at h
  split at h
  · next heq =>
    obtain ⟨hmem, hpath⟩ := List.mem_filter.mp h
    exact ⟨heq ▸ hmem, fun _ => of_decide_eq_true hpath⟩
  · next hne => exact ⟨h, fun heq => absurd heq.symm hne⟩

theorem mem_removeEntry {level : Nat} {path : Path} {entry : SSTableMeta}
    (h : entry ∈ m.getLevelSstables level) (hpath : entry.path ≠ path) :
    entry ∈ (m.removeEntry level path).getLevelSstables level := by
  rw [getLevelSstables_removeEntry, if_pos rfl]
  exact List.mem_filter.mpr ⟨h, decide_eq_true hpath⟩

theorem listsPath_of_removeEntry {level : Nat} {path path' : Path}
    (h : (m.removeEntry level path).ListsPath path') : m.ListsPath path' := by
  obtain ⟨level', entry, hentry, heq⟩ := h
  exact ⟨level', entry, (mem_of_mem_removeEntry hentry).1, heq⟩

theorem DistinctPaths.removeEntry (h : m.DistinctPaths) (level : Nat) (path : Path) :
    (m.removeEntry level path).DistinctPaths := by
  constructor
  · intro level'
    rw [getLevelSstables_removeEntry]
    split
    · exact (List.filter_sublist.map SSTableMeta.path).nodup (h.within level)
    · exact h.within level'
  · intro level₁ level₂ entry entry' hentry hentry' heq
    exact h.across level₁ level₂ entry entry' (mem_of_mem_removeEntry hentry).1
      (mem_of_mem_removeEntry hentry').1 heq

/-- With distinct paths an entry removed by its path is gone from every level. -/
theorem DistinctPaths.not_listsPath_removeEntry (h : m.DistinctPaths) {level : Nat} {entry : SSTableMeta}
    (hentry : entry ∈ m.getLevelSstables level) :
    ¬(m.removeEntry level entry.path).ListsPath entry.path := by
  rintro ⟨level', entry', hentry', heq⟩
  obtain ⟨hmem, hne⟩ := mem_of_mem_removeEntry hentry'
  exact hne (h.across level' level entry' entry hmem hentry heq) heq

end Manifest

/-! ## Tables under way -/

/-- The file is there and is a whole table. -/
def WholeTable (files : Files) (path : Path) : Prop := ∃ pairs, SSTable.Holds files path pairs

namespace LSMStorageEngine

/-- The table a flush has written and not listed yet. -/
def FlushPc.underWay : FlushPc → List Path
  | .written sstable _ => [sstable.path]
  | .described metadata _ => [metadata.path]
  | _ => []

/-- What a flush is going to write is sorted. -/
def FlushPc.Sorted : FlushPc → Prop
  | .collected items | .writing items _ => Ascending items
  | _ => True

end LSMStorageEngine

namespace CompactionManager.CompactPc

/-- The table a compaction has written and not listed yet. -/
def underWay : CompactPc → List Path
  | .written _ newSstable => [newSstable.path]
  | .described _ metadata => [metadata.path]
  | _ => []

/-- The tables it merges, as long as it may unlink them. -/
def inputs : CompactPc → List Path
  | .merging level0 | .written level0 _ | .described level0 _ | .added level0 | .removing level0 _
  | .removed level0 _ => level0.map SSTableMeta.path
  | .unlinking rest => rest.map SSTableMeta.path
  | _ => []

end CompactionManager.CompactPc

open CompactionManager LSMStorageEngine

/-- What a restart would find. -/
def Tables.onDisk (t : Tables) : Manifest := .load t.manifest.saved

/-- Listed neither in memory nor in the file. -/
def Tables.Unlisted (t : Tables) (path : Path) : Prop :=
  ¬t.manifest.ListsPath path ∧ ¬t.onDisk.ListsPath path

/-- No table that is listed, under way or merged has this path. -/
structure Unused (t : Tables) (flush : FlushPc) (compaction : CompactPc) (path : Path) : Prop where
  unlisted : t.Unlisted path
  notFlushed : path ∉ flush.underWay
  notCompacted : path ∉ compaction.underWay
  notInput : path ∉ compaction.inputs

/-- All that is listed is complete, under distinct paths. -/
structure AllWhole (files : Files) (m : Manifest) : Prop where
  complete : ∀ path, m.ListsPath path → WholeTable files path
  distinct : m.DistinctPaths

/-- Where the tables a compaction merges are listed. -/
def InputsInv (t : Tables) : CompactPc → Prop
  | .merging level0 | .written level0 _ | .described level0 _ | .added level0 =>
    (level0.map SSTableMeta.path).Nodup ∧ ∀ m ∈ level0, m ∈ t.manifest.getLevelSstables 0
  | .removing level0 rest => (level0.map SSTableMeta.path).Nodup ∧ ∃ done, level0 = done ++ rest ∧
      (∀ m ∈ rest, m ∈ t.manifest.getLevelSstables 0) ∧ ∀ m ∈ done, t.Unlisted m.path
  | .removed level0 rest => (level0.map SSTableMeta.path).Nodup ∧ ∃ done, level0 = done ++ rest ∧
      (∀ m ∈ rest, m ∈ t.manifest.getLevelSstables 0) ∧ ∀ m ∈ done, ¬t.manifest.ListsPath m.path
  | .unlinking rest => ∀ m ∈ rest, t.Unlisted m.path
  | _ => True

/-- What holds of the tables at every point. -/
structure TablesInv (t : Tables) (flush : FlushPc) (compaction : CompactPc) : Prop where
  memory : AllWhole t.files t.manifest
  disk : AllWhole t.files t.onDisk
  sorted : flush.Sorted
  flushed : ∀ path ∈ flush.underWay, WholeTable t.files path ∧ t.Unlisted path ∧
    path ∉ compaction.underWay ∧ path ∉ compaction.inputs
  compacted : ∀ path ∈ compaction.underWay, WholeTable t.files path ∧ t.Unlisted path ∧
    path ∉ compaction.inputs
  inputs : InputsInv t compaction

section Keep

variable {t : Tables} {flush flush' : FlushPc} {compaction compaction' : CompactPc}

theorem WholeTable.update {files : Files} {path path' : Path} (h : WholeTable files path) (hne : path ≠ path')
    (content : Option Bytes) : WholeTable (Function.update files path' content) path := by
  obtain ⟨pairs, hholds⟩ := h
  exact ⟨pairs, (Function.update_of_ne hne ..).trans hholds.file, hholds.ascending, hholds.fits⟩

theorem AllWhole.update {files : Files} {m : Manifest} {path : Path} (h : AllWhole files m)
    (hunlisted : ¬m.ListsPath path) (content : Option Bytes) :
    AllWhole (Function.update files path content) m := by
  refine ⟨?_, h.distinct⟩
  intro path' hlisted
  refine (h.complete path' hlisted).update ?_ content
  rintro rfl
  exact hunlisted hlisted

/-- Overwriting or unlinking a file that is neither listed nor under way. -/
theorem TablesInv.setFile (h : TablesInv t flush compaction) {path : Path} (hunlisted : t.Unlisted path)
    (hflush : path ∉ flush.underWay) (hcompaction : path ∉ compaction.underWay) (content : Option Bytes) :
    TablesInv (t.setFile path content) flush compaction := by
  refine ⟨h.memory.update hunlisted.1 content, h.disk.update hunlisted.2 content, h.sorted, ?_, ?_, h.inputs⟩
  · intro path' hpath'
    obtain ⟨hwhole, hrest⟩ := h.flushed path' hpath'
    exact ⟨hwhole.update (ne_of_mem_of_not_mem hpath' hflush) content, hrest⟩
  · intro path' hpath'
    obtain ⟨hwhole, hrest⟩ := h.compacted path' hpath'
    exact ⟨hwhole.update (ne_of_mem_of_not_mem hpath' hcompaction) content, hrest⟩

/-- The next point of a flush that has nothing new under way. -/
theorem TablesInv.flushPc (h : TablesInv t flush compaction) (hsorted : flush'.Sorted)
    (hsub : ∀ path ∈ flush'.underWay, path ∈ flush.underWay) : TablesInv t flush' compaction :=
  ⟨h.memory, h.disk, hsorted, fun path hpath => h.flushed path (hsub path hpath), h.compacted, h.inputs⟩

/-- The next point of a compaction that has nothing new under way. -/
theorem TablesInv.compactPc (h : TablesInv t flush compaction)
    (hsub : ∀ path ∈ compaction'.underWay, path ∈ compaction.underWay)
    (hinputs : ∀ path ∈ compaction'.inputs, path ∈ compaction.inputs ∨ t.manifest.ListsPath path)
    (hinv : InputsInv t compaction') : TablesInv t flush compaction' := by
  refine ⟨h.memory, h.disk, h.sorted, ?_, ?_, hinv⟩
  · intro path hpath
    obtain ⟨hwhole, hunlisted, hnot, hnotInput⟩ := h.flushed path hpath
    refine ⟨hwhole, hunlisted, fun hmem => hnot (hsub path hmem), ?_⟩
    intro hmem
    exact (hinputs path hmem).elim hnotInput hunlisted.1
  · intro path hpath
    obtain ⟨hwhole, hunlisted, hnotInput⟩ := h.compacted path (hsub path hpath)
    refine ⟨hwhole, hunlisted, ?_⟩
    intro hmem
    exact (hinputs path hmem).elim hnotInput hunlisted.1

/-- A flush has written its table under an unused name. -/
theorem TablesInv.flushWritten (h : TablesInv t flush compaction) {path : Path} {pairs : List (Bytes × Bytes)}
    (hunused : Unused t flush compaction path)
    (hholds : SSTable.Holds (t.setFile path (some (SSTable.fileBytes pairs))).files path pairs)
    (hunderWay : flush'.underWay = [path]) (hsorted : flush'.Sorted) :
    TablesInv (t.setFile path (some (SSTable.fileBytes pairs))) flush' compaction := by
  have hset := h.setFile hunused.unlisted hunused.notFlushed hunused.notCompacted
    (some (SSTable.fileBytes pairs))
  refine ⟨hset.memory, hset.disk, hsorted, ?_, hset.compacted, hset.inputs⟩
  intro path' hpath'
  obtain rfl : path' = path := by simpa [hunderWay] using hpath'
  exact ⟨⟨pairs, hholds⟩, hunused.unlisted, hunused.notCompacted, hunused.notInput⟩

/-- So has a compaction. -/
theorem TablesInv.compactWritten (h : TablesInv t flush compaction) {path : Path}
    {pairs : List (Bytes × Bytes)} (hunused : Unused t flush compaction path)
    (hholds : SSTable.Holds (t.setFile path (some (SSTable.fileBytes pairs))).files path pairs)
    (hunderWay : compaction'.underWay = [path]) (hinputs : compaction'.inputs = compaction.inputs)
    (hinv : InputsInv t compaction') :
    TablesInv (t.setFile path (some (SSTable.fileBytes pairs))) flush compaction' := by
  have hset := h.setFile hunused.unlisted hunused.notFlushed hunused.notCompacted
    (some (SSTable.fileBytes pairs))
  refine ⟨hset.memory, hset.disk, hset.sorted, ?_, ?_, hinv⟩
  · intro path' hpath'
    obtain ⟨hwhole, hunlisted, -, hnotInput⟩ := hset.flushed path' hpath'
    refine ⟨hwhole, hunlisted, ?_, hinputs ▸ hnotInput⟩
    rw [hunderWay, List.mem_singleton]
    rintro rfl
    exact hunused.notFlushed hpath'
  · intro path' hpath'
    obtain rfl : path' = path := by simpa [hunderWay] using hpath'
    exact ⟨⟨pairs, hholds⟩, hunused.unlisted, hinputs ▸ hunused.notInput⟩

/-- A complete table that nothing else uses is listed in memory. -/
theorem TablesInv.addEntry (h : TablesInv t flush compaction) {metadata : SSTableMeta}
    (hwhole : WholeTable t.files metadata.path) (hunused : Unused t flush compaction metadata.path) (level : Nat) :
    TablesInv { t with manifest := t.manifest.addEntry level metadata } flush compaction := by
  have hother : ∀ path, path ≠ metadata.path → t.Unlisted path →
      Tables.Unlisted { t with manifest := t.manifest.addEntry level metadata } path := by
    intro path hne hunlisted
    refine ⟨?_, hunlisted.2⟩
    intro hlisted
    exact (Manifest.listsPath_addEntry.mp hlisted).elim hne hunlisted.1
  refine ⟨⟨?_, h.memory.distinct.addEntry hunused.unlisted.1 level⟩, h.disk, h.sorted, ?_, ?_, ?_⟩
  · intro path hlisted
    rcases Manifest.listsPath_addEntry.mp hlisted with rfl | hlisted
    · exact hwhole
    · exact h.memory.complete path hlisted
  · intro path hpath
    obtain ⟨hfile, hunlisted, hrest⟩ := h.flushed path hpath
    exact ⟨hfile, hother path (ne_of_mem_of_not_mem hpath hunused.notFlushed) hunlisted, hrest⟩
  · intro path hpath
    obtain ⟨hfile, hunlisted, hrest⟩ := h.compacted path hpath
    exact ⟨hfile, hother path (ne_of_mem_of_not_mem hpath hunused.notCompacted) hunlisted, hrest⟩
  · have hinputs := h.inputs
    have hnot := hunused.notInput
    cases compaction with
    | merging level0 | written level0 newSstable | described level0 metadata' | added level0 =>
      exact ⟨hinputs.1, fun m hm => Manifest.mem_addEntry (hinputs.2 m hm)⟩
    | removing level0 rest =>
      obtain ⟨hnodup, done, rfl, hrest, hdone⟩ := hinputs
      refine ⟨hnodup, done, rfl, fun m hm => Manifest.mem_addEntry (hrest m hm), ?_⟩
      intro m hm
      exact hother m.path (fun heq => hnot (heq ▸ List.mem_map_of_mem (List.mem_append_left _ hm))) (hdone m hm)
    | removed level0 rest =>
      obtain ⟨hnodup, done, rfl, hrest, hdone⟩ := hinputs
      refine ⟨hnodup, done, rfl, fun m hm => Manifest.mem_addEntry (hrest m hm), ?_⟩
      intro m hm hlisted
      rcases Manifest.listsPath_addEntry.mp hlisted with heq | hlisted
      · exact hnot (heq ▸ List.mem_map_of_mem (List.mem_append_left _ hm))
      · exact hdone m hm hlisted
    | unlinking rest =>
      intro m hm
      exact hother m.path (fun heq => hnot (heq ▸ List.mem_map_of_mem hm)) (hinputs m hm)
    | idle | returned | raised => trivial

/-- Memory is saved. -/
theorem TablesInv.save (h : TablesInv t flush compaction) : TablesInv t.save flush compaction := by
  have hunlisted : ∀ path, ¬t.manifest.ListsPath path → t.save.Unlisted path := fun path hnot => ⟨hnot, hnot⟩
  -- the entries are the same, before and after
  have hmemory : AllWhole t.files t.manifest.save :=
    ⟨h.memory.complete, h.memory.distinct.within, h.memory.distinct.across⟩
  refine ⟨hmemory, hmemory, h.sorted, ?_, ?_, ?_⟩
  · intro path hpath
    obtain ⟨hfile, hnot, hrest⟩ := h.flushed path hpath
    exact ⟨hfile, hunlisted path hnot.1, hrest⟩
  · intro path hpath
    obtain ⟨hfile, hnot, hrest⟩ := h.compacted path hpath
    exact ⟨hfile, hunlisted path hnot.1, hrest⟩
  · have hinputs := h.inputs
    cases compaction with
    | merging | written | described | added => exact hinputs
    | removing level0 rest =>
      obtain ⟨hnodup, done, hsplit, hrest, hdone⟩ := hinputs
      exact ⟨hnodup, done, hsplit, hrest, fun m hm => hunlisted m.path (hdone m hm).1⟩
    | removed level0 rest => exact hinputs
    | unlinking rest => exact fun m hm => hunlisted m.path (hinputs m hm).1
    | idle | returned | raised => trivial

/-- The next entry is removed by its path, in memory. -/
theorem TablesInv.removeEntry {level0 rest : List SSTableMeta} {info : SSTableMeta}
    (h : TablesInv t flush (.removing level0 (info :: rest))) :
    TablesInv { t with manifest := t.manifest.removeEntry 0 info.path } flush (.removed level0 rest) := by
  obtain ⟨hnodup, done, rfl, hrest, hdone⟩ := h.inputs
  have hsub : ∀ path, t.Unlisted path →
      Tables.Unlisted { t with manifest := t.manifest.removeEntry 0 info.path } path :=
    fun path hnot => ⟨fun hlisted => hnot.1 (Manifest.listsPath_of_removeEntry hlisted), hnot.2⟩
  refine ⟨⟨?_, h.memory.distinct.removeEntry 0 info.path⟩, h.disk, h.sorted, ?_, List.forall_mem_nil _, hnodup,
    done ++ [info], by rw [List.append_assoc]; rfl, ?_, ?_⟩
  · exact fun path hlisted => h.memory.complete path (Manifest.listsPath_of_removeEntry hlisted)
  · intro path hpath
    obtain ⟨hfile, hunlisted, hnotWay, hnotInput⟩ := h.flushed path hpath
    exact ⟨hfile, hsub path hunlisted, List.not_mem_nil, hnotInput⟩
  · -- the paths of the entries still to be removed are others
    intro m hm
    refine Manifest.mem_removeEntry (hrest m (List.mem_cons_of_mem _ hm)) ?_
    rw [List.map_append, List.map_cons, List.nodup_append, List.nodup_cons] at hnodup
    exact fun heq => hnodup.2.1.1 (heq ▸ List.mem_map_of_mem hm)
  · intro m hm
    rcases List.mem_append.mp hm with hm | hm
    · exact fun hlisted => (hdone m hm).1 (Manifest.listsPath_of_removeEntry hlisted)
    · rw [List.mem_singleton.mp hm]
      exact h.memory.distinct.not_listsPath_removeEntry (hrest info List.mem_cons_self)

/-- After a crash memory is what the file says, and nothing is under way. -/
theorem TablesInv.reload (h : TablesInv t flush compaction) : TablesInv t.reload .idle .idle := by
  have hdisk : t.reload.onDisk = t.onDisk := by
    show Manifest.load (Manifest.load t.manifest.saved).saved = Manifest.load t.manifest.saved
    cases t.manifest.saved <;> rfl
  exact ⟨h.disk, hdisk ▸ h.disk, trivial, List.forall_mem_nil _, (List.forall_mem_nil _), trivial⟩

end Keep

/-! ## The steps of a flush and of a compaction -/

theorem path_buildMetadata {t : Tables} {sstable : SSTable} {level nowMs : Nat} {metadata : SSTableMeta}
    (h : t.buildMetadata sstable level nowMs = .ok metadata) : metadata.path = sstable.path := by
  rw [Tables.buildMetadata, buildMetadata] at h
  split at h
  · cases h
  · cases h
    rfl

/-- The file a flush is about to write has an unused name. -/
def FlushNameOk (storagePath : Path) (t : Tables) (compaction : CompactPc) (nowMs : Nat) : FlushPc → Prop
  | .writing items walOffset => Unused t (.writing items walOffset) compaction (sstablePath storagePath nowMs)
  | _ => True

/-- So has the file a compaction is about to write. -/
def CompactNameOk (storagePath : Path) (t : Tables) (flush : FlushPc) (timeNs : Nat) : CompactPc → Prop
  | .merging level0 => Unused t flush (.merging level0) (compactedPath storagePath timeNs)
  | _ => True

/-- Every step of a flush keeps what holds of the tables. -/
theorem inv_flushNext {L : Type} [Log L] {e : LSMStorageEngine L} {pc : FlushPc} {compaction : CompactPc}
    (h : TablesInv e.tables pc compaction) {nowMs : Nat}
    (hname : FlushNameOk e.storagePath e.tables compaction nowMs pc) :
    TablesInv (flushNext nowMs e pc).1.tables (flushNext nowMs e pc).2 compaction := by
  cases pc with
  | idle =>
    have hsorted : Ascending e.memtable.getFrozenItems.sortedItems := Dict.sortedItems_ascending _
    rw [flushNext]
    split
    · exact h.flushPc trivial (List.forall_mem_nil _)
    · next item items heq => exact h.flushPc (heq ▸ hsorted) (List.forall_mem_nil _)
  | collected items => exact h.flushPc h.sorted (List.forall_mem_nil _)
  | writing items walOffset =>
    rw [flushNext]
    split
    · next t err hwrite =>
      obtain ⟨content, hset⟩ := Tables.write_eq_setFile e.tables (.init (sstablePath e.storagePath nowMs) 0) items
      rw [hwrite] at hset
      obtain rfl : t = e.tables.setFile (sstablePath e.storagePath nowMs) content := hset
      exact (h.setFile hname.unlisted hname.notFlushed hname.notCompacted content).flushPc trivial (List.forall_mem_nil _)
    · next t sstable hwrite =>
      obtain ⟨rfl, hpath, -, hholds⟩ := Tables.write_ok h.sorted hwrite
      exact h.flushWritten hname hholds (by rw [FlushPc.underWay, hpath]) trivial
  | written sstable walOffset =>
    rw [flushNext]
    split
    · exact h.flushPc trivial (List.forall_mem_nil _)
    · next metadata hbuild =>
      refine h.flushPc trivial ?_
      intro path hpath
      rwa [FlushPc.underWay, path_buildMetadata hbuild] at hpath
  | described metadata walOffset =>
    obtain ⟨hwhole, hunlisted, hnotWay, hnotInput⟩ := h.flushed metadata.path (List.mem_singleton_self _)
    have hadded : TablesInv e.tables (.added walOffset) compaction := h.flushPc trivial (List.forall_mem_nil _)
    exact hadded.addEntry hwhole ⟨hunlisted, List.not_mem_nil, hnotWay, hnotInput⟩ 0
  | added walOffset => exact h.save.flushPc trivial (List.forall_mem_nil _)
  | saved walOffset => exact h.save.flushPc trivial (List.forall_mem_nil _)
  | recorded walOffset => exact h.flushPc trivial (List.forall_mem_nil _)
  | cleared walOffset => exact h.flushPc trivial (List.forall_mem_nil _)
  | returned => exact h
  | raised err => exact h

/-- Every step of a compaction keeps it. -/
theorem inv_compactNext {t : Tables} {flush : FlushPc} {pc : CompactPc} (h : TablesInv t flush pc)
    {storagePath : Path} {timeNs : Nat} (hname : CompactNameOk storagePath t flush timeNs pc) (nowMs : Nat) :
    TablesInv (next storagePath timeNs nowMs t pc).1 flush (next storagePath timeNs nowMs t pc).2 := by
  cases pc with
  | idle =>
    rw [next, map_snd_iterSstableMetadata_level]
    split
    · exact h.compactPc (List.forall_mem_nil _) (List.forall_mem_nil _) trivial
    · have hmem : ∀ m ∈ levelOrder t.manifest 0, m ∈ t.manifest.getLevelSstables 0 :=
        fun m hm => (mem_newestFirst _).mp hm
      refine h.compactPc (List.forall_mem_nil _) ?_ ⟨?_, hmem⟩
      · intro path hpath
        obtain ⟨m, hm, rfl⟩ := List.mem_map.mp hpath
        exact .inr ⟨0, m, hmem m hm, rfl⟩
      · exact ((newestFirst_perm _ _).map SSTableMeta.path).nodup_iff.mpr (h.memory.distinct.within 0)
  | merging level0 =>
    have hraised : ∀ content err, TablesInv (t.setFile (compactedPath storagePath timeNs) content) flush
        (.raised err) := fun content err =>
      (h.setFile hname.unlisted hname.notFlushed hname.notCompacted content).compactPc (List.forall_mem_nil _)
        (List.forall_mem_nil _) trivial
    rw [next]
    split
    · exact hraised none _
    · next merged hmerge =>
      split
      · next t' err hwrite =>
        obtain ⟨content, hset⟩ := Tables.write_eq_setFile t (.init (compactedPath storagePath timeNs) 1) merged
        rw [hwrite] at hset
        obtain rfl : t' = t.setFile (compactedPath storagePath timeNs) content := hset
        exact hraised content err
      · next t' newSstable hwrite =>
        obtain ⟨rfl, hpath, -, hholds⟩ := Tables.write_ok (ascending_mergeSstables hmerge) hwrite
        exact h.compactWritten hname hholds (by rw [CompactPc.underWay, hpath]) rfl h.inputs
  | written level0 newSstable =>
    rw [next]
    split
    · exact h.compactPc (List.forall_mem_nil _) (List.forall_mem_nil _) trivial
    · next metadata hbuild =>
      refine h.compactPc ?_ (fun _ hpath => .inl hpath) h.inputs
      intro path hpath
      rwa [CompactPc.underWay, path_buildMetadata hbuild] at hpath
  | described level0 metadata =>
    obtain ⟨hwhole, hunlisted, hnotInput⟩ := h.compacted metadata.path (List.mem_singleton_self _)
    have hnotFlushed : metadata.path ∉ flush.underWay := by
      intro hmem
      obtain ⟨-, -, hnotWay, -⟩ := h.flushed metadata.path hmem
      exact hnotWay (List.mem_singleton_self _)
    have hadded : TablesInv t flush (.added level0) :=
      h.compactPc (List.forall_mem_nil _) (fun _ hpath => .inl hpath) h.inputs
    exact hadded.addEntry hwhole ⟨hunlisted, hnotFlushed, List.not_mem_nil, hnotInput⟩ 1
  | added level0 =>
    have hsaved := h.save
    exact hsaved.compactPc (List.forall_mem_nil _) (fun _ hpath => .inl hpath)
      ⟨hsaved.inputs.1, [], rfl, hsaved.inputs.2, List.forall_mem_nil _⟩
  | removing level0 rest =>
    cases rest with
    | nil =>
      obtain ⟨-, done, hsplit, -, hdone⟩ := h.inputs
      rw [List.append_nil] at hsplit
      exact h.compactPc (List.forall_mem_nil _) (fun _ hpath => .inl hpath) fun m hm => hdone m (hsplit ▸ hm)
    | cons info rest => exact h.removeEntry
  | removed level0 rest =>
    obtain ⟨hnodup, done, hsplit, hrest, hdone⟩ := h.inputs
    exact h.save.compactPc (List.forall_mem_nil _) (fun _ hpath => .inl hpath)
      ⟨hnodup, done, hsplit, hrest, fun m hm => ⟨hdone m hm, hdone m hm⟩⟩
  | unlinking rest =>
    cases rest with
    | nil => exact h.compactPc (List.forall_mem_nil _) (List.forall_mem_nil _) trivial
    | cons info rest =>
      have hunlisted := h.inputs info List.mem_cons_self
      have hnotFlushed : info.path ∉ flush.underWay := by
        intro hmem
        obtain ⟨-, -, -, hnotInput⟩ := h.flushed info.path hmem
        exact hnotInput List.mem_cons_self
      refine (h.setFile hunlisted hnotFlushed List.not_mem_nil none).compactPc (List.forall_mem_nil _) ?_ ?_
      · exact fun path hpath => .inl (List.mem_cons_of_mem _ hpath)
      · exact fun m hm => h.inputs m (List.mem_cons_of_mem _ hm)
  | returned => exact h
  | raised err => exact h

/-! ## All of them -/

/-- Threads on an engine and the compaction under way (`idle` if there is none). -/
structure Workers (L : Type) where
  config : Config L
  compaction : CompactPc

/-- What can happen next: an action of a thread; a step of the compaction, or an exception
in it; a part of a table file that is being written; a file that cannot be unlinked and is
passed over; a crash and a restart, whose replay may leave any memtable. -/
inductive Work (L : Type) where
  | thread (a : Action)
  | flushPart (nowMs : Nat) (content : Option Bytes)
  | compact (timeNs nowMs : Nat)
  | compactPart (timeNs : Nat) (content : Option Bytes)
  | compactRaise (timeNs : Nat) (content : Option Bytes)
  | passOver
  | restart (memtable : MemTable) (wal : L)

namespace Workers

variable {L : Type} [Log L]

/-- The tables they share. -/
def tables (c : Workers L) : Tables := c.config.engine.tables

/-- The tables are these now. -/
def withTables (c : Workers L) (t : Tables) : Workers L :=
  { c with config := { c.config with engine := { c.config.engine with tables := t } } }

/-- One step. A compaction that has ended makes room for the next. -/
def act (c : Workers L) : Work L → Workers L
  | .thread a => { c with config := c.config.act a }
  | .flushPart nowMs content =>
    match c.config.flush with
    | .writing _ _ => c.withTables (c.tables.setFile (sstablePath c.config.engine.storagePath nowMs) content)
    | _ => c
  | .compact timeNs nowMs =>
    match c.compaction with
    | .returned | .raised _ => { c with compaction := .idle }
    | pc =>
      { c.withTables (next c.config.engine.storagePath timeNs nowMs c.tables pc).1 with
        compaction := (next c.config.engine.storagePath timeNs nowMs c.tables pc).2 }
  | .compactPart timeNs content =>
    match c.compaction with
    | .merging _ => c.withTables (c.tables.setFile (compactedPath c.config.engine.storagePath timeNs) content)
    | _ => c
  | .compactRaise timeNs content =>
    match c.compaction with
    | .idle | .returned | .raised _ => c
    | .merging _ =>
      { c.withTables (c.tables.setFile (compactedPath c.config.engine.storagePath timeNs) content) with
        compaction := .raised .osError }
    | _ => { c with compaction := .raised .osError }
  | .passOver =>
    match c.compaction with
    | .unlinking (_ :: rest) => { c with compaction := .unlinking rest }
    | _ => c
  | .restart memtable wal =>
    ⟨.start { c.config.engine with memtable := memtable, wal := wal, tables := c.tables.reload }, .idle⟩

/-- The limit a batch is measured by is that of the start, restarts included. -/
theorem memtableMaxSize_act (c : Workers L) (work : Work L) :
    (c.act work).config.engine.memtableMaxSize = c.config.engine.memtableMaxSize := by
  cases work with
  | thread a => exact Config.memtableMaxSize_act c.config a
  | flushPart nowMs content =>
    rw [act]
    split <;> rfl
  | compact timeNs nowMs =>
    rw [act]
    split <;> rfl
  | compactPart timeNs content =>
    rw [act]
    split <;> rfl
  | compactRaise timeNs content =>
    rw [act]
    split <;> rfl
  | passOver =>
    rw [act]
    split <;> rfl
  | restart memtable wal => rfl

/-- The table a step writes, or writes a part of, has a path that no other table has. -/
def NameOk (c : Workers L) : Work L → Prop
  | .thread (.flush nowMs) | .thread (.raise nowMs _) | .flushPart nowMs _ =>
    FlushNameOk c.config.engine.storagePath c.tables c.compaction nowMs c.config.flush
  | .compact timeNs _ | .compactPart timeNs _ | .compactRaise timeNs _ =>
    CompactNameOk c.config.engine.storagePath c.tables c.config.flush timeNs c.compaction
  | _ => True

/-- What holds at every point of a run. -/
def Inv (c : Workers L) : Prop := TablesInv c.tables c.config.flush c.compaction

/-- Writers and rotations leave the tables and the flush alone. -/
theorem tables_act {c : Config L} {a : Action} (hflush : ∀ nowMs, a ≠ .flush nowMs)
    (hraise : ∀ nowMs content, a ≠ .raise nowMs content) :
    (c.act a).engine.tables = c.engine.tables ∧ (c.act a).flush = c.flush := by
  have hbegin : ∀ writer, ((if c.writers writer = .idle then c.wrote writer (Config.begin c.engine a) else c :
      Config L)).engine.tables = c.engine.tables ∧
      (if c.writers writer = .idle then c.wrote writer (Config.begin c.engine a) else c : Config L).flush =
        c.flush := by
    intro writer
    obtain ⟨wal, heq⟩ := Config.begin_same c.engine a
    split
    · exact ⟨by rw [Config.engine_wrote, heq], rfl⟩
    · exact ⟨rfl, rfl⟩
  cases a with
  | put writer key value => exact hbegin writer
  | delete writer key => exact hbegin writer
  | batchPut writer keys values => exact hbegin writer
  | write writer =>
    obtain ⟨memtable, wal, heq⟩ := Config.writeNext_same c.engine (c.writers writer)
    rw [Config.act]
    exact ⟨by rw [Config.engine_wrote, heq], rfl⟩
  | rotate => exact ⟨rfl, rfl⟩
  | flush nowMs => exact absurd rfl (hflush nowMs)
  | raise nowMs content => exact absurd rfl (hraise nowMs content)

theorem inv_thread {c : Workers L} (h : c.Inv) {a : Action} (hname : c.NameOk (.thread a)) :
    (c.act (.thread a)).Inv := by
  have hother : ∀ a : Action, (∀ nowMs, a ≠ .flush nowMs) → (∀ nowMs content, a ≠ .raise nowMs content) →
      (c.act (.thread a)).Inv := by
    intro a hflush hraise
    obtain ⟨htables, hpc⟩ := tables_act (c := c.config) hflush hraise
    show TablesInv (c.config.act a).engine.tables (c.config.act a).flush c.compaction
    rw [htables, hpc]
    exact h
  cases a with
  | flush nowMs =>
    show TablesInv (c.config.act (.flush nowMs)).engine.tables (c.config.act (.flush nowMs)).flush c.compaction
    rw [Config.act]
    split
    · exact h.flushPc trivial (List.forall_mem_nil _)
    · exact h.flushPc trivial (List.forall_mem_nil _)
    · exact inv_flushNext h hname
  | raise nowMs content =>
    show TablesInv (c.config.act (.raise nowMs content)).engine.tables
      (c.config.act (.raise nowMs content)).flush c.compaction
    rw [Config.act]
    rw [NameOk] at hname
    cases hpc : c.config.flush with
    | writing items walOffset =>
      rw [hpc] at hname
      have hwriting : TablesInv c.tables (.writing items walOffset) c.compaction := hpc ▸ h
      exact (hwriting.setFile hname.unlisted hname.notFlushed hname.notCompacted content).flushPc trivial
        (List.forall_mem_nil _)
    | idle | returned | raised => exact h
    | collected | written | described | added | saved | recorded | cleared =>
      exact h.flushPc trivial (List.forall_mem_nil _)
  | put writer key value => exact hother (.put writer key value) (fun _ => by rintro ⟨⟩) fun _ _ => by rintro ⟨⟩
  | delete writer key => exact hother (.delete writer key) (fun _ => by rintro ⟨⟩) fun _ _ => by rintro ⟨⟩
  | batchPut writer keys values =>
    exact hother (.batchPut writer keys values) (fun _ => by rintro ⟨⟩) fun _ _ => by rintro ⟨⟩
  | write writer => exact hother (.write writer) (fun _ => by rintro ⟨⟩) fun _ _ => by rintro ⟨⟩
  | rotate => exact hother .rotate (fun _ => by rintro ⟨⟩) fun _ _ => by rintro ⟨⟩

/-- **Every step** keeps what holds of the tables, if names are not used twice. -/
theorem inv_act {c : Workers L} (h : c.Inv) {work : Work L} (hname : c.NameOk work) : (c.act work).Inv := by
  cases work with
  | thread a => exact inv_thread h hname
  | flushPart nowMs content =>
    rw [act]
    split
    · next items walOffset hpc =>
      rw [NameOk, hpc] at hname
      exact h.setFile hname.unlisted (hpc ▸ hname.notFlushed) hname.notCompacted content
    · exact h
  | compact timeNs nowMs =>
    rw [act]
    split
    · exact h.compactPc (List.forall_mem_nil _) (List.forall_mem_nil _) trivial
    · exact h.compactPc (List.forall_mem_nil _) (List.forall_mem_nil _) trivial
    · exact inv_compactNext h hname nowMs
  | compactPart timeNs content =>
    rw [act]
    split
    · next level0 hpc =>
      rw [NameOk, hpc] at hname
      exact h.setFile hname.unlisted hname.notFlushed (hpc ▸ hname.notCompacted) content
    · exact h
  | compactRaise timeNs content =>
    rw [act]
    split
    · exact h
    · exact h
    · exact h
    · next level0 hpc =>
      rw [NameOk, hpc] at hname
      have hset := h.setFile hname.unlisted hname.notFlushed (hpc ▸ hname.notCompacted) content
      exact hset.compactPc (List.forall_mem_nil _) (List.forall_mem_nil _) trivial
    · exact h.compactPc (List.forall_mem_nil _) (List.forall_mem_nil _) trivial
  | passOver =>
    rw [act]
    split
    · next info rest hpc =>
      have hinputs := h.inputs
      rw [hpc] at hinputs
      refine h.compactPc (List.forall_mem_nil _) ?_ fun m hm => hinputs m (List.mem_cons_of_mem _ hm)
      intro path hpath
      rw [hpc]
      exact .inl (List.mem_cons_of_mem _ hpath)
    · exact h
  | restart memtable wal => exact h.reload

/-- Nothing is under way, and a directory was opened whose manifest names complete tables
under distinct paths. -/
structure Start (c : Workers L) : Prop where
  flush : c.config.flush = .idle
  compaction : c.compaction = .idle
  loaded : c.tables.manifest = c.tables.onDisk
  whole : AllWhole c.tables.files c.tables.onDisk

/-- **The saved manifest never dangles**: after any steps of flushes, compactions, writers,
exceptions and restarts, every path listed in the manifest file is that of an existing,
completely written table. -/
theorem saved_never_dangles (c : Workers L) (hstart : c.Start) (works : List (Work L))
    (hnames : Along act NameOk c works) (path : Path) (hlisted : (run act c works).tables.onDisk.ListsPath path) :
    WholeTable (run act c works).tables.files path := by
  have hinv : c.Inv := by
    rw [Inv, hstart.flush, hstart.compaction]
    exact ⟨hstart.loaded ▸ hstart.whole, hstart.whole, trivial, List.forall_mem_nil _, (List.forall_mem_nil _), trivial⟩
  have hstep : ∀ (c : Workers L) (work : Work L), c.Inv → c.NameOk work → (c.act work).Inv :=
    fun _ _ h hname => inv_act h hname
  exact (run_invariant hstep hinv hnames).disk.complete path hlisted

/-! ### A run that can be checked -/

instance (m : Manifest) (path : Path) : Decidable (m.ListsPath path) :=
  decidable_of_iff (∃ entry ∈ readOrder m, entry.path = path) (by
    simp only [mem_readOrder, Manifest.ListsPath]
    constructor
    · rintro ⟨entry, ⟨level, hentry⟩, hpath⟩
      exact ⟨level, entry, hentry, hpath⟩
    · rintro ⟨level, entry, hentry, hpath⟩
      exact ⟨entry, ⟨level, hentry⟩, hpath⟩)

instance (t : Tables) (path : Path) : Decidable (t.Unlisted path) := inferInstanceAs (Decidable (_ ∧ _))

instance (t : Tables) (flush : FlushPc) (compaction : CompactPc) (path : Path) :
    Decidable (Unused t flush compaction path) :=
  decidable_of_iff (t.Unlisted path ∧ path ∉ flush.underWay ∧ path ∉ compaction.underWay ∧
      path ∉ compaction.inputs)
    ⟨fun h => ⟨h.1, h.2.1, h.2.2.1, h.2.2.2⟩, fun h => ⟨h.unlisted, h.notFlushed, h.notCompacted, h.notInput⟩⟩

instance (storagePath : Path) (t : Tables) (compaction : CompactPc) (nowMs : Nat) :
    (pc : FlushPc) → Decidable (FlushNameOk storagePath t compaction nowMs pc)
  | .writing _ _ => inferInstanceAs (Decidable (Unused _ _ _ _))
  | .idle | .collected _ | .written _ _ | .described _ _ | .added _ | .saved _ | .recorded _ | .cleared _
  | .returned | .raised _ => .isTrue trivial

instance (storagePath : Path) (t : Tables) (flush : FlushPc) (timeNs : Nat) :
    (pc : CompactPc) → Decidable (CompactNameOk storagePath t flush timeNs pc)
  | .merging _ => inferInstanceAs (Decidable (Unused _ _ _ _))
  | .idle | .written _ _ | .described _ _ | .added _ | .removing _ _ | .removed _ _ | .unlinking _
  | .returned | .raised _ => .isTrue trivial

instance (c : Workers L) : (work : Work L) → Decidable (c.NameOk work)
  | .thread (.flush nowMs) => inferInstanceAs (Decidable (FlushNameOk _ _ _ nowMs _))
  | .thread (.raise nowMs _) => inferInstanceAs (Decidable (FlushNameOk _ _ _ nowMs _))
  | .flushPart nowMs _ => inferInstanceAs (Decidable (FlushNameOk _ _ _ nowMs _))
  | .compact timeNs _ => inferInstanceAs (Decidable (CompactNameOk _ _ _ timeNs _))
  | .compactPart timeNs _ => inferInstanceAs (Decidable (CompactNameOk _ _ _ timeNs _))
  | .compactRaise timeNs _ => inferInstanceAs (Decidable (CompactNameOk _ _ _ timeNs _))
  | .thread (.put _ _ _) | .thread (.delete _ _) | .thread (.batchPut _ _ _) | .thread (.write _)
  | .thread .rotate | .passOver | .restart _ _ => .isTrue trivial

/-- An engine in an empty directory. -/
def fresh : Workers Wal := ⟨.start ⟨"db", 100, .init 100, .init .absent, .fresh⟩, .idle⟩

theorem start_fresh : fresh.Start := by
  refine ⟨rfl, rfl, rfl, ?_, ?_, ?_⟩
  · rintro path ⟨level, entry, hentry, -⟩
    cases hentry
  · exact fun level => List.nodup_nil
  · intro level level' entry entry' hentry
    cases hentry

/-- A flush whose file is half written for a while, a compaction that raises after it has
recorded its table in memory and before it saves, and a restart. -/
def crashed : List (Work Wal) :=
  [.thread (.put 0 [97] [1]), .thread (.write 0), .thread .rotate, .thread (.flush 1), .thread (.flush 1),
    .flushPart 1 (some [0]), .thread (.flush 1), .thread (.flush 1), .thread (.flush 1), .thread (.flush 1),
    .compact 5 5, .compactPart 5 (some [0, 0]), .compact 5 5, .compact 5 5, .compact 5 5, .compactRaise 5 none,
    .restart (.init 100) (.init .absent)]

theorem saved_never_dangles_crashed :
    WholeTable (run act fresh crashed).tables.files (sstablePath "db" 1) :=
  saved_never_dangles fresh start_fresh crashed (by decide +kernel) (sstablePath "db" 1) (by decide +kernel)

end Workers

end Logvine
