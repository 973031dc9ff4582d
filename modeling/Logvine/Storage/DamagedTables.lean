import Logvine.Storage.Compaction
import Logvine.Storage.Reading

/-!
# Tables that cannot be read

A listed table may have lost its file, or have a file whose footer or index cannot be
parsed. `SSTable._load_index` leaves such a table with an empty index.

- `get_of_unreadable`, `iterItems_of_unreadable`, `rangeScan_of_unreadable`: it reads as a
  table without pairs;
- `get_withoutUnreadable`, `readKeyRange_withoutUnreadable`: the engine answers as if it
  were not listed;
- `mergeSstables_filter`, `compact_outcome`: a compaction merges the other tables, and
  removes it along with them.

`_load_index` returns at a missing file (`sstable.py`, 87–90) and catches everything else
(112–114); both leave an index that is empty, and an empty index is loaded again at every
access (126, 155, 171). The merge skips a table without a first item (`compaction.py`,
87–91), and `compact` removes it with the others (138–142).
-/

namespace Logvine

open Layer SSTableManager

/-! ## One table -/

namespace SSTable

/-- The file is missing, or its footer or index cannot be parsed. -/
def unreadable (files : Files) (path : Path) : Bool :=
  match files path with
  | none => true
  | some bytes =>
    match readIndex bytes with
    | .error _ => true
    | .ok _ => false

section Unreadable

variable {files : Files} {t : SSTable}

/-- Of a file that is missing or torn no index is loaded. -/
theorem index_of_unreadable (h : unreadable files t.path) (hi : t.index.entries = []) :
    (t.ensureIndex files).index = .empty := by
  unfold unreadable at h
  unfold ensureIndex loadIndex
  rw [hi, List.isEmpty_nil, if_pos rfl]
  cases hfile : files t.path with
  | none => rfl
  | some bytes =>
    simp only [hfile] at h ⊢
    cases hread : readIndex bytes with
    | error err => rfl
    | ok index =>
      rw [hread] at h
      cases h

/-- So a lookup finds nothing in it. -/
theorem get_of_unreadable (h : unreadable files t.path) (hi : t.index.entries = []) (key : Bytes) :
    t.get files key = .ok none := by
  rw [get, index_of_unreadable h hi]
  rfl

/-- It has no items. -/
theorem iterItems_of_unreadable (h : unreadable files t.path) (hi : t.index.entries = []) :
    t.iterItems files = .ok [] := by
  rw [iterItems, index_of_unreadable h hi]
  rfl

/-- And none in any range. -/
theorem rangeScan_of_unreadable (h : unreadable files t.path) (hi : t.index.entries = [])
    (startKey endKey : Bytes) : t.rangeScan files startKey endKey = .ok [] := by
  rw [rangeScan, index_of_unreadable h hi]
  rfl

end Unreadable

end SSTable

/-! ## Reading past them -/

/-- The manifest with some entries only. -/
def Manifest.keepEntries (p : SSTableMeta → Bool) (m : Manifest) : Manifest :=
  { m with levels := m.levels.mapValues (List.filter p) }

/-- The tables without the entries of those that cannot be read. -/
def Tables.withoutUnreadable (t : Tables) : Tables :=
  { t with manifest := t.manifest.keepEntries fun m => !SSTable.unreadable t.files m.path }

namespace SSTableManager

/-- The entry has a key range, as `build_metadata` gives it one. -/
def RangeRecorded (m : SSTableMeta) : Prop :=
  (∃ minKey, fromHex m.minKeyHex = .ok minKey) ∧ ∃ maxKey, fromHex m.maxKeyHex = .ok maxKey

/-- Leaving entries out keeps the order in which the others are read. -/
theorem readOrder_keepEntries (p : SSTableMeta → Bool) (m : Manifest) :
    readOrder (m.keepEntries p) = (readOrder m).filter p := by
  have hlevels : (m.keepEntries p).iterLevels = m.iterLevels.map fun item => (item.1, item.2.filter p) :=
    Dict.sortedItems_mapValues ..
  rw [readOrder, hlevels, List.flatMap_map, readOrder, List.filter_flatMap]
  exact congrArg (fun f => List.flatMap f m.iterLevels) (funext fun item => newestFirst_filter _ p item.2)

section Reads

variable {files : Files} {metas : List SSTableMeta}

/-- A lookup is the same without the unreadable tables. -/
theorem lookup_filter (h : ∀ m ∈ metas, SSTable.unreadable files m.path → RangeRecorded m) (key : Bytes) :
    lookup files key (metas.filter fun m => !SSTable.unreadable files m.path) = lookup files key metas := by
  induction metas with
  | nil => rfl
  | cons m metas ih =>
    have hrest := ih fun m' hm' => h m' (List.mem_cons_of_mem _ hm')
    by_cases hm : SSTable.unreadable files m.path = true
    · obtain ⟨⟨minKey, hmin⟩, maxKey, hmax⟩ := h m List.mem_cons_self hm
      have hnone : (metadataToSstable m).get files key = .ok none := SSTable.get_of_unreadable hm rfl key
      rw [List.filter_cons_of_neg (by simp [hm]), hrest, lookup, hmin, hmax]
      simp only [bind, Except.bind, hnone, ite_self]
    · rw [List.filter_cons_of_pos (by simp [hm]), lookup, lookup, hrest]

/-- A range read picks the same of the others. -/
theorem overlapping_filter (h : ∀ m ∈ metas, SSTable.unreadable files m.path → RangeRecorded m)
    (startKey endKey : Bytes) :
    overlapping startKey endKey (metas.filter fun m => !SSTable.unreadable files m.path) =
      (overlapping startKey endKey metas).map (List.filter fun m => !SSTable.unreadable files m.path) := by
  induction metas with
  | nil => rfl
  | cons m metas ih =>
    have hrest := ih fun m' hm' => h m' (List.mem_cons_of_mem _ hm')
    by_cases hm : SSTable.unreadable files m.path = true
    · obtain ⟨⟨minKey, hmin⟩, maxKey, hmax⟩ := h m List.mem_cons_self hm
      rw [List.filter_cons_of_neg (by simp [hm]), hrest, overlapping, hmin, hmax]
      cases overlapping startKey endKey metas with
      | error err => rfl
      | ok later =>
        simp only [bind, Except.bind, Except.map, pure, Except.pure]
        split <;> simp [hm]
    · rw [List.filter_cons_of_pos (by simp [hm]), overlapping, overlapping, hrest]
      cases fromHex m.minKeyHex with
      | error err => rfl
      | ok minKey =>
        cases fromHex m.maxKeyHex with
        | error err => rfl
        | ok maxKey =>
          cases overlapping startKey endKey metas with
          | error err => rfl
          | ok later =>
            simp only [bind, Except.bind, Except.map, pure, Except.pure]
            split <;> simp [hm]

/-- And collects the same from them. -/
theorem collectTables_filter (startKey endKey : Bytes) (acc : List Bytes × Buffer) :
    Reading.collectTables files startKey endKey
        ((metas.filter fun m => !SSTable.unreadable files m.path).map metadataToSstable) acc =
      Reading.collectTables files startKey endKey (metas.map metadataToSstable) acc := by
  induction metas generalizing acc with
  | nil => rfl
  | cons m metas ih =>
    by_cases hm : SSTable.unreadable files m.path = true
    · have hscan : (metadataToSstable m).rangeScan files startKey endKey = .ok [] :=
        SSTable.rangeScan_of_unreadable hm rfl startKey endKey
      rw [List.filter_cons_of_neg (by simp [hm]), List.map_cons, Reading.collectTables, hscan]
      exact ih acc
    · rw [List.filter_cons_of_pos (by simp [hm]), List.map_cons, List.map_cons, Reading.collectTables,
        Reading.collectTables]
      simp only [ih]

end Reads

end SSTableManager

namespace Tables

variable {t : Tables}

/-- **A lookup passes over tables that cannot be read.** -/
theorem get_withoutUnreadable
    (h : ∀ m ∈ readOrder t.manifest, SSTable.unreadable t.files m.path → RangeRecorded m)
    (memtable : MemTable) (key : Bytes) :
    Reading.get memtable t.withoutUnreadable key = Reading.get memtable t key := by
  have hget : t.withoutUnreadable.get key = t.get key := by
    rw [get, SSTableManager.get, map_snd_iterSstableMetadata, withoutUnreadable, readOrder_keepEntries,
      get, SSTableManager.get, map_snd_iterSstableMetadata]
    exact lookup_filter h key
  rw [Reading.get, Reading.stored, hget]
  rfl

/-- **So does a range read.** -/
theorem readKeyRange_withoutUnreadable
    (h : ∀ m ∈ readOrder t.manifest, SSTable.unreadable t.files m.path → RangeRecorded m)
    (memtable : MemTable) (startKey endKey : Bytes) :
    Reading.readKeyRange memtable t.withoutUnreadable startKey endKey =
      Reading.readKeyRange memtable t startKey endKey := by
  have hoverlap := overlapping_filter h startKey endKey
  rw [Reading.readKeyRange, getOverlappingSstables, map_snd_iterSstableMetadata, withoutUnreadable,
    readOrder_keepEntries, hoverlap, Reading.readKeyRange, getOverlappingSstables, map_snd_iterSstableMetadata]
  cases overlapping startKey endKey (readOrder t.manifest) with
  | error err => rfl
  | ok infos =>
    simp only [Except.map, bind, Except.bind, collectTables_filter]

end Tables

/-! ## Compacting them -/

namespace CompactionManager

section Merge

variable {files : Files}

variable (files) in
/-- The inputs of a merge without the tables that cannot be read: they raise the same, or
answer the same. -/
theorem mapM_iterItems_filter (infos : List SSTableMeta) :
    let read := fun info => (metadataToSstable info).iterItems files
    (∃ err, infos.mapM read = .error err ∧
        (infos.filter fun m => !SSTable.unreadable files m.path).mapM read = .error err) ∨
      ∃ inputs inputs', infos.mapM read = .ok inputs ∧
        (infos.filter fun m => !SSTable.unreadable files m.path).mapM read = .ok inputs' ∧
        (∀ l ∈ inputs, Ascending l) ∧ (∀ l ∈ inputs', Ascending l) ∧
        resolve (inputs'.map assoc) = resolve (inputs.map assoc) := by
  intro read
  induction infos with
  | nil => exact .inr ⟨[], [], rfl, rfl, by simp, by simp, rfl⟩
  | cons info infos ih =>
    by_cases hm : SSTable.unreadable files info.path = true
    · -- it adds a table without items
      have hitems : read info = .ok [] := SSTable.iterItems_of_unreadable (t := metadataToSstable info) hm rfl
      rw [List.filter_cons_of_neg (by simp [hm]), List.mapM_cons, hitems]
      rcases ih with ⟨err, hrun, hrun'⟩ | ⟨inputs, inputs', hrun, hrun', hasc, hasc', hlayer⟩
      · exact .inl ⟨err, by rw [hrun]; rfl, hrun'⟩
      · refine .inr ⟨[] :: inputs, inputs', by rw [hrun]; rfl, hrun', ?_, hasc', ?_⟩
        · exact List.forall_mem_cons.mpr ⟨List.Pairwise.nil, hasc⟩
        · rw [hlayer, List.map_cons, resolve_cons]
          rfl
    · rw [List.filter_cons_of_pos (by simp [hm]), List.mapM_cons, List.mapM_cons]
      cases hitems : read info with
      | error err => exact .inl ⟨err, rfl, rfl⟩
      | ok items =>
        have hsorted : Ascending items := SSTable.ascending_iterItems hitems
        rcases ih with ⟨err, hrun, hrun'⟩ | ⟨inputs, inputs', hrun, hrun', hasc, hasc', hlayer⟩
        · exact .inl ⟨err, by rw [hrun]; rfl, by rw [hrun']; rfl⟩
        · refine .inr ⟨items :: inputs, items :: inputs', by rw [hrun]; rfl, by rw [hrun']; rfl, ?_, ?_, ?_⟩
          · exact List.forall_mem_cons.mpr ⟨hsorted, hasc⟩
          · exact List.forall_mem_cons.mpr ⟨hsorted, hasc'⟩
          · rw [List.map_cons, List.map_cons, resolve_cons, resolve_cons, hlayer]

/-- **A merge is that of the tables that can be read.** -/
theorem mergeSstables_filter (files : Files) (infos : List SSTableMeta) :
    mergeSstables files (infos.filter fun m => !SSTable.unreadable files m.path) =
      mergeSstables files infos := by
  rw [mergeSstables, mergeSstables]
  rcases mapM_iterItems_filter files infos with
    ⟨err, hrun, hrun'⟩ | ⟨inputs, inputs', hrun, hrun', hasc, hasc', hlayer⟩
  · rw [hrun, hrun']
  · rw [hrun, hrun']
    have hassoc : ∀ k, assoc (kwayMerge inputs') k = assoc (kwayMerge inputs) k := by
      intro k
      rw [assoc_kwayMerge hasc, assoc_kwayMerge hasc', hlayer]
    exact congrArg Except.ok ((ascending_kwayMerge hasc').ext (ascending_kwayMerge hasc) hassoc)

/-- What a compaction writes ascends. -/
theorem ascending_mergeSstables {infos : List SSTableMeta} {merged : List (Bytes × Bytes)}
    (h : mergeSstables files infos = .ok merged) : Ascending merged := by
  rw [mergeSstables] at h
  rcases mapM_iterItems_filter files infos with
    ⟨err, hrun, -⟩ | ⟨inputs, -, hrun, -, hasc, -, -⟩
  · rw [hrun] at h
    cases h
  · rw [hrun] at h
    cases h
    exact ascending_kwayMerge hasc

end Merge

/-! ### The end of a run -/

/-- The loop of `remove_sstable` takes the merged entries out of level 0, and touches nothing
else. -/
theorem foldl_removeSstable (t : Tables) (infos : List SSTableMeta) :
    (infos.foldl removeSstable t).files = t.files ∧
      (infos.foldl removeSstable t).manifest.getLevelSstables 0 =
        ((t.manifest.getLevelSstables 0).filter fun m => decide (m.path ∉ infos.map SSTableMeta.path)) ∧
      (infos.foldl removeSstable t).manifest.getLevelSstables 1 = t.manifest.getLevelSstables 1 := by
  induction infos generalizing t with
  | nil => exact ⟨rfl, by simp, rfl⟩
  | cons info infos ih =>
    obtain ⟨hfiles, hlevel, hother⟩ := ih (removeSstable t info)
    have hsame : (removeSstable t info).manifest.getLevelSstables 1 = t.manifest.getLevelSstables 1 := by
      show (t.manifest.removeEntry 0 info.path).getLevelSstables 1 = _
      rw [Manifest.getLevelSstables_removeEntry, if_neg (by decide)]
    refine ⟨hfiles, ?_, hother.trans hsame⟩
    have hfirst : (removeSstable t info).manifest.getLevelSstables 0 =
        (t.manifest.getLevelSstables 0).filter fun m => decide (m.path ≠ info.path) := by
      show (t.manifest.removeEntry 0 info.path).getLevelSstables 0 = _
      rw [Manifest.getLevelSstables_removeEntry, if_pos rfl]
    rw [List.foldl_cons, hlevel, hfirst, List.filter_filter]
    refine List.filter_congr ?_
    intro m _
    simp only [List.map_cons, List.mem_cons, not_or, Bool.decide_and, Bool.and_comm]

/-- The loop of `os.unlink` removes the files of the merged entries, and no other. -/
theorem files_removeOldSstableFiles (t : Tables) (infos : List SSTableMeta) (path : Path) :
    (removeOldSstableFiles t infos).manifest = t.manifest ∧
      (removeOldSstableFiles t infos).files path =
        if path ∈ infos.map SSTableMeta.path then none else t.files path := by
  induction infos generalizing t with
  | nil => exact ⟨rfl, rfl⟩
  | cons info infos ih =>
    obtain ⟨hmanifest, hfiles⟩ := ih (t.setFile info.path none)
    refine ⟨hmanifest, ?_⟩
    rw [removeOldSstableFiles, List.foldl_cons]
    refine hfiles.trans ?_
    by_cases hpath : path = info.path
    · have hgone : (t.setFile info.path none).files path = none := by
        rw [hpath]
        exact Function.update_self ..
      rw [hgone, ite_self, if_pos (by rw [hpath]; exact List.mem_cons_self)]
    · have hkept : (t.setFile info.path none).files path = t.files path := Function.update_of_ne hpath ..
      rw [hkept, List.map_cons]
      simp only [List.mem_cons, hpath, false_or]

section Outcome

variable {t : Tables} (storagePath : Path) (timeNs nowMs : Nat)

/-- A run whose merge raises, is empty or cannot be written touches the new file only. -/
theorem compact_refused (h : ∀ pairs, mergeSstables t.files (levelOrder t.manifest 0) = .ok pairs →
      pairs = [] ∨ ¬SSTable.Fits pairs) :
    ∃ content, compact storagePath timeNs nowMs t = t.setFile (compactedPath storagePath timeNs) content := by
  unfold compact
  dsimp only
  rw [map_snd_iterSstableMetadata_level]
  split
  · refine ⟨t.files (compactedPath storagePath timeNs), ?_⟩
    rw [Tables.setFile, Function.update_eq_self]
  · cases hmerge : mergeSstables t.files (levelOrder t.manifest 0) with
    | error err => exact ⟨none, rfl⟩
    | ok pairs =>
      have hasc := ascending_mergeSstables hmerge
      rcases SSTable.tableBytes_eq hasc.nodup with ⟨hfits, index, hindex, hbytes⟩ | ⟨-, err, hbytes⟩
      · -- an empty table is written, but cannot be described
        obtain rfl : pairs = [] := (h pairs hmerge).resolve_right (not_not.mpr hfits)
        refine ⟨some (SSTable.fileBytes []), ?_⟩
        have hholds : SSTable.Holds (t.setFile (compactedPath storagePath timeNs)
            (some (SSTable.fileBytes []))).files (compactedPath storagePath timeNs) [] :=
          ⟨Function.update_self .., hasc, hfits⟩
        have hkeys := SSTable.sortedKeys_ensureIndex (t := ⟨compactedPath storagePath timeNs, 1, index⟩)
          hholds (.inr hindex)
        simp only [Tables.write, SSTable.write, hbytes, Tables.buildMetadata, buildMetadata]
        rw [show SSTable.init (compactedPath storagePath timeNs) 1 =
          ⟨compactedPath storagePath timeNs, 1, .empty⟩ from rfl]
        change (SSTable.ensureIndex _ (Function.update t.files _ _)).index.sortedKeys = _ at hkeys
        rw [hkeys]
        rfl
      · refine ⟨none, ?_⟩
        simp only [Tables.write, SSTable.write, hbytes]
        rfl

/-- A run whose merge can be written records it in level 1 and removes what it merged. -/
theorem compact_merged {pairs : List (Bytes × Bytes)}
    (hmerge : mergeSstables t.files (levelOrder t.manifest 0) = .ok pairs) (hne : pairs ≠ [])
    (hfits : SSTable.Fits pairs) :
    ∃ metadata : SSTableMeta, metadata.path = compactedPath storagePath timeNs ∧
      compact storagePath timeNs nowMs t =
        removeOldSstableFiles ((levelOrder t.manifest 0).foldl removeSstable
          ((t.setFile (compactedPath storagePath timeNs) (some (SSTable.fileBytes pairs))).addSstable 1
            metadata)) (levelOrder t.manifest 0) := by
  have hasc := ascending_mergeSstables hmerge
  obtain ⟨index, hindex, hbytes⟩ := SSTable.tableBytes_of_fits hasc.nodup hfits
  have hwrite : t.write (.init (compactedPath storagePath timeNs) 1) pairs =
      (t.setFile (compactedPath storagePath timeNs) (some (SSTable.fileBytes pairs)),
        .ok ⟨compactedPath storagePath timeNs, 1, index⟩) := by
    simp only [Tables.write, SSTable.write, hbytes]
    rfl
  obtain ⟨metadata, hbuild, -, hpath, -⟩ := Tables.write_spec hasc hne hwrite nowMs
  have hinputs : levelOrder t.manifest 0 ≠ [] := by
    intro hnil
    rw [hnil] at hmerge
    cases hmerge
    exact hne rfl
  refine ⟨metadata, hpath, ?_⟩
  unfold compact
  dsimp only
  rw [map_snd_iterSstableMetadata_level, if_neg hinputs, hmerge]
  simp only [hwrite, hbuild]

end Outcome

/-- The entries and the files are where they were. -/
def InPlace (t t' : Tables) (infos : List SSTableMeta) : Prop :=
  ∀ m ∈ infos, m ∈ t'.manifest.getLevelSstables 0 ∧ t'.files m.path = t.files m.path

/-- The entries are removed and the files unlinked. -/
def Gone (t' : Tables) (infos : List SSTableMeta) : Prop :=
  ∀ m ∈ infos, m ∉ t'.manifest.getLevelSstables 0 ∧ t'.files m.path = none

theorem inPlace_setFile {t : Tables} {path : Path} (hfree : ∀ m ∈ levelOrder t.manifest 0, m.path ≠ path)
    (content : Option Bytes) : InPlace t (t.setFile path content) (levelOrder t.manifest 0) :=
  fun m hm => ⟨(mem_newestFirst _).mp hm, Function.update_of_ne (hfree m hm) ..⟩

/-- After both loops neither the entries nor the files of the merged tables are left. -/
theorem gone_removed (t : Tables) (infos : List SSTableMeta) :
    Gone (removeOldSstableFiles (infos.foldl removeSstable t) infos) infos := by
  intro m hm
  have hpath : m.path ∈ infos.map SSTableMeta.path := List.mem_map_of_mem hm
  obtain ⟨hmanifest, hfiles⟩ := files_removeOldSstableFiles (infos.foldl removeSstable t) infos m.path
  obtain ⟨-, hlevel, -⟩ := foldl_removeSstable t infos
  constructor
  · rw [hmanifest, hlevel]
    exact fun hmem => of_decide_eq_true (List.mem_filter.mp hmem).2 hpath
  · rw [hfiles, if_pos hpath]

/-- **Tables that cannot be read count as empty ones**: lookups and range reads answer as if
they were not listed, and a compaction merges the other tables of level 0. It leaves the
entries and files of all of them in place if that merge raises, has no items or cannot be
written; otherwise the merge is listed in level 1 and all of them are gone. -/
theorem unreadable_counts_as_empty (memtable : MemTable) (t : Tables)
    (hrange : ∀ m ∈ readOrder t.manifest, SSTable.unreadable t.files m.path → RangeRecorded m)
    (storagePath : Path) (timeNs nowMs : Nat)
    (hfree : ∀ m ∈ levelOrder t.manifest 0, m.path ≠ compactedPath storagePath timeNs) :
    let inputs := levelOrder t.manifest 0
    let merge := mergeSstables t.files (inputs.filter fun m => !SSTable.unreadable t.files m.path)
    let t' := compact storagePath timeNs nowMs t
    (∀ key, Reading.get memtable t key = Reading.get memtable t.withoutUnreadable key) ∧
      (∀ startKey endKey, Reading.readKeyRange memtable t startKey endKey =
        Reading.readKeyRange memtable t.withoutUnreadable startKey endKey) ∧
      ((∀ pairs, merge = .ok pairs → pairs = [] ∨ ¬SSTable.Fits pairs) → InPlace t t' inputs) ∧
      ∀ pairs, merge = .ok pairs → pairs ≠ [] → SSTable.Fits pairs →
        Gone t' inputs ∧ ∃ m ∈ t'.manifest.getLevelSstables 1, m.path = compactedPath storagePath timeNs ∧
          t'.files m.path = some (SSTable.fileBytes pairs) := by
  intro inputs merge t'
  have hmerge : merge = mergeSstables t.files inputs := mergeSstables_filter t.files inputs
  refine ⟨?_, ?_, ?_, ?_⟩
  · intro key
    exact (Tables.get_withoutUnreadable hrange memtable key).symm
  · intro startKey endKey
    exact (Tables.readKeyRange_withoutUnreadable hrange memtable startKey endKey).symm
  · intro hrefused
    rw [hmerge] at hrefused
    obtain ⟨content, heq⟩ := compact_refused storagePath timeNs nowMs hrefused
    have hsame : t' = t.setFile (compactedPath storagePath timeNs) content := heq
    rw [hsame]
    exact inPlace_setFile hfree content
  · intro pairs hok hne hfits
    obtain ⟨metadata, hpath, heq⟩ := compact_merged storagePath timeNs nowMs (hmerge ▸ hok) hne hfits
    -- the tables as they are when the new one has been recorded
    generalize hadded : (t.setFile (compactedPath storagePath timeNs)
      (some (SSTable.fileBytes pairs))).addSstable 1 metadata = recorded at heq
    have hsame : t' = removeOldSstableFiles (inputs.foldl removeSstable recorded) inputs := heq
    obtain ⟨hmanifest, hfiles⟩ := files_removeOldSstableFiles (inputs.foldl removeSstable recorded) inputs
      metadata.path
    obtain ⟨hsameFiles, -, hlevel⟩ := foldl_removeSstable recorded inputs
    rw [hsame]
    refine ⟨gone_removed recorded inputs, metadata, ?_, hpath, ?_⟩
    · rw [hmanifest, hlevel, ← hadded]
      show metadata ∈ ((t.setFile _ _).manifest.addEntry 1 metadata).getLevelSstables 1
      rw [Manifest.getLevelSstables_addEntry, if_pos rfl]
      exact List.mem_append_right _ (List.mem_singleton_self _)
    · have hnew : metadata.path ∉ inputs.map SSTableMeta.path := by
        rw [hpath]
        intro hmem
        obtain ⟨m, hm, hmpath⟩ := List.mem_map.mp hmem
        exact hfree m hm hmpath
      rw [hfiles, if_neg hnew, hsameFiles, ← hadded, hpath]
      exact Function.update_self ..

/-! ### Two tables, the newer one lost -/

/-- Two tables of level 0 with the same key; the file of the newer one is missing. -/
def newerLost : Tables :=
  ((Tables.fresh.flushed (sstablePath "db" 1) [([97], [1])] 1).flushed (sstablePath "db" 2)
    [([97], [2])] 2).setFile (sstablePath "db" 2) none

/-- The older value is returned, and a compaction drops the entry of the lost table. -/
theorem unreadable_raises_fails :
    ¬ ∀ (t : Tables) (m : SSTableMeta), m ∈ levelOrder t.manifest 0 → SSTable.unreadable t.files m.path →
      InPlace t (compact "db" 3 3 t) (levelOrder t.manifest 0) ∧
      ∀ key, hexText key = m.minKeyHex → (readOrder t.manifest).head? = some m →
        ∃ err, err ≠ .keyError key ∧ Reading.get (.init 100) t key = .error err := by
  intro h
  have hlost : ∃ m, (readOrder newerLost.manifest).head? = some m ∧ m ∈ levelOrder newerLost.manifest 0 ∧
      SSTable.unreadable newerLost.files m.path ∧ hexText [97] = m.minKeyHex :=
    ⟨(levelOrder newerLost.manifest 0).head (by decide +kernel), by decide +kernel, by decide +kernel,
      by decide +kernel, by decide +kernel⟩
  obtain ⟨m, hfirst, hm, hunreadable, hkey⟩ := hlost
  obtain ⟨err, -, hraised⟩ := (h newerLost m hm hunreadable).2 [97] hkey hfirst
  have hanswer : Reading.get (.init 100) newerLost [97] = .ok [1] := by decide +kernel
  rw [hanswer] at hraised
  cases hraised

theorem unreadable_counts_as_empty_newerLost :
    Reading.get (.init 100) newerLost [97] = Reading.get (.init 100) newerLost.withoutUnreadable [97] ∧
      Gone (compact "db" 3 3 newerLost) (levelOrder newerLost.manifest 0) :=
  let empty := unreadable_counts_as_empty (.init 100) newerLost
    (by
      have hall : ∀ m ∈ readOrder newerLost.manifest, m.minKeyHex = hexText [97] ∧
          m.maxKeyHex = hexText [97] := by decide +kernel
      intro m hm _
      obtain ⟨hmin, hmax⟩ := hall m hm
      exact ⟨⟨[97], hmin ▸ fromHex_hexText _⟩, [97], hmax ▸ fromHex_hexText _⟩)
    "db" 3 3 (by decide +kernel)
  ⟨empty.1 [97], (empty.2.2.2 [([97], [1])] (by decide +kernel) (by decide)
    (SSTable.fits_of_logged (fun p hp => ⟨1, _, (constructRecord_eq ⟨1, p.1, p.2⟩).trans (if_pos (by
      rw [List.mem_singleton.mp hp]
      decide +kernel))⟩) (by decide +kernel))).1⟩

end CompactionManager

end Logvine
