import Logvine.Base.Recency
import Logvine.Storage.Manifest

/-!
# Reading through the manifest

`SSTableManager` consults the listed tables by increasing level and, within a
level, newest first by creation time, then path, then place in the list, and
skips tables whose recorded key range excludes the key.

- `lookup_eq`: if every listed table is readable, a lookup is the `resolve` of the
  tables' contents in that order; the key ranges do not matter;
- `readOrder_eq`: the order is level 0, level 1 and the deeper levels, so that an
  update of the first two levels leaves the rest alone;
- `tablesLayer_addEntry`: a newer table of level 0 goes over everything;
- `lists_buildMetadata`: what is written and described as flush and compaction do
  is readable.

The order is `sstable_manager.py`, 29–39, the skipping 66–73 and 89–96. Newest is what
`created_at_ms` says, which is read from the clock when the entry is built (56): it is the
order of the flushes as long as the clock moves on, and `Logvine.Storage.FlushOrder` says
what happens when it does not.
-/

namespace Logvine

open Layer

/-- The key `iter_sstable_metadata` sorts by, up to the place in the list. -/
def SSTableMeta.stamp (metadata : SSTableMeta) : Nat ×ₗ String :=
  toLex (metadata.createdAtMs.getD 0, metadata.path)

namespace SSTableManager

/-- `SSTableManager.iter_sstable_metadata`. -/
def iterSstableMetadata (manifest : Manifest) (level : Option Nat) (newest : Bool) :
    List (Nat × SSTableMeta) :=
  let levelEntries := match level with
    | none => manifest.iterLevels
    -- an unknown level counts as an empty one
    | some level => [(level, manifest.getLevelSstables level)]
  levelEntries.flatMap fun item =>
    (if newest then newestFirst SSTableMeta.stamp item.2 else oldestFirst SSTableMeta.stamp item.2).map
      fun sstableMeta => (item.1, sstableMeta)

/-- `SSTableManager.metadata_to_sstable`. -/
def metadataToSstable (sstableMeta : SSTableMeta) : SSTable := .init sstableMeta.path sstableMeta.level

/-- `SSTableManager.build_metadata`, with the reading of the clock. -/
def buildMetadata (files : Files) (sstable : SSTable) (level nowMs : Nat) : Except Error SSTableMeta :=
  match (sstable.ensureIndex files).index.sortedKeys with
  | [] => .error (.valueError ("SSTable index is empty for " ++ sstable.path))
  | key :: keys => .ok
    { path := sstable.path
      level := level
      createdAtMs := some nowMs
      sizeBytes := ((files sstable.path).map List.length).getD 0
      entryCount := (key :: keys).length
      minKeyHex := hexText key
      maxKeyHex := hexText ((key :: keys).getLast (List.cons_ne_nil key keys)) }

/-- `bytes.fromhex`. -/
def fromHex (s : String) : Except Error Bytes :=
  match ofHexText s with
  | some bs => .ok bs
  | none => .error (.valueError "non-hexadecimal number found in fromhex() arg")

/-- The loop of `SSTableManager.get`. -/
def lookup (files : Files) (key : Bytes) : List SSTableMeta → Except Error (Option Bytes)
  | [] => .ok none
  | sstableMeta :: rest => do
    let minKey ← fromHex sstableMeta.minKeyHex
    let maxKey ← fromHex sstableMeta.maxKeyHex
    if key < minKey ∨ maxKey < key then lookup files key rest
    else
      match ← (metadataToSstable sstableMeta).get files key with
      | some value => return some value
      | none => lookup files key rest

/-- `SSTableManager.get`. -/
def get (manifest : Manifest) (files : Files) (key : Bytes) : Except Error (Option Bytes) :=
  lookup files key ((iterSstableMetadata manifest none true).map Prod.snd)

/-- The loop of `SSTableManager.get_overlapping_sstables`. -/
def overlapping (startKey endKey : Bytes) : List SSTableMeta → Except Error (List SSTableMeta)
  | [] => .ok []
  | sstableMeta :: rest => do
    let minKey ← fromHex sstableMeta.minKeyHex
    let maxKey ← fromHex sstableMeta.maxKeyHex
    let later ← overlapping startKey endKey rest
    return if endKey ≤ minKey ∨ maxKey < startKey then later else sstableMeta :: later

/-- `SSTableManager.get_overlapping_sstables`. -/
def getOverlappingSstables (manifest : Manifest) (startKey endKey : Bytes) :
    Except Error (List SSTable) :=
  (overlapping startKey endKey ((iterSstableMetadata manifest none true).map Prod.snd)).map
    (List.map metadataToSstable)

/-! ## Readable tables -/

/-- The entry describes the file under its path, which is the table of `pairs`. -/
structure Lists (files : Files) (sstableMeta : SSTableMeta) (pairs : List (Bytes × Bytes)) : Prop where
  holds : SSTable.Holds files sstableMeta.path pairs
  nonempty : pairs ≠ []
  minKeyHex : sstableMeta.minKeyHex = hexText (pairs.head nonempty).1
  maxKeyHex : sstableMeta.maxKeyHex = hexText (pairs.getLast nonempty).1

/-- The entry describes some table. -/
def Readable (files : Files) (sstableMeta : SSTableMeta) : Prop :=
  ∃ pairs, Lists files sstableMeta pairs

/-- What a table answers, by key. -/
def tableLayer (files : Files) (sstableMeta : SSTableMeta) : Layer Bytes Bytes := fun key =>
  match (metadataToSstable sstableMeta).get files key with
  | .ok value => value
  | .error _ => none

variable {files : Files} {sstableMeta : SSTableMeta} {pairs : List (Bytes × Bytes)}

/-- A readable table answers as its list of pairs. -/
theorem get_of_lists (h : Lists files sstableMeta pairs) (key : Bytes) :
    (metadataToSstable sstableMeta).get files key = .ok (assoc pairs key) :=
  SSTable.get_of_holds (t := metadataToSstable sstableMeta) h.holds (.inl rfl) key

/-- So its layer is that list. -/
theorem tableLayer_of_lists (h : Lists files sstableMeta pairs) :
    tableLayer files sstableMeta = assoc pairs := by
  funext key
  rw [tableLayer, get_of_lists h]

/-- Ascending keys lie between the first and the last. -/
theorem between_of_assoc {pairs : List (Bytes × Bytes)} (h : Ascending pairs) (hne : pairs ≠ [])
    {key value : Bytes} (hkey : assoc pairs key = some value) :
    (pairs.head hne).1 ≤ key ∧ key ≤ (pairs.getLast hne).1 := by
  have hmem := mem_of_assoc hkey
  have hle : pairs.Pairwise fun x y => x.1 ≤ y.1 := h.imp fun hlt => le_of_lt hlt
  exact ⟨hle.rel_head_of_rel_head_head hmem (le_refl _), hle.rel_getLast_of_rel_getLast_getLast hmem (le_refl _)⟩

/-- A key outside the recorded range is not in the table. -/
theorem assoc_of_outside (h : Lists files sstableMeta pairs) {key : Bytes}
    (hout : key < (pairs.head h.nonempty).1 ∨ (pairs.getLast h.nonempty).1 < key) :
    assoc pairs key = none := by
  cases hkey : assoc pairs key with
  | none => rfl
  | some value =>
    obtain ⟨hmin, hmax⟩ := between_of_assoc h.holds.ascending h.nonempty hkey
    rcases hout with hout | hout
    · exact absurd hout (not_lt.mpr hmin)
    · exact absurd hout (not_lt.mpr hmax)

/-- A bound of the key range is read back from the manifest. -/
theorem fromHex_hexText (bs : Bytes) : fromHex (hexText bs) = .ok bs := by
  rw [fromHex, ofHexText_hexText]

/-- **Lookups resolve**: with readable tables, a lookup gives the first table's
answer that there is, whatever the recorded key ranges skip. -/
theorem lookup_eq {metas : List SSTableMeta} (h : ∀ m ∈ metas, Readable files m) (key : Bytes) :
    lookup files key metas = .ok (resolve (metas.map (tableLayer files)) key) := by
  induction metas with
  | nil => rfl
  | cons m metas ih =>
    obtain ⟨pairs, hm⟩ := h m List.mem_cons_self
    have hrest := ih fun m' hm' => h m' (List.mem_cons_of_mem _ hm')
    rw [lookup, hm.minKeyHex, hm.maxKeyHex, fromHex_hexText, fromHex_hexText, List.map_cons,
      resolve_cons, above_apply, tableLayer_of_lists hm]
    show (if key < (pairs.head hm.nonempty).1 ∨ (pairs.getLast hm.nonempty).1 < key then
      lookup files key metas else _) = _
    -- a table that is skipped does not hold the key
    split
    · next hout => rw [assoc_of_outside hm hout, hrest, Option.none_or]
    · rw [get_of_lists hm]
      cases hkey : assoc pairs key with
      | none => exact hrest
      | some value => rfl

theorem ensureIndex_congr {files files' : Files} {t : SSTable} (h : files' t.path = files t.path) :
    t.ensureIndex files' = t.ensureIndex files := by
  rw [SSTable.ensureIndex, SSTable.ensureIndex, SSTable.loadIndex, SSTable.loadIndex, h]

/-- So is its entry built from it. -/
theorem buildMetadata_congr {files files' : Files} {t : SSTable} (h : files' t.path = files t.path)
    (level nowMs : Nat) : buildMetadata files' t level nowMs = buildMetadata files t level nowMs := by
  rw [buildMetadata, buildMetadata, ensureIndex_congr h, h]

/-- A table is asked through its file only. -/
theorem get_congr {files files' : Files} {t : SSTable} (h : files' t.path = files t.path) (key : Bytes) :
    t.get files' key = t.get files key := by
  have hvalue : ∀ offset, SSTable.readValue files' t.path offset = SSTable.readValue files t.path offset := by
    intro offset
    rw [SSTable.readValue, SSTable.readValue, h]
  rw [SSTable.get, SSTable.get, ensureIndex_congr h]
  cases (t.ensureIndex files).index.get? key with
  | none => rfl
  | some offset => exact congrArg (Except.map some) (hvalue offset)

/-- A table's answers depend on its own file only. -/
theorem tableLayer_congr {files files' : Files} {m : SSTableMeta} (h : files' m.path = files m.path) :
    tableLayer files' m = tableLayer files m := by
  funext key
  have := get_congr (t := metadataToSstable m) h key
  rw [tableLayer, tableLayer, this]

/-- Nor does it matter which entry of that path asks. -/
theorem tableLayer_of_path {m m' : SSTableMeta} (h : m.path = m'.path) :
    tableLayer files m = tableLayer files m' := by
  have hindex : ((metadataToSstable m).ensureIndex files).index =
      ((metadataToSstable m').ensureIndex files).index := by
    rw [metadataToSstable, metadataToSstable, h]
    exact SSTable.index_ensureIndex_init ..
  funext key
  rw [tableLayer, tableLayer, SSTable.get, SSTable.get, hindex,
    show (metadataToSstable m).path = (metadataToSstable m').path from h]

/-- What a table lists depends on its own file. -/
theorem Lists.congr {files files' : Files} {m : SSTableMeta} {pairs : List (Bytes × Bytes)}
    (h : Lists files m pairs) (hfile : files' m.path = files m.path) : Lists files' m pairs :=
  ⟨⟨hfile.trans h.holds.file, h.holds.ascending, h.holds.fits⟩, h.nonempty, h.minKeyHex, h.maxKeyHex⟩

/-- So does whether it is readable. -/
theorem Readable.congr {files files' : Files} {m : SSTableMeta} (h : Readable files m)
    (hfile : files' m.path = files m.path) : Readable files' m := by
  obtain ⟨pairs, hm⟩ := h
  exact ⟨pairs, hm.congr hfile⟩

/-- Describing a table right after it was written. -/
theorem lists_buildMetadata {files : Files} {t : SSTable} {pairs : List (Bytes × Bytes)}
    (h : SSTable.Holds files t.path pairs) (hi : SSTable.IndexOf t pairs) (hne : pairs ≠ [])
    (level nowMs : Nat) :
    ∃ m, buildMetadata files t level nowMs = .ok m ∧ Lists files m pairs ∧
      m.path = t.path ∧ m.level = level ∧ m.createdAtMs = some nowMs := by
  have hkeys := SSTable.sortedKeys_ensureIndex h hi
  obtain ⟨p, ps, rfl⟩ := List.exists_cons_of_ne_nil hne
  rw [buildMetadata, hkeys]
  refine ⟨_, rfl, ⟨h, hne, rfl, ?_⟩, rfl, rfl, rfl⟩
  show hexText (((p :: ps).map Prod.fst).getLast _) = _
  rw [List.getLast_map]

/-! ## The read order -/

/-- The tables of a level, newest first. -/
def levelOrder (manifest : Manifest) (level : Nat) : List SSTableMeta :=
  newestFirst SSTableMeta.stamp (manifest.getLevelSstables level)

/-- All tables in the order a lookup consults them. -/
def readOrder (manifest : Manifest) : List SSTableMeta :=
  manifest.iterLevels.flatMap fun item => newestFirst SSTableMeta.stamp item.2

/-- The tables of the levels behind the first two. -/
def deeperOrder (manifest : Manifest) : List SSTableMeta :=
  (manifest.iterLevels.filter fun item => 1 < item.1).flatMap fun item =>
    newestFirst SSTableMeta.stamp item.2

/-- `iter_sstable_metadata` with the newest first is the order of reading. -/
theorem map_snd_iterSstableMetadata (manifest : Manifest) :
    (iterSstableMetadata manifest none true).map Prod.snd = readOrder manifest := by
  rw [iterSstableMetadata, List.map_flatMap]
  refine congrArg (fun f => List.flatMap f manifest.iterLevels) (funext ?_)
  intro item
  rw [if_pos rfl, List.map_map]
  exact List.map_id _

/-- The same for one level. -/
theorem map_snd_iterSstableMetadata_level (manifest : Manifest) (level : Nat) :
    (iterSstableMetadata manifest (some level) true).map Prod.snd = levelOrder manifest level := by
  rw [iterSstableMetadata]
  show ([(level, manifest.getLevelSstables level)].flatMap _).map Prod.snd = _
  rw [List.flatMap_singleton, if_pos rfl, List.map_map]
  exact List.map_id _

/-- An ascending list begins with what it holds for its least possible key. -/
theorem ascending_split {ν : Type} {l : List (Nat × ν)} (h : Ascending l) {n : Nat}
    (hle : ∀ p ∈ l, n ≤ p.1) :
    l = (assoc l n).toList.map (fun v => (n, v)) ++ l.filter fun p => n < p.1 := by
  cases l with
  | nil => rfl
  | cons p l =>
    obtain ⟨hhead, -⟩ := List.pairwise_cons.mp h
    have hlater : ∀ q ∈ l, n < q.1 := fun q hq =>
      Nat.lt_of_le_of_lt (hle p List.mem_cons_self) (hhead q hq)
    have hfilter : (l.filter fun q => decide (n < q.1)) = l :=
      List.filter_eq_self.mpr fun q hq => decide_eq_true (hlater q hq)
    obtain ⟨key, value⟩ := p
    rw [assoc_cons]
    by_cases hkey : key = n
    · subst hkey
      simp [hfilter]
    · have hlt : n < key := Nat.lt_of_le_of_ne (hle _ List.mem_cons_self) (Ne.symm hkey)
      have hnone : assoc l n = none :=
        assoc_eq_none_iff.mpr fun hmem => by
          obtain ⟨q, hq, hqn⟩ := List.mem_map.mp hmem
          exact absurd (hlater q hq) (by omega)
      simp [hkey, hnone, hlt, hfilter]

theorem flatMap_toList_newestFirst (entries : Option (List SSTableMeta)) (n : Nat) :
    ((entries.toList.map fun v => (n, v)).flatMap fun item => newestFirst SSTableMeta.stamp item.2) =
      newestFirst SSTableMeta.stamp (entries.getD []) := by
  cases entries with
  | none => rfl
  | some l => simp

/-- Level 0, level 1, and the rest. -/
theorem readOrder_eq (manifest : Manifest) :
    readOrder manifest = levelOrder manifest 0 ++ (levelOrder manifest 1 ++ deeperOrder manifest) := by
  have hasc : Ascending manifest.iterLevels := manifest.levels.sortedItems_ascending
  have hget : ∀ n, assoc manifest.iterLevels n = manifest.levels.get? n :=
    fun n => manifest.levels.assoc_sortedItems n
  -- take level 0 off the front of the sorted levels, then level 1
  have hsplit0 := ascending_split hasc (n := 0) fun _ _ => Nat.zero_le _
  have hsplit1 := ascending_split (l := manifest.iterLevels.filter fun p => decide (0 < p.1))
    (hasc.sublist List.filter_sublist) (n := 1)
    fun p hp => Nat.succ_le_of_lt (by simpa using (List.mem_filter.mp hp).2)
  have hget1 : assoc (manifest.iterLevels.filter fun p => decide (0 < p.1)) 1 =
      manifest.levels.get? 1 := by
    rw [assoc_filter_fst fun n => decide (0 < n), ← hget]
    rfl
  have hdeeper : ((manifest.iterLevels.filter fun p => decide (0 < p.1)).filter
      fun p => decide (1 < p.1)) = manifest.iterLevels.filter fun p => decide (1 < p.1) := by
    rw [List.filter_filter]
    refine List.filter_congr ?_
    intro p _
    by_cases hp : 1 < p.1
    · simp [hp, Nat.lt_of_succ_lt hp]
    · simp [hp]
  rw [hget] at hsplit0
  rw [hget1, hdeeper] at hsplit1
  rw [readOrder, hsplit0, List.flatMap_append, flatMap_toList_newestFirst, hsplit1,
    List.flatMap_append, flatMap_toList_newestFirst]
  rfl

/-- Every entry of every level is read. -/
theorem mem_readOrder {manifest : Manifest} {m : SSTableMeta} :
    m ∈ readOrder manifest ↔ ∃ level, m ∈ manifest.getLevelSstables level := by
  simp only [readOrder, List.mem_flatMap, mem_newestFirst]
  constructor
  · rintro ⟨⟨level, entries⟩, hitem, hm⟩
    have := (manifest.levels.get?_eq_some_iff).mpr (manifest.levels.sortedItems_perm.mem_iff.mp hitem)
    exact ⟨level, by rwa [Manifest.getLevelSstables, this]⟩
  · rintro ⟨level, hm⟩
    rw [Manifest.getLevelSstables] at hm
    cases hget : manifest.levels.get? level with
    | none =>
      rw [hget] at hm
      cases hm
    | some entries =>
      rw [hget] at hm
      exact ⟨(level, entries), manifest.levels.sortedItems_perm.mem_iff.mpr
        (manifest.levels.get?_eq_some_iff.mp hget), hm⟩

/-- The deeper levels stay when one of the first two is set. -/
theorem deeperOrder_set (manifest manifest' : Manifest) {level : Nat} (hlevel : level ≤ 1)
    {entries : List SSTableMeta} (h : manifest'.levels = manifest.levels.set level entries) :
    deeperOrder manifest' = deeperOrder manifest := by
  have hfilter : (manifest'.iterLevels.filter fun item => decide (1 < item.1)) =
      manifest.iterLevels.filter fun item => decide (1 < item.1) := by
    refine Ascending.ext (manifest'.levels.sortedItems_ascending.sublist List.filter_sublist)
      (manifest.levels.sortedItems_ascending.sublist List.filter_sublist) ?_
    intro n
    rw [assoc_filter_fst fun n => decide (1 < n), assoc_filter_fst fun n => decide (1 < n)]
    split
    · next hn =>
      have hne : level ≠ n := by
        have := of_decide_eq_true hn
        omega
      show assoc manifest'.levels.sortedItems n = assoc manifest.levels.sortedItems n
      rw [Dict.assoc_sortedItems, Dict.assoc_sortedItems, h, Dict.get?_set, if_neg hne]
    · rfl
  rw [deeperOrder, deeperOrder, hfilter]

/-! ## What the tables answer -/

/-- What a lookup answers, by key. -/
def tablesLayer (files : Files) (manifest : Manifest) : Layer Bytes Bytes :=
  resolve ((readOrder manifest).map (tableLayer files))

/-- All listed tables are readable. -/
def AllReadable (files : Files) (manifest : Manifest) : Prop :=
  ∀ m ∈ readOrder manifest, Readable files m

/-- Over readable tables `get` raises nothing and answers with their layer. -/
theorem get_eq {manifest : Manifest} (h : AllReadable files manifest) (key : Bytes) :
    get manifest files key = .ok (tablesLayer files manifest key) := by
  rw [get, map_snd_iterSstableMetadata]
  exact lookup_eq h key

/-- Level 0 lies above level 1, and both above the levels below. -/
theorem tablesLayer_eq (files : Files) (manifest : Manifest) :
    tablesLayer files manifest =
      above (resolve ((levelOrder manifest 0).map (tableLayer files)))
        (above (resolve ((levelOrder manifest 1).map (tableLayer files)))
          (resolve ((deeperOrder manifest).map (tableLayer files)))) := by
  rw [tablesLayer, readOrder_eq, List.map_append, List.map_append, resolve_append, resolve_append]

/-- Files that no entry names do not matter. -/
theorem tablesLayer_congr {files files' : Files} {manifest : Manifest}
    (h : ∀ m ∈ readOrder manifest, files' m.path = files m.path) :
    tablesLayer files' manifest = tablesLayer files manifest := by
  rw [tablesLayer, tablesLayer]
  exact congrArg resolve (List.map_congr_left fun m hm => tableLayer_congr (h m hm))

/-- Readability depends on the files of the entries only. -/
theorem AllReadable.congr {files files' : Files} {manifest : Manifest} (h : AllReadable files manifest)
    (hfiles : ∀ m ∈ readOrder manifest, files' m.path = files m.path) :
    AllReadable files' manifest :=
  fun m hm => (h m hm).congr (hfiles m hm)

/-- `add_sstable` adds one entry to those that are read. -/
theorem mem_readOrder_addEntry {manifest : Manifest} {level : Nat} {m m' : SSTableMeta} :
    m' ∈ readOrder (manifest.addEntry level m) ↔ m' = m ∨ m' ∈ readOrder manifest := by
  simp only [mem_readOrder, Manifest.getLevelSstables_addEntry]
  constructor
  · rintro ⟨l, hl⟩
    split at hl
    · rcases List.mem_append.mp hl with hl | hl
      · exact .inr ⟨level, hl⟩
      · exact .inl (List.mem_singleton.mp hl)
    · exact .inr ⟨l, hl⟩
  · rintro (rfl | ⟨l, hl⟩)
    · exact ⟨level, by rw [if_pos rfl]; exact List.mem_append_right _ (List.mem_singleton_self _)⟩
    · refine ⟨l, ?_⟩
      split
      · next heq => exact heq ▸ List.mem_append_left _ (heq ▸ hl)
      · exact hl

/-- A readable entry keeps all entries readable. -/
theorem AllReadable.addEntry {manifest : Manifest} (h : AllReadable files manifest) {level : Nat}
    {m : SSTableMeta} (hm : Readable files m) : AllReadable files (manifest.addEntry level m) := by
  intro m' hm'
  rcases mem_readOrder_addEntry.mp hm' with rfl | hm'
  · exact hm
  · exact h m' hm'

/-- Recording a table at level 0 adds it to what is listed. -/
theorem readOrder_addEntry_perm (manifest : Manifest) (m : SSTableMeta) :
    (readOrder (manifest.addEntry 0 m)).Perm (m :: readOrder manifest) := by
  have h0 : (levelOrder (manifest.addEntry 0 m) 0).Perm (m :: levelOrder manifest 0) := by
    rw [levelOrder, Manifest.getLevelSstables_addEntry, if_pos rfl]
    refine (newestFirst_perm _ _).trans (List.perm_append_comm.trans ?_)
    exact (newestFirst_perm SSTableMeta.stamp _).symm.cons m
  have h1 : levelOrder (manifest.addEntry 0 m) 1 = levelOrder manifest 1 := by
    rw [levelOrder, Manifest.getLevelSstables_addEntry, if_neg (by decide), levelOrder]
  rw [readOrder_eq, readOrder_eq, h1, deeperOrder_set manifest _ (Nat.zero_le 1) rfl]
  exact h0.append_right _

/-- The newest table of level 0 answers before all others. -/
theorem tablesLayer_addEntry {manifest : Manifest} {m : SSTableMeta}
    (hnew : ∀ m' ∈ manifest.getLevelSstables 0, m'.stamp ≤ m.stamp) :
    tablesLayer files (manifest.addEntry 0 m) = above (tableLayer files m) (tablesLayer files manifest) := by
  have h0 : levelOrder (manifest.addEntry 0 m) 0 = m :: levelOrder manifest 0 := by
    rw [levelOrder, Manifest.getLevelSstables_addEntry, if_pos rfl]
    exact newestFirst_concat_of_le _ hnew
  have h1 : levelOrder (manifest.addEntry 0 m) 1 = levelOrder manifest 1 := by
    rw [levelOrder, Manifest.getLevelSstables_addEntry, if_neg (by decide)]
    rfl
  rw [tablesLayer_eq, h0, h1, deeperOrder_set manifest _ (Nat.zero_le 1) rfl, List.map_cons,
    resolve_cons, above_assoc, ← tablesLayer_eq]

/-- A greater creation time makes a greater stamp, whatever the paths. -/
theorem stamp_le_of_lt {m m' : SSTableMeta} (h : m.createdAtMs.getD 0 < m'.createdAtMs.getD 0) :
    m.stamp ≤ m'.stamp :=
  Prod.Lex.toLex_le_toLex.mpr (.inl h)

end SSTableManager

end Logvine
