import Logvine.Storage.Reading

/-!
# Skipping tables by their key ranges

`SSTableManager` passes over a table whose recorded least and greatest key exclude the key
or the range asked for; a point is tested against both ends, a range is open at its end.

- `MadeBy`: an entry that `build_metadata` made for the table it names;
- `get_of_outside`, `rangeScan_of_outside`: what is skipped holds nothing of what was asked;
- `filtering_hides_nothing`: reads give what they would give without the tests.

The tests are `sstable_manager.py`, 68 and 91. The bounds are those of the index at the
moment the entry is built (52–60), and a table is not changed afterwards; so they stay right
as long as the file under that path is the same.
-/

namespace Logvine

namespace SSTableManager

/-- The sorted keys of the table under the path of an entry. -/
def fileKeys (files : Files) (sstableMeta : SSTableMeta) : List Bytes :=
  ((metadataToSstable sstableMeta).ensureIndex files).index.sortedKeys

/-- `build_metadata` made the entry, for an object of this path whose index has the keys of
the file. -/
def MadeBy (files : Files) (sstableMeta : SSTableMeta) : Prop :=
  ∃ (table : SSTable) (level nowMs : Nat), table.path = sstableMeta.path ∧
    (table.ensureIndex files).index.sortedKeys = fileKeys files sstableMeta ∧
    buildMetadata files table level nowMs = .ok sstableMeta

/-- `SSTableManager.get` without the test. -/
def lookupAll (files : Files) (key : Bytes) : List SSTableMeta → Except Error (Option Bytes)
  | [] => .ok none
  | sstableMeta :: rest => do
    match ← (metadataToSstable sstableMeta).get files key with
    | some value => return some value
    | none => lookupAll files key rest

/-- The pairs of some tables in a range, one table after the other; the first table that
has a key wins. -/
def scanTables (files : Files) (startKey endKey : Bytes) : List SSTable → Except Error (List (Bytes × Bytes))
  | [] => .ok []
  | sstable :: rest => do
    let items ← sstable.rangeScan files startKey endKey
    let later ← scanTables files startKey endKey rest
    return items ++ later.filter fun item => !(items.map Prod.fst).contains item.1

variable {files : Files} {sstableMeta : SSTableMeta}

/-! ## The recorded range -/

theorem path_of_buildMetadata {table : SSTable} {level nowMs : Nat}
    (h : buildMetadata files table level nowMs = .ok sstableMeta) : sstableMeta.path = table.path := by
  unfold buildMetadata at h
  split at h
  · cases h
  · obtain rfl := Except.ok.inj h
    rfl

/-- The entry of a table that was just opened. -/
theorem madeBy_of_init {path : Path} {level level' nowMs : Nat}
    (h : buildMetadata files (.init path level) level' nowMs = .ok sstableMeta) : MadeBy files sstableMeta := by
  have hpath := path_of_buildMetadata h
  refine ⟨_, level', nowMs, hpath.symm, ?_, h⟩
  have hindex : ((SSTable.init path level).ensureIndex files).index =
      ((metadataToSstable sstableMeta).ensureIndex files).index := by
    rw [metadataToSstable, hpath]
    exact SSTable.index_ensureIndex_init ..
  rw [fileKeys, hindex]

/-- The recorded keys are the first and the last of the table. -/
theorem range_of_madeBy (h : MadeBy files sstableMeta) :
    ∃ hne : fileKeys files sstableMeta ≠ [],
      fromHex sstableMeta.minKeyHex = .ok ((fileKeys files sstableMeta).head hne) ∧
      fromHex sstableMeta.maxKeyHex = .ok ((fileKeys files sstableMeta).getLast hne) := by
  obtain ⟨table, level, nowMs, -, hkeys, hbuild⟩ := h
  rw [buildMetadata, hkeys] at hbuild
  cases hfile : fileKeys files sstableMeta with
  | nil =>
    rw [hfile] at hbuild
    cases hbuild
  | cons key keys =>
    rw [hfile] at hbuild
    obtain rfl := Except.ok.inj hbuild
    exact ⟨List.cons_ne_nil key keys, fromHex_hexText _, fromHex_hexText _⟩

/-- All keys of a table lie in its range. -/
theorem between_of_mem (hne : fileKeys files sstableMeta ≠ []) {key : Bytes} (hkey : key ∈ fileKeys files sstableMeta) :
    (fileKeys files sstableMeta).head hne ≤ key ∧ key ≤ (fileKeys files sstableMeta).getLast hne := by
  have hsorted : (fileKeys files sstableMeta).Pairwise (· ≤ ·) :=
    (Dict.sortedKeys_pairwise _).imp fun hlt => le_of_lt hlt
  exact ⟨hsorted.rel_head hkey, hsorted.rel_getLast hkey⟩

/-! ## What is skipped -/

/-- A key outside the range is not in the table. -/
theorem get_of_outside (hne : fileKeys files sstableMeta ≠ []) {key : Bytes}
    (hout : key < (fileKeys files sstableMeta).head hne ∨ (fileKeys files sstableMeta).getLast hne < key) :
    (metadataToSstable sstableMeta).get files key = .ok none := by
  have hnot : key ∉ fileKeys files sstableMeta := by
    intro hkey
    obtain ⟨hmin, hmax⟩ := between_of_mem hne hkey
    rcases hout with hlt | hlt
    · exact absurd hlt (not_lt.mpr hmin)
    · exact absurd hlt (not_lt.mpr hmax)
  refine SSTable.get_of_not_mem ?_
  rwa [← (Dict.sortedKeys_perm _).mem_iff]

/-- A table whose range does not meet the range asked for has nothing in it, also if that
one is inverted. -/
theorem rangeScan_of_outside (hne : fileKeys files sstableMeta ≠ []) {startKey endKey : Bytes}
    (hout : endKey ≤ (fileKeys files sstableMeta).head hne ∨ (fileKeys files sstableMeta).getLast hne < startKey) :
    (metadataToSstable sstableMeta).rangeScan files startKey endKey = .ok [] := by
  have hnil : SSTable.keysInRange ((metadataToSstable sstableMeta).ensureIndex files).index startKey endKey = [] := by
    refine List.filter_eq_nil_iff.mpr fun key hkey hstart => ?_
    obtain ⟨hmin, hmax⟩ := between_of_mem hne ((List.takeWhile_sublist _).subset hkey)
    have hend : key < endKey := by simpa using List.mem_takeWhile_imp hkey
    rcases hout with hle | hlt
    · exact absurd (lt_of_lt_of_le hend hle) (not_lt.mpr hmin)
    · exact absurd (lt_of_lt_of_le hlt (of_decide_eq_true hstart)) (not_lt.mpr hmax)
  exact congrArg (((metadataToSstable sstableMeta).ensureIndex files).readItems files) hnil

/-! ## Reads with and without the tests -/

/-- A lookup finds the same, or raises the same. -/
theorem lookup_eq_lookupAll {metas : List SSTableMeta} (h : ∀ m ∈ metas, MadeBy files m) (key : Bytes) :
    lookup files key metas = lookupAll files key metas := by
  induction metas with
  | nil => rfl
  | cons m metas ih =>
    obtain ⟨hm, hrest⟩ := List.forall_mem_cons.mp h
    obtain ⟨hne, hmin, hmax⟩ := range_of_madeBy hm
    rw [lookup, lookupAll, hmin, hmax]
    show (if key < _ ∨ _ < key then lookup files key metas else _) = _
    split
    · next hout =>
      rw [get_of_outside hne hout]
      exact ih hrest
    · cases (metadataToSstable m).get files key with
      | error err => rfl
      | ok value =>
        cases value with
        | none => exact ih hrest
        | some value => rfl

/-- A table without pairs adds nothing to those behind it. -/
theorem scanTables_nil (later : Except Error (List (Bytes × Bytes))) :
    (do
      let items ← (.ok [] : Except Error (List (Bytes × Bytes)))
      let later ← later
      return items ++ later.filter fun item => !(items.map Prod.fst).contains item.1) = later := by
  cases later with
  | error err => rfl
  | ok items =>
    show Except.ok ([] ++ items.filter fun item => !([] : List Bytes).contains item.1) = _
    rw [List.nil_append, List.filter_eq_self.mpr (by simp)]

/-- The tables that overlap a range scan to the same pairs as all of them, and so does the
loop of `read_key_range`, whatever it has collected before. -/
theorem scan_overlapping {metas : List SSTableMeta} (h : ∀ m ∈ metas, MadeBy files m) (startKey endKey : Bytes) :
    ∃ kept, overlapping startKey endKey metas = .ok kept ∧
      scanTables files startKey endKey (kept.map metadataToSstable) =
        scanTables files startKey endKey (metas.map metadataToSstable) ∧
      ∀ acc, Reading.collectTables files startKey endKey (kept.map metadataToSstable) acc =
        Reading.collectTables files startKey endKey (metas.map metadataToSstable) acc := by
  induction metas with
  | nil => exact ⟨[], rfl, rfl, fun _ => rfl⟩
  | cons m metas ih =>
    obtain ⟨hm, hrest⟩ := List.forall_mem_cons.mp h
    obtain ⟨hne, hmin, hmax⟩ := range_of_madeBy hm
    obtain ⟨kept, hkept, hscan, hcollect⟩ := ih hrest
    by_cases hout : endKey ≤ (fileKeys files m).head hne ∨ (fileKeys files m).getLast hne < startKey
    · refine ⟨kept, ?_, ?_, fun acc => ?_⟩
      · rw [overlapping, hmin, hmax, hkept]
        exact congrArg Except.ok (if_pos hout)
      · rw [hscan, List.map_cons, scanTables, rangeScan_of_outside hne hout]
        exact (scanTables_nil _).symm
      · rw [hcollect, List.map_cons, Reading.collectTables, rangeScan_of_outside hne hout]
        rfl
    · refine ⟨m :: kept, ?_, ?_, fun acc => ?_⟩
      · rw [overlapping, hmin, hmax, hkept]
        exact congrArg Except.ok (if_neg hout)
      · rw [List.map_cons, List.map_cons, scanTables, scanTables, hscan]
      · rw [List.map_cons, List.map_cons, Reading.collectTables, Reading.collectTables]
        cases (metadataToSstable m).rangeScan files startKey endKey with
        | error err => rfl
        | ok items => exact hcollect _

/-- **Filtering by key range hides nothing.** If `build_metadata` made all entries, a lookup
gives what the lookup without the test gives, and the tables chosen for a range give the
pairs that all tables give, in the order in which they are read. -/
theorem filtering_hides_nothing {manifest : Manifest}
    (h : ∀ m ∈ (iterSstableMetadata manifest none true).map Prod.snd, MadeBy files m) :
    (∀ key, get manifest files key =
        lookupAll files key ((iterSstableMetadata manifest none true).map Prod.snd)) ∧
      ∀ startKey endKey, ∃ sstables, getOverlappingSstables manifest startKey endKey = .ok sstables ∧
        scanTables files startKey endKey sstables =
          scanTables files startKey endKey
            (((iterSstableMetadata manifest none true).map Prod.snd).map metadataToSstable) ∧
        ∀ acc, Reading.collectTables files startKey endKey sstables acc =
          Reading.collectTables files startKey endKey
            (((iterSstableMetadata manifest none true).map Prod.snd).map metadataToSstable) acc := by
  refine ⟨fun key => lookup_eq_lookupAll h key, fun startKey endKey => ?_⟩
  obtain ⟨kept, hkept, hscan, hcollect⟩ := scan_overlapping h startKey endKey
  refine ⟨kept.map metadataToSstable, ?_, hscan, hcollect⟩
  rw [getOverlappingSstables, hkept]
  rfl

/-! ## Two tables that share a key -/

/-- A newer table with the empty key and a deletion, an older one with a value for it. -/
def twoFiles : Files := fun path =>
  if path = "new" then some (SSTable.fileBytes [([], [49]), ([97], tombstone)])
  else if path = "old" then some (SSTable.fileBytes [([97], [50]), ([97, 98], [51])])
  else none

def newEntry : SSTableMeta := ⟨"new", 0, some 2, 64, 2, "", "61"⟩

def oldEntry : SSTableMeta := ⟨"old", 0, some 1, 56, 2, "61", "6162"⟩

/-- A lookup of the deleted key, and an inverted range. -/
theorem filtering_hides_nothing_twoFiles :
    let manifest := ((Manifest.load none).addEntry 0 newEntry).addEntry 0 oldEntry
    get manifest twoFiles [97] = lookupAll twoFiles [97] [newEntry, oldEntry] ∧
      ∃ sstables, getOverlappingSstables manifest [98] [97] = .ok sstables ∧
        scanTables twoFiles [98] [97] sstables =
          scanTables twoFiles [98] [97] [metadataToSstable newEntry, metadataToSstable oldEntry] := by
  intro manifest
  have hread : (iterSstableMetadata manifest none true).map Prod.snd = [newEntry, oldEntry] := by decide +kernel
  have hnew : buildMetadata twoFiles (.init "new" 0) 0 2 = .ok newEntry := by decide +kernel
  have hold : buildMetadata twoFiles (.init "old" 0) 0 1 = .ok oldEntry := by decide +kernel
  have hall : ∀ m ∈ (iterSstableMetadata manifest none true).map Prod.snd, MadeBy twoFiles m := by
    rw [hread]
    exact List.forall_mem_cons.mpr ⟨madeBy_of_init hnew, List.forall_mem_singleton.mpr (madeBy_of_init hold)⟩
  obtain ⟨hget, hscan⟩ := filtering_hides_nothing hall
  obtain ⟨sstables, hover, hsame, -⟩ := hscan [98] [97]
  rw [hread] at hget hsame
  exact ⟨hget [97], sstables, hover, hsame⟩

end SSTableManager

end Logvine
