import Logvine.Storage.SSTableManager

/-!
# The tables of a directory

The table files of a storage directory together with its manifest, and the three
moves flush and compaction are made of: write a table file, describe it, record it.

- `layer_setFile`, `readable_setFile`: a file under a name that no entry uses changes
  no answer;
- `write_spec`: a written table can be described, and its entry is readable;
- `layer_addSstable`: recording it as the newest of level 0 puts its pairs over
  everything else.

A table is written and described before the manifest names it (`engine.py`, 306–310;
`compaction.py`, 131–136). Until then nobody reads its file, unless the name is one that an
entry has already; this is why the lemmas ask for a free name.
-/

namespace Logvine

open Layer SSTableManager

/-- The table files and the manifest of a storage directory. -/
structure Tables where
  files : Files
  manifest : Manifest

/-- The name `LSMStorageEngine.flush` writes to at `nowMs`. -/
def sstablePath (storagePath : Path) (nowMs : Nat) : Path :=
  storagePath ++ "/sstable_" ++ toString nowMs ++ ".sst"

/-- The name `CompactionManager.compact` writes to at `nowNs`. -/
def compactedPath (storagePath : Path) (nowNs : Nat) : Path :=
  storagePath ++ "/sstable_compacted_" ++ toString nowNs ++ ".sst"

namespace Tables

/-- What the tables answer, by key. -/
def layer (t : Tables) : Layer Bytes Bytes := tablesLayer t.files t.manifest

/-- Every listed table is readable. -/
def Readable (t : Tables) : Prop := AllReadable t.files t.manifest

/-- The path is listed in the manifest. -/
def Listed (t : Tables) (path : Path) : Prop := ∃ m ∈ readOrder t.manifest, m.path = path

instance (t : Tables) (path : Path) : Decidable (t.Listed path) :=
  inferInstanceAs (Decidable (∃ m ∈ readOrder t.manifest, m.path = path))

/-- `SSTableManager.get`. -/
def get (t : Tables) (key : Bytes) : Except Error (Option Bytes) :=
  SSTableManager.get t.manifest t.files key

/-- Write a table file. -/
def write (t : Tables) (sstable : SSTable) (pairs : List (Bytes × Bytes)) :
    Tables × Except Error SSTable :=
  ({ t with files := (sstable.write t.files pairs).1 }, (sstable.write t.files pairs).2)

/-- Describe a table file. -/
def buildMetadata (t : Tables) (sstable : SSTable) (level nowMs : Nat) : Except Error SSTableMeta :=
  SSTableManager.buildMetadata t.files sstable level nowMs

/-- Record a table, in memory and in the manifest file. -/
def addSstable (t : Tables) (level : Nat) (metadata : SSTableMeta) : Tables :=
  { t with manifest := t.manifest.addSstable level metadata }

/-- `Manifest.save`. -/
def save (t : Tables) : Tables := { t with manifest := t.manifest.save }

/-- What is there after the directory has been opened again. -/
def reload (t : Tables) : Tables := { t with manifest := .load t.manifest.saved }

/-- A directory without tables. -/
def fresh : Tables := ⟨fun _ => none, .load none⟩

/-- A lookup in the tables answers with the layer of the tables, and raises nothing. -/
theorem get_eq {t : Tables} (h : t.Readable) (key : Bytes) : t.get key = .ok (t.layer key) :=
  SSTableManager.get_eq h key

/-! ## Files without an entry -/

/-- The tables after one file has been overwritten or removed. -/
def setFile (t : Tables) (path : Path) (content : Option Bytes) : Tables :=
  { t with files := Function.update t.files path content }

/-- Writing a file that no entry names leaves the files of all entries as they are. -/
theorem files_of_not_listed {t : Tables} {path : Path} (h : ¬t.Listed path) (content : Option Bytes) :
    ∀ m ∈ readOrder t.manifest, (t.setFile path content).files m.path = t.files m.path :=
  fun m hm => Function.update_of_ne (fun e => h ⟨m, hm, e⟩) ..

/-- So it changes no answer. -/
theorem layer_setFile {t : Tables} {path : Path} (h : ¬t.Listed path) (content : Option Bytes) :
    (t.setFile path content).layer = t.layer :=
  tablesLayer_congr (files_of_not_listed h content)

/-- And all tables stay readable. -/
theorem readable_setFile {t : Tables} {path : Path} (hr : t.Readable) (h : ¬t.Listed path)
    (content : Option Bytes) : (t.setFile path content).Readable :=
  AllReadable.congr hr (files_of_not_listed h content)

/-- A write touches its own file and nothing else. -/
theorem write_eq_setFile (t : Tables) (sstable : SSTable) (pairs : List (Bytes × Bytes)) :
    ∃ content, (t.write sstable pairs).1 = t.setFile sstable.path content := by
  unfold write SSTable.write
  split
  · exact ⟨none, rfl⟩
  · exact ⟨_, rfl⟩

/-- `SSTable.write` touches the file only. -/
theorem manifest_write (t : Tables) (sstable : SSTable) (pairs : List (Bytes × Bytes)) :
    (t.write sstable pairs).1.manifest = t.manifest := rfl

/-! ## Writing, describing and recording a table -/

/-- A successful write leaves a readable table under its name. -/
theorem write_ok {t t' : Tables} {path : Path} {level : Nat} {sstable : SSTable}
    {pairs : List (Bytes × Bytes)} (hasc : Ascending pairs)
    (h : t.write (.init path level) pairs = (t', .ok sstable)) :
    t' = t.setFile path (some (SSTable.fileBytes pairs)) ∧ sstable.path = path ∧
      SSTable.IndexOf sstable pairs ∧ SSTable.Holds t'.files path pairs := by
  rcases SSTable.tableBytes_eq hasc.nodup with ⟨hfits, index, hindex, hbytes⟩ | ⟨-, e, hbytes⟩
  · rw [write, SSTable.write, hbytes] at h
    obtain ⟨rfl, hok⟩ := Prod.mk.inj h
    obtain rfl := Except.ok.inj hok
    exact ⟨rfl, rfl, .inr hindex, Function.update_self .., hasc, hfits⟩
  · rw [write, SSTable.write, hbytes] at h
    cases (Prod.mk.inj h).2

/-- **A written table can be described**, and its entry reads as its pairs. -/
theorem write_spec {t t' : Tables} {path : Path} {level : Nat} {sstable : SSTable}
    {pairs : List (Bytes × Bytes)} (hasc : Ascending pairs) (hne : pairs ≠ [])
    (h : t.write (.init path level) pairs = (t', .ok sstable)) (nowMs : Nat) :
    ∃ m, t'.buildMetadata sstable level nowMs = .ok m ∧ Lists t'.files m pairs ∧
      m.path = path ∧ m.createdAtMs = some nowMs := by
  obtain ⟨-, hpath, hindex, hholds⟩ := write_ok hasc h
  obtain ⟨m, hm, hlists, hmpath, -, hcreated⟩ :=
    lists_buildMetadata (t := sstable) (by rwa [hpath]) hindex hne level nowMs
  exact ⟨m, hm, hlists, hmpath.trans hpath, hcreated⟩

/-- What a flush does to the tables: write the items of a buffer to a new table of
level 0, describe it and record it. -/
def recordFlushed (t : Tables) (path : Path) (items : List (Bytes × Bytes)) (nowMs : Nat) :
    Option (Tables × SSTableMeta) :=
  match t.write (.init path 0) items with
  | (_, .error _) => none
  | (t, .ok sstable) =>
    match t.buildMetadata sstable 0 nowMs with
    | .error _ => none
    | .ok metadata => some (t.addSstable 0 metadata, metadata)

/-- Whether a flush can record its items does not depend on the other tables, nor does
the entry it records. -/
theorem recordFlushed_eq {items : List (Bytes × Bytes)} (hasc : Ascending items) (hne : items ≠ [])
    (path : Path) (nowMs : Nat) :
    (∀ t : Tables, t.recordFlushed path items nowMs = none) ∨
      ∃ m : SSTableMeta, m.path = path ∧ m.createdAtMs = some nowMs ∧ ∀ t : Tables,
        t.recordFlushed path items nowMs =
            some ((t.setFile path (some (SSTable.fileBytes items))).addSstable 0 m, m) ∧
          Lists (t.setFile path (some (SSTable.fileBytes items))).files m items := by
  rcases SSTable.tableBytes_eq hasc.nodup with ⟨hfits, index, hindex, hbytes⟩ | ⟨-, e, hbytes⟩
  · let sstable : SSTable := ⟨path, 0, index⟩
    have hholds : ∀ t : Tables,
        SSTable.Holds (t.setFile path (some (SSTable.fileBytes items))).files path items :=
      fun t => ⟨Function.update_self .., hasc, hfits⟩
    -- the entry is built from the file alone: take it from an empty directory
    obtain ⟨m, hbuild, -, hpath, -, hcreated⟩ :=
      lists_buildMetadata (t := sstable) (hholds fresh) (.inr hindex) hne 0 nowMs
    refine .inr ⟨m, hpath, hcreated, ?_⟩
    intro t
    have hsame : (t.setFile path (some (SSTable.fileBytes items))).files path =
        (fresh.setFile path (some (SSTable.fileBytes items))).files path :=
      (hholds t).file.trans (hholds fresh).file.symm
    have hbuild' : (t.setFile path (some (SSTable.fileBytes items))).buildMetadata sstable 0 nowMs =
        .ok m := (buildMetadata_congr (t := sstable) hsame 0 nowMs).trans hbuild
    constructor
    · rw [recordFlushed, write, SSTable.write, hbytes]
      show (match (t.setFile path (some (SSTable.fileBytes items))).buildMetadata sstable 0 nowMs with
        | .error _ => none
        | .ok metadata => some ((t.setFile path (some (SSTable.fileBytes items))).addSstable 0 metadata,
            metadata)) = _
      rw [hbuild']
    · obtain ⟨m', hm', hlists, -⟩ :=
        lists_buildMetadata (t := sstable) (hholds t) (.inr hindex) hne 0 nowMs
      rwa [Except.ok.inj (hbuild'.symm.trans hm')]
  · refine .inl ?_
    intro t
    rw [recordFlushed, write, SSTable.write, hbytes]

/-- The tables after such a flush, whether or not it could record its items. -/
def flushed (t : Tables) (path : Path) (items : List (Bytes × Bytes)) (nowMs : Nat) : Tables :=
  ((t.recordFlushed path items nowMs).map Prod.fst).getD t

@[simp] theorem layer_save (t : Tables) : ({ t with manifest := t.manifest.save } : Tables).layer = t.layer :=
  rfl

/-- An entry for a readable file keeps the tables readable. -/
theorem readable_addSstable {t : Tables} (hr : t.Readable) {m : SSTableMeta}
    (hm : SSTableManager.Readable t.files m) (level : Nat) : (t.addSstable level m).Readable :=
  AllReadable.addEntry hr hm

/-- **The newest table of level 0** goes over everything else. -/
theorem layer_addSstable {t : Tables} {m : SSTableMeta} {pairs : List (Bytes × Bytes)}
    (hm : Lists t.files m pairs) (hnew : ∀ m' ∈ t.manifest.getLevelSstables 0, m'.stamp ≤ m.stamp) :
    (t.addSstable 0 m).layer = above (assoc pairs) t.layer := by
  rw [← tableLayer_of_lists hm]
  exact tablesLayer_addEntry hnew

/-- The tables that `flush` leaves are readable, when the name was free. -/
theorem readable_flushed {t : Tables} {path : Path} {items : List (Bytes × Bytes)} {nowMs : Nat}
    (hr : t.Readable) (hfree : ¬t.Listed path) (hasc : Ascending items) (hne : items ≠ []) :
    (t.flushed path items nowMs).Readable := by
  rcases recordFlushed_eq hasc hne path nowMs with hnone | ⟨m, rfl, -, hsome⟩
  · rw [flushed, hnone]
    exact hr
  · obtain ⟨hrun, hlists⟩ := hsome t
    rw [flushed, hrun]
    exact readable_addSstable (readable_setFile hr hfree _) ⟨items, hlists⟩ 0

theorem readable_fresh : fresh.Readable := nofun

/-- After `add_sstable` the new path is named besides those before. -/
theorem listed_addSstable {t : Tables} {level : Nat} {m : SSTableMeta} {path : Path} :
    (t.addSstable level m).Listed path ↔ path = m.path ∨ t.Listed path := by
  constructor
  · rintro ⟨m', hm', rfl⟩
    rcases mem_readOrder_addEntry.mp hm' with rfl | hm'
    · exact .inl rfl
    · exact .inr ⟨m', hm', rfl⟩
  · rintro (rfl | ⟨m', hm', rfl⟩)
    · exact ⟨m, mem_readOrder_addEntry.mpr (.inl rfl), rfl⟩
    · exact ⟨m', mem_readOrder_addEntry.mpr (.inr hm'), rfl⟩

/-! ## One more table -/

/-- Readable tables under distinct names, each of them listed before or the new one. -/
structure OneNew (newPath : Path) (nowMs : Nat) (t t' : Tables) : Prop where
  readable : t'.Readable
  distinct : ((readOrder t'.manifest).map SSTableMeta.path).Nodup
  listed : ∀ m ∈ readOrder t'.manifest,
    m ∈ readOrder t.manifest ∨ m.path = newPath ∧ m.createdAtMs = some nowMs

theorem oneNew_refl {t : Tables} (hr : t.Readable)
    (hdistinct : ((readOrder t.manifest).map SSTableMeta.path).Nodup) (newPath : Path) (nowMs : Nat) :
    OneNew newPath nowMs t t := ⟨hr, hdistinct, fun _ hm => .inl hm⟩

/-- Writing the file of the new table is the first of the two steps of a flush. -/
theorem oneNew_setFile {t : Tables} (hr : t.Readable)
    (hdistinct : ((readOrder t.manifest).map SSTableMeta.path).Nodup) {newPath : Path}
    (hfree : ¬t.Listed newPath) (nowMs : Nat) (content : Option Bytes) :
    OneNew newPath nowMs t (t.setFile newPath content) :=
  ⟨readable_setFile hr hfree content, hdistinct, fun _ hm => .inl hm⟩

/-- Entering it in the manifest is the second. -/
theorem oneNew_addSstable {t : Tables} (hr : t.Readable)
    (hdistinct : ((readOrder t.manifest).map SSTableMeta.path).Nodup) {m : SSTableMeta} {nowMs : Nat}
    (hfree : ¬t.Listed m.path) (hcreated : m.createdAtMs = some nowMs) {content : Option Bytes}
    (hm : SSTableManager.Readable (t.setFile m.path content).files m) :
    OneNew m.path nowMs t ((t.setFile m.path content).addSstable 0 m) := by
  refine ⟨readable_addSstable (readable_setFile hr hfree content) hm 0, ?_, ?_⟩
  · have hperm := (readOrder_addEntry_perm t.manifest m).map SSTableMeta.path
    rw [List.map_cons] at hperm
    refine hperm.nodup_iff.mpr (List.nodup_cons.mpr ⟨?_, hdistinct⟩)
    intro hmem
    obtain ⟨m', hm', heq⟩ := List.mem_map.mp hmem
    exact hfree ⟨m', hm', heq⟩
  · intro m' hm'
    rcases mem_readOrder_addEntry.mp hm' with rfl | hm'
    · exact .inr ⟨rfl, hcreated⟩
    · exact .inl hm'

/-! ## Names -/

/-- Flushes at different times write different files. -/
theorem sstablePath_inj {storagePath : Path} {a b : Nat}
    (h : sstablePath storagePath a = sstablePath storagePath b) : a = b := by
  have h' := congrArg String.toList h
  simp only [sstablePath, String.toList_append] at h'
  exact Nat.repr_injective (String.toList_inj.mp (List.append_cancel_left (List.append_cancel_right h')))

/-- Compactions at different times write different files. -/
theorem compactedPath_inj {storagePath : Path} {a b : Nat}
    (h : compactedPath storagePath a = compactedPath storagePath b) : a = b := by
  have h' := congrArg String.toList h
  simp only [compactedPath, String.toList_append] at h'
  exact Nat.repr_injective (String.toList_inj.mp (List.append_cancel_left (List.append_cancel_right h')))

/-- A decimal number does not begin with the letter of `compacted`. -/
theorem sstablePath_ne_compactedPath (storagePath : Path) (a b : Nat) :
    sstablePath storagePath a ≠ compactedPath storagePath b := by
  intro h
  have h' := congrArg String.toList h
  have hprefix : "/sstable_compacted_".toList = "/sstable_".toList ++ 'c' :: "ompacted_".toList := by
    decide +kernel
  simp only [sstablePath, compactedPath, String.toList_append, hprefix, List.append_assoc,
    List.append_cancel_left_eq] at h'
  have hdigits : (toString a).toList = Nat.toDigits 10 a := by
    show (Nat.repr a).toList = _
    rw [Nat.repr]
    simp
  -- the first character behind the common part is a digit on one side, a letter on the other
  rw [hdigits] at h'
  obtain ⟨d, ds, hds⟩ := List.exists_cons_of_ne_nil (Nat.toDigits_ne_nil (n := a) (b := 10))
  have hdigit : d.isDigit := Nat.isDigit_of_mem_toDigits (by decide) (by decide)
    (hds ▸ List.mem_cons_self)
  rw [hds] at h'
  obtain ⟨rfl, -⟩ := List.cons.inj h'
  cases hdigit

end Tables

end Logvine
