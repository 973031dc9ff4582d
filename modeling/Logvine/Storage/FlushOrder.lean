import Logvine.Storage.EngineRun

/-!
# Names and order of flushed tables

Without compactions, level 0 is the list of the tables that flushes have recorded, in
that order (`LevelZero`), as long as no flush writes to the file of a listed table.

- `names_unused_iff`: that is the case exactly if no flush reads the millisecond that
  named an earlier recorded table; then every recorded buffer stays readable;
- `latestFirst_iff`: the table of a key consulted first is the one flushed last exactly
  if the clock had not gone back between the flushes that hold the key.

A table is named by the millisecond at which its flush began to write (`engine.py`, 304) and
placed by the millisecond at which its entry was built (`sstable_manager.py`, 56). `time` is
the time of day, which can be set back.
-/

namespace Logvine

open Layer SSTableManager

namespace LSMStorageEngine

/-- A table recorded by a flush: the readings of the clock it took, and its items. -/
structure FlushRecord where
  nameMs : Nat
  createdMs : Nat
  items : List (Bytes × Bytes)
deriving DecidableEq, Repr

theorem exists_right_of_forall₂ {α β : Type} {R : α → β → Prop} {as : List α} {bs : List β}
    (h : List.Forall₂ R as bs) {a : α} (ha : a ∈ as) : ∃ b ∈ bs, R a b := by
  induction h with
  | nil => cases ha
  | @cons a' b' as bs hab _ ih =>
    rcases List.mem_cons.mp ha with rfl | ha
    · exact ⟨b', List.mem_cons_self, hab⟩
    · obtain ⟨b, hb, hR⟩ := ih ha
      exact ⟨b, List.mem_cons_of_mem _ hb, hR⟩

theorem exists_left_of_forall₂ {α β : Type} {R : α → β → Prop} {as : List α} {bs : List β}
    (h : List.Forall₂ R as bs) {b : β} (hb : b ∈ bs) : ∃ a ∈ as, R a b :=
  exists_right_of_forall₂ (R := fun b a => R a b) h.flip hb

section Flushes

variable {L : Type} [Log L]

/-- The table a call records, if it is a flush with items that fit the table format. -/
def Op.record (e : LSMStorageEngine L) : Op → List FlushRecord
  | .flush nameMs createdMs =>
    if e.memtable.getFrozenItems.entries = [] then []
    else
      match SSTable.tableBytes e.memtable.getFrozenItems.sortedItems with
      | .error _ => []
      | .ok _ => [⟨nameMs, createdMs, e.memtable.getFrozenItems.sortedItems⟩]
  | _ => []

/-- The tables recorded in a run, in order. -/
def records : LSMStorageEngine L → List Op → List FlushRecord
  | _, [] => []
  | e, op :: ops => op.record e ++ records (op.run e).1 ops

/-- An entry of the manifest is that of a recorded table. -/
structure EntryOf (storagePath : Path) (files : Files) (f : FlushRecord) (m : SSTableMeta) : Prop where
  path : m.path = sstablePath storagePath f.nameMs
  created : m.createdAtMs = some f.createdMs
  lists : Lists files m f.items

/-- The manifest lists the recorded tables at level 0, in the order of the flushes, and
no others. -/
structure LevelZero (fs : List FlushRecord) (e : LSMStorageEngine L) : Prop where
  entries : List.Forall₂ (EntryOf e.storagePath e.tables.files) fs (e.tables.manifest.getLevelSstables 0)
  others : ∀ level, level ≠ 0 → e.tables.manifest.getLevelSstables level = []

omit [Log L] in
/-- The paths that the tables name are those of the flushes. -/
theorem LevelZero.listed_iff {fs : List FlushRecord} {e : LSMStorageEngine L} (h : LevelZero fs e) (path : Path) :
    e.tables.Listed path ↔ ∃ f ∈ fs, path = sstablePath e.storagePath f.nameMs := by
  constructor
  · rintro ⟨m, hm, rfl⟩
    obtain ⟨level, hlevel⟩ := mem_readOrder.mp hm
    by_cases h0 : level = 0
    · subst h0
      obtain ⟨f, hf, hentry⟩ := exists_left_of_forall₂ h.entries hlevel
      exact ⟨f, hf, hentry.path⟩
    · rw [h.others level h0] at hlevel
      cases hlevel
  · rintro ⟨f, hf, rfl⟩
    obtain ⟨m, hm, hentry⟩ := exists_right_of_forall₂ h.entries hf
    exact ⟨m, mem_readOrder.mpr ⟨0, hm⟩, hentry.path⟩

/-- A flush as its record shows it. -/
theorem record_flush_cases (e : LSMStorageEngine L) (nameMs createdMs : Nat) :
    ((Op.flush nameMs createdMs).record e = [] ∧
        ((e.flush nameMs createdMs).tables = e.tables ∨
          (Op.flush nameMs createdMs).target e = some (sstablePath e.storagePath nameMs) ∧
          (e.flush nameMs createdMs).tables =
            e.tables.setFile (sstablePath e.storagePath nameMs) none)) ∨
      ∃ f m, f.nameMs = nameMs ∧ (Op.flush nameMs createdMs).record e = [f] ∧
        (Op.flush nameMs createdMs).target e = some (sstablePath e.storagePath nameMs) ∧
        EntryOf e.storagePath (e.tables.setFile m.path (some (SSTable.fileBytes f.items))).files f m ∧
        (e.flush nameMs createdMs).tables =
          ((e.tables.setFile m.path (some (SSTable.fileBytes f.items))).addSstable 0 m).save := by
  rcases flush_cases e nameMs createdMs with ⟨hnil, heq⟩ | ⟨frozen, walOffset, rest, hqueue, hne, hcases⟩
  · exact .inl ⟨if_pos hnil, .inl (congrArg tables heq)⟩
  · have hitems : e.memtable.getFrozenItems = frozen := by rw [MemTable.getFrozenItems, hqueue]
    have hentries : frozen.entries ≠ [] := fun hnil => hne (frozen.sortedItems_eq_nil_iff.mpr hnil)
    have htarget := target_flush e nameMs createdMs hqueue hne
    rcases SSTable.tableBytes_eq frozen.sortedItems_ascending.nodup with ⟨hfits, index, -, hbytes⟩ |
      ⟨hfits, err, hbytes⟩
    · rcases hcases with ⟨hnot, -⟩ | ⟨-, m, hpath, hcreated, hlists, heq⟩
      · exact absurd hfits hnot
      · refine .inr ⟨⟨nameMs, createdMs, frozen.sortedItems⟩, m, rfl, ?_, htarget,
          ⟨hpath, hcreated, hlists⟩, congrArg tables heq⟩
        rw [Op.record, hitems, if_neg hentries, hbytes]
    · rcases hcases with ⟨-, heq⟩ | ⟨hyes, -⟩
      · refine .inl ⟨?_, .inr ⟨htarget, congrArg tables heq⟩⟩
        rw [Op.record, hitems, if_neg hentries, hbytes]
      · exact absurd hyes hfits

omit [Log L] in
/-- What is written to other files does not matter. -/
theorem LevelZero.congr {fs : List FlushRecord} {e e' : LSMStorageEngine L} (h : LevelZero fs e)
    (hpath : e'.storagePath = e.storagePath) (hmanifest : e'.tables.manifest = e.tables.manifest)
    (hfiles : ∀ path, e.tables.Listed path → e'.tables.files path = e.tables.files path) : LevelZero fs e' := by
  refine ⟨?_, by rw [hmanifest]; exact h.others⟩
  rw [hmanifest, hpath]
  have hmem : ∀ m ∈ e.tables.manifest.getLevelSstables 0, e.tables.Listed m.path :=
    fun m hm => ⟨m, mem_readOrder.mpr ⟨0, hm⟩, rfl⟩
  refine (List.forall₂_iff_zip.mp h.entries).imp_right ?_ |> List.forall₂_iff_zip.mpr
  intro hall f m hzip
  have hentry := hall hzip
  exact ⟨hentry.path, hentry.created, hentry.lists.congr (hfiles _ (hmem m (List.of_mem_zip hzip).2))⟩

/-- A call that finds an unused name, and is no compaction, adds its record. -/
theorem levelZero_run {fs : List FlushRecord} {e : LSMStorageEngine L} (h : LevelZero fs e) {op : Op}
    (hop : op.nowNs = none) (hname : NameOk e op) : LevelZero (fs ++ op.record e) (op.run e).1 := by
  have hwrote : op.createdMs = none → op.record e = [] → LevelZero (fs ++ op.record e) (op.run e).1 := by
    intro hcreated hrecord
    have hw := wrote_run e op hcreated
    rw [hrecord, List.append_nil]
    exact h.congr hw.storagePath (by rw [hw.tables]) fun _ _ => by rw [hw.tables]
  cases op with
  | put key value | delete key | batchPut keys values | rotate => exact hwrote rfl rfl
  | compact nowNs createdMs => cases hop
  | flush nameMs createdMs =>
    have hpath : (e.flush nameMs createdMs).storagePath = e.storagePath := by
      rcases flush_cases e nameMs createdMs with ⟨-, heq⟩ | ⟨_, _, _, -, -, ⟨-, heq⟩ | ⟨-, _, -, -, -, heq⟩⟩ <;>
        rw [heq]
    show LevelZero (fs ++ (Op.flush nameMs createdMs).record e) (e.flush nameMs createdMs)
    -- without a record the manifest stays as it is, and at most a file of an unlisted name has gone
    rcases record_flush_cases e nameMs createdMs with ⟨hrecord, htables⟩ | ⟨f, m, hf, hrecord, htarget, hentry, htables⟩
    · rw [hrecord, List.append_nil]
      rcases htables with htables | ⟨htarget, htables⟩
      · exact h.congr hpath (by rw [htables]) fun _ _ => by rw [htables]
      · have hfree := hname _ htarget
        refine h.congr hpath (by rw [htables]; rfl) ?_
        rintro path ⟨m, hm, rfl⟩
        rw [htables]
        exact Tables.files_of_not_listed hfree _ m hm
    · have hfree := hname _ htarget
      rw [← hf, ← hentry.path] at hfree
      have hkept : LevelZero fs { e with tables := e.tables.setFile m.path (some (SSTable.fileBytes f.items)) } :=
        h.congr rfl rfl fun path ⟨m', hm', heq⟩ => heq ▸ Tables.files_of_not_listed hfree _ m' hm'
      have hmanifest : ∀ level, (e.flush nameMs createdMs).tables.manifest.getLevelSstables level =
          if 0 = level then e.tables.manifest.getLevelSstables 0 ++ [m]
          else e.tables.manifest.getLevelSstables level := by
        intro level
        rw [htables]
        exact Manifest.getLevelSstables_addEntry ..
      rw [hrecord]
      constructor
      · rw [hmanifest, if_pos rfl, hpath, htables]
        exact List.rel_append hkept.entries (.cons hentry .nil)
      · intro level h0
        rw [hmanifest, if_neg (Ne.symm h0)]
        exact h.others level h0

theorem storagePath_run (e : LSMStorageEngine L) (op : Op) : (op.run e).1.storagePath = e.storagePath := by
  cases op with
  | put key value | delete key | batchPut keys values | rotate => exact (wrote_run e _ rfl).storagePath
  | compact nowNs createdMs => rfl
  | flush nameMs createdMs =>
    show (e.flush nameMs createdMs).storagePath = e.storagePath
    rcases flush_cases e nameMs createdMs with ⟨-, heq⟩ | ⟨_, _, _, -, -, ⟨-, heq⟩ | ⟨-, _, -, -, -, heq⟩⟩ <;>
      rw [heq]

/-- The directory is the same all along a run. -/
theorem storagePath_runOps (e : LSMStorageEngine L) (ops : List Op) :
    (runOps e ops).storagePath = e.storagePath := by
  induction ops generalizing e with
  | nil => rfl
  | cons op ops ih => exact (ih (op.run e).1).trans (storagePath_run e op)

/-! ## Names -/

/-- No flush that has something to write reads a millisecond that named a table recorded
before. -/
def ReadingsFresh : List FlushRecord → LSMStorageEngine L → List Op → Prop
  | _, _, [] => True
  | seen, e, op :: ops =>
    (op.target e ≠ none → ∀ nameMs ∈ op.nameMs, nameMs ∉ seen.map FlushRecord.nameMs) ∧
      ReadingsFresh (seen ++ op.record e) (op.run e).1 ops

omit [Log L] in
/-- A flush writes to an unused name exactly when no flush before it read the same milliseconds.
-/
theorem nameOk_iff {fs : List FlushRecord} {e : LSMStorageEngine L} (h : LevelZero fs e) {op : Op}
    (hop : op.nowNs = none) :
    NameOk e op ↔ (op.target e ≠ none → ∀ nameMs ∈ op.nameMs, nameMs ∉ fs.map FlushRecord.nameMs) := by
  cases op with
  | put key value | delete key | batchPut keys values | rotate =>
    exact ⟨fun _ hne => absurd rfl hne, fun _ => by rintro _ ⟨⟩⟩
  | compact nowNs createdMs => cases hop
  | flush nameMs createdMs =>
    rw [NameOk, Op.target]
    split
    · exact ⟨fun _ hne => absurd rfl hne, fun _ => by rintro _ ⟨⟩⟩
    · constructor
      · intro hname _ _ hn hmem
        obtain rfl := Option.mem_some_iff.mp hn
        obtain ⟨f, hf, rfl⟩ := List.mem_map.mp hmem
        exact hname _ rfl ((h.listed_iff _).mpr ⟨f, hf, rfl⟩)
      · rintro hread _ ⟨rfl⟩ hlisted
        obtain ⟨f, hf, heq⟩ := (h.listed_iff _).mp hlisted
        exact hread (by simp) nameMs rfl (Tables.sstablePath_inj heq ▸ List.mem_map_of_mem hf)

/-- So the names of a run are unused exactly when its readings are all different. -/
theorem along_names_iff {fs : List FlushRecord} {e : LSMStorageEngine L} (h : LevelZero fs e) {ops : List Op}
    (hops : ∀ op ∈ ops, op.nowNs = none) : Along NameOk e ops ↔ ReadingsFresh fs e ops := by
  induction ops generalizing fs e with
  | nil => exact Iff.rfl
  | cons op ops ih =>
    have hop := hops op List.mem_cons_self
    rw [Along, ReadingsFresh, nameOk_iff h hop]
    -- a call with an unused name keeps the list, against which the next one is judged
    refine and_congr_right ?_
    intro hread
    exact ih (levelZero_run h hop ((nameOk_iff h hop).mpr hread))
      fun op' hop' => hops op' (List.mem_cons_of_mem _ hop')

/-- With unused names level 0 has a table for each flush, in the order of the flushes. -/
theorem levelZero_runOps {fs : List FlushRecord} {e : LSMStorageEngine L} (h : LevelZero fs e) {ops : List Op}
    (hops : ∀ op ∈ ops, op.nowNs = none) (hnames : Along NameOk e ops) :
    LevelZero (fs ++ records e ops) (runOps e ops) := by
  induction ops generalizing fs e with
  | nil =>
    rw [records, List.append_nil]
    exact h
  | cons op ops ih =>
    have hnext := levelZero_run h (hops op List.mem_cons_self) hnames.1
    rw [records, ← List.append_assoc]
    exact ih hnext (fun op' hop' => hops op' (List.mem_cons_of_mem _ hop')) hnames.2

/-! ## Recency -/

/-- The recorded tables that hold a key. -/
def holding (fs : List FlushRecord) (key : Bytes) : List FlushRecord :=
  fs.filter fun f => (assoc f.items key).isSome

/-- What a table is sorted by. -/
def FlushRecord.stamp (storagePath : Path) (f : FlushRecord) : Nat ×ₗ String :=
  toLex (f.createdMs, sstablePath storagePath f.nameMs)

/-- Of the tables that hold the key, the one flushed last is consulted first: by lookups,
and in the orders range reads and compactions go by. -/
def LatestFirst (fs : List FlushRecord) (storagePath : Path) (t : Tables) (key : Bytes) : Prop :=
  ∀ last ∈ (holding fs key).getLast?, t.get key = .ok (assoc last.items key) ∧
    ∀ level ∈ [none, some 0],
      (((iterSstableMetadata t.manifest level true).map Prod.snd).find? fun m =>
        (tableLayer t.files m key).isSome).map SSTableMeta.path = some (sstablePath storagePath last.nameMs)

/-- The clock, and for equal readings the name, had not gone back at the last flush that
holds the key. -/
def ClockFollows (fs : List FlushRecord) (storagePath : Path) (key : Bytes) : Prop :=
  ∀ last ∈ (holding fs key).getLast?, ∀ f ∈ holding fs key, f.stamp storagePath ≤ last.stamp storagePath

omit [Log L] in
/-- A stack of tables answers with the first one that has the key. -/
theorem resolve_eq_find (files : Files) (ms : List SSTableMeta) (key : Bytes) :
    resolve (ms.map (tableLayer files)) key =
      (ms.find? fun m => (tableLayer files m key).isSome).bind fun m => tableLayer files m key := by
  induction ms with
  | nil => rfl
  | cons m ms ih =>
    rw [List.map_cons, resolve_cons, above_apply, List.find?_cons, ih]
    cases h : tableLayer files m key with
    | none => simp
    | some v => simp [h]

omit [Log L] in
/-- The first table that has the key is the one flushed last exactly when the clock followed the
flushes that wrote it. -/
theorem latestFirst_of_levelZero {fs : List FlushRecord} {e : LSMStorageEngine L} (h : LevelZero fs e)
    (hsound : Sound e) (key : Bytes) :
    LatestFirst fs e.storagePath e.tables key ↔ ClockFollows fs e.storagePath key := by
  let p : SSTableMeta → Bool := fun m => (tableLayer e.tables.files m key).isSome
  have hentry : ∀ {f m}, EntryOf e.storagePath e.tables.files f m →
      p m = (assoc f.items key).isSome ∧ m.stamp = f.stamp e.storagePath := by
    intro f m hm
    constructor
    · show (tableLayer e.tables.files m key).isSome = _
      rw [tableLayer_of_lists hm.lists]
    · rw [SSTableMeta.stamp, hm.created, hm.path]
      rfl
  -- entries are told apart by their paths, and so by what they are sorted by
  have hinj : ∀ x ∈ e.tables.manifest.getLevelSstables 0, ∀ y ∈ e.tables.manifest.getLevelSstables 0,
      x.path = y.path → x = y := by
    intro x hx y hy hpath
    exact List.inj_on_of_nodup_map hsound.distinct (mem_readOrder.mpr ⟨0, hx⟩) (mem_readOrder.mpr ⟨0, hy⟩) hpath
  have hstamps : ∀ x ∈ e.tables.manifest.getLevelSstables 0, ∀ y ∈ e.tables.manifest.getLevelSstables 0,
      x.stamp = y.stamp → x = y :=
    fun x hx y hy heq => hinj x hx y hy (congrArg (fun s => (ofLex s).2) heq)
  -- the order of all tables starts with that of level 0, where the key is found
  have horder : ∀ {x}, (levelOrder e.tables.manifest 0).find? p = some x →
      (readOrder e.tables.manifest).find? p = some x := by
    intro x hx
    rw [readOrder_eq, List.find?_append, hx]
    rfl
  refine forall_congr' fun last => imp_congr_right ?_
  intro hlast
  obtain ⟨hlastmem, hlastkey⟩ := List.mem_filter.mp (List.mem_of_getLast? hlast)
  obtain ⟨m, hm, hmlast⟩ := exists_right_of_forall₂ h.entries hlastmem
  have hpm : p m = true := (hentry hmlast).1.trans hlastkey
  -- the first table found is the one with the largest stamp of those that hold the key
  have hfind : (levelOrder e.tables.manifest 0).find? p = some m ↔
      ∀ f ∈ holding fs key, f.stamp e.storagePath ≤ last.stamp e.storagePath := by
    rw [levelOrder, find?_newestFirst_iff SSTableMeta.stamp hstamps, (hentry hmlast).2]
    constructor
    · rintro ⟨-, -, hmax⟩ f hf
      obtain ⟨hfmem, hfkey⟩ := List.mem_filter.mp hf
      obtain ⟨x, hx, hxf⟩ := exists_right_of_forall₂ h.entries hfmem
      rw [← (hentry hxf).2]
      exact hmax x hx ((hentry hxf).1.trans hfkey)
    · refine fun hmax => ⟨hm, hpm, ?_⟩
      intro x hx hpx
      obtain ⟨f, hf, hxf⟩ := exists_left_of_forall₂ h.entries hx
      rw [(hentry hxf).2]
      exact hmax f (List.mem_filter.mpr ⟨hf, (hentry hxf).1.symm.trans hpx⟩)
  rw [← hfind]
  constructor
  · rintro ⟨-, hlevels⟩
    have hpath := hlevels (some 0) (by simp)
    rw [map_snd_iterSstableMetadata_level] at hpath
    obtain ⟨x, hx, hxpath⟩ := Option.map_eq_some_iff.mp hpath
    have hxmem := (mem_newestFirst _).mp (List.mem_of_find?_eq_some hx)
    rwa [hinj x hxmem m hm (hxpath.trans hmlast.path.symm)] at hx
  · intro hfirst
    constructor
    · rw [Tables.get_eq hsound.readable, Tables.layer, tablesLayer, resolve_eq_find, horder hfirst,
        ← tableLayer_of_lists hmlast.lists]
      rfl
    · intro level hlevel
      rcases List.mem_cons.mp hlevel with rfl | hlevel
      · rw [map_snd_iterSstableMetadata]
        show ((readOrder e.tables.manifest).find? p).map SSTableMeta.path = _
        rw [horder hfirst, ← hmlast.path]
        rfl
      · rw [List.mem_singleton.mp hlevel, map_snd_iterSstableMetadata_level]
        show ((levelOrder e.tables.manifest 0).find? p).map SSTableMeta.path = _
        rw [hfirst, ← hmlast.path]
        rfl

end Flushes

section Fresh

variable [Zlib]

theorem levelZero_fresh (storagePath : Path) (memtableMaxSize : Int) :
    LevelZero [] (fresh storagePath memtableMaxSize) := ⟨.nil, fun _ _ => rfl⟩

/-- **When no flush takes the name of a live table**: in a run of writes, rotations and
flushes from an empty directory, no flush writes to the file of a listed table, and
every recorded buffer stays listed and readable, exactly if no flush with something to
write reads a millisecond that named an earlier recorded table. -/
theorem names_unused_iff (storagePath : Path) (memtableMaxSize : Int) (ops : List Op)
    (hops : ∀ op ∈ ops, op.nowNs = none) :
    (Along NameOk (fresh storagePath memtableMaxSize) ops ∧
        ∀ f ∈ records (fresh storagePath memtableMaxSize) ops,
          (runOps (fresh storagePath memtableMaxSize) ops).tables.Listed (sstablePath storagePath f.nameMs) ∧
            SSTable.Holds (runOps (fresh storagePath memtableMaxSize) ops).tables.files
              (sstablePath storagePath f.nameMs) f.items) ↔
      ReadingsFresh [] (fresh storagePath memtableMaxSize) ops := by
  have hstart := levelZero_fresh storagePath memtableMaxSize
  have hnames := along_names_iff hstart hops
  refine ⟨fun h => hnames.mp h.1, fun hfresh => ⟨hnames.mpr hfresh, ?_⟩⟩
  intro f hf
  have hzero := levelZero_runOps hstart hops (hnames.mpr hfresh)
  rw [List.nil_append] at hzero
  have hpath := storagePath_runOps (fresh storagePath memtableMaxSize) ops
  obtain ⟨m, hm, hentry⟩ := exists_right_of_forall₂ hzero.entries hf
  rw [hpath] at hentry
  exact ⟨⟨m, mem_readOrder.mpr ⟨0, hm⟩, hentry.path⟩, hentry.path ▸ hentry.lists.holds⟩

/-- **When recency follows the order of the flushes**: of the tables that hold a key, the
one flushed last is consulted first exactly if the clock had not gone back, between
the flushes that hold the key, by its last one. -/
theorem latestFirst_iff (storagePath : Path) (memtableMaxSize : Int) (ops : List Op)
    (hops : ∀ op ∈ ops, op.nowNs = none) (hnames : Along NameOk (fresh storagePath memtableMaxSize) ops)
    (key : Bytes) :
    LatestFirst (records (fresh storagePath memtableMaxSize) ops) storagePath
        (runOps (fresh storagePath memtableMaxSize) ops).tables key ↔
      ClockFollows (records (fresh storagePath memtableMaxSize) ops) storagePath key := by
  have hzero := levelZero_runOps (levelZero_fresh storagePath memtableMaxSize) hops hnames
  have hsound := sound_runOps (sound_fresh storagePath memtableMaxSize) hnames
  have := latestFirst_of_levelZero hzero hsound key
  rwa [List.nil_append, storagePath_runOps] at this

end Fresh

/-! ## Some runs -/

/-- Two buffers flushed within one millisecond. -/
def oneMillisecond : List Op :=
  [.put [97] [49], .rotate, .put [98] [50], .rotate, .flush 7 7, .flush 7 7]

/-- The second flush overwrites the table of the first, whose buffer is gone. -/
theorem names_unused_fails :
    ¬ ∀ (storagePath : Path) (memtableMaxSize : Int) (ops : List Op), (∀ op ∈ ops, op.nowNs = none) →
      Along NameOk (fresh storagePath memtableMaxSize) ops ∧
        ∀ f ∈ records (fresh storagePath memtableMaxSize) ops,
          (runOps (fresh storagePath memtableMaxSize) ops).tables.Listed (sstablePath storagePath f.nameMs) ∧
            SSTable.Holds (runOps (fresh storagePath memtableMaxSize) ops).tables.files
              (sstablePath storagePath f.nameMs) f.items := by
  intro h
  have hrecorded : (⟨7, 7, [([97], [49])]⟩ : FlushRecord) ∈ records (fresh "db" 1000) oneMillisecond := by
    decide +kernel
  have hfile := ((h "db" 1000 oneMillisecond (by decide)).2 _ hrecorded).2.file
  revert hfile
  decide +kernel

/-- A key flushed twice under names of their own, the clock being set back in between. -/
def clockSetBack : List Op :=
  [.put [97] [49], .rotate, .flush 1 10, .put [97] [50], .rotate, .flush 2 5]

theorem latest_first_fails :
    ¬ ∀ (storagePath : Path) (memtableMaxSize : Int) (ops : List Op), (∀ op ∈ ops, op.nowNs = none) →
      (ops.filterMap Op.nameMs).Nodup → ∀ key,
        LatestFirst (records (fresh storagePath memtableMaxSize) ops) storagePath
          (runOps (fresh storagePath memtableMaxSize) ops).tables key := by
  intro h
  have hrecords : records (fresh "db" 1000) clockSetBack =
      [⟨1, 10, [([97], [49])]⟩, ⟨2, 5, [([97], [50])]⟩] := by decide +kernel
  have hget := (h "db" 1000 clockSetBack (by decide) (by decide) [97] ⟨2, 5, [([97], [50])]⟩
    (by rw [hrecords]; decide)).1
  revert hget
  decide +kernel

/-- No name is used twice, so the value of the first flush stays in its file. -/
theorem names_unused_iff_clockSetBack :
    Along NameOk (fresh "db" 1000) clockSetBack ∧
      (runOps (fresh "db" 1000) clockSetBack).tables.Listed (sstablePath "db" 1) ∧
        SSTable.Holds (runOps (fresh "db" 1000) clockSetBack).tables.files (sstablePath "db" 1) [([97], [49])] := by
  have hfresh : ReadingsFresh [] (fresh "db" 1000) clockSetBack := by
    simp only [clockSetBack, ReadingsFresh]
    decide +kernel
  obtain ⟨hnames, hrecorded⟩ := (names_unused_iff "db" 1000 clockSetBack (by decide)).mpr hfresh
  exact ⟨hnames, hrecorded ⟨1, 10, [([97], [49])]⟩ (by decide +kernel)⟩

/-- The same without setting the clock back. -/
def clockMovedOn : List Op :=
  [.put [97] [49], .rotate, .flush 1 5, .put [97] [50], .rotate, .flush 2 10]

/-- The table flushed last comes first, unless the clock was set back. -/
theorem latestFirst_iff_clockSetBack :
    LatestFirst (records (fresh "db" 1000) clockMovedOn) "db" (runOps (fresh "db" 1000) clockMovedOn).tables [97] ∧
      ¬LatestFirst (records (fresh "db" 1000) clockSetBack) "db" (runOps (fresh "db" 1000) clockSetBack).tables
        [97] := by
  have hnames : ∀ ops : List Op, (∀ op ∈ ops, op.nowNs = none) → ReadingsFresh [] (fresh "db" 1000) ops →
      Along NameOk (fresh "db" 1000) ops :=
    fun ops hops => (along_names_iff (levelZero_fresh "db" 1000) hops).mpr
  refine ⟨(latestFirst_iff "db" 1000 clockMovedOn (by decide) (hnames _ (by decide) ?_) [97]).mpr ?_,
    mt (latestFirst_iff "db" 1000 clockSetBack (by decide) (hnames _ (by decide) ?_) [97]).mp ?_⟩
  · simp only [clockMovedOn, ReadingsFresh]
    decide +kernel
  · rw [ClockFollows]
    decide +kernel
  · simp only [clockSetBack, ReadingsFresh]
    decide +kernel
  · rw [ClockFollows]
    decide +kernel

end LSMStorageEngine

end Logvine
